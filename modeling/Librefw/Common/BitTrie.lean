import Mathlib.Logic.Function.Basic
import Mathlib.Data.List.Infix

/-!
# Binary tries

A trie branches on bits, and every node carries a value: a key is the
bit string that leads to the node. `find` reads the value at a key,
`descend` the whole subtrie there, and `put` changes the value at a key,
adding the nodes of the path that are missing with a blank value. The
one law of `put` is `find_put`: the key gets its value, the keys above it
exist from then on, and no other key is touched.
-/

namespace Librefw

/-- A trie: nothing, or a node with its value and its two children. -/
inductive BitTrie (β : Type) where
  | nil
  | node (val : β) (kids : Bool → BitTrie β)

namespace BitTrie

variable {β γ : Type} {blank : β} {f : β → β} {p q : List Bool}

/-- The two children. -/
def kid : BitTrie β → Bool → BitTrie β
  | nil => fun _ => nil
  | node _ kids => kids

/-- The value at the root. -/
def val? : BitTrie β → Option β
  | nil => none
  | node v _ => some v

/-- The subtrie at a key. -/
def descend (t : BitTrie β) : List Bool → BitTrie β
  | [] => t
  | b :: p => (t.kid b).descend p

/-- The value at a key. -/
def find (t : BitTrie β) (p : List Bool) : Option β := (t.descend p).val?

/-- The trie with the value at a key changed by `f`, the missing nodes of
the path added with the value `blank`. -/
def put (blank : β) (f : β → β) : List Bool → BitTrie β → BitTrie β
  | [], nil => node (f blank) fun _ => nil
  | [], node v kids => node (f v) kids
  | b :: p, nil => node blank (Function.update (fun _ => nil) b (put blank f p nil))
  | b :: p, node v kids => node v (Function.update kids b (put blank f p (kids b)))

/-- The trie with every value mapped. -/
def map (g : β → γ) : BitTrie β → BitTrie γ
  | nil => nil
  | node v kids => node (g v) fun b => (kids b).map g

@[simp] theorem kid_nil (b : Bool) : (nil : BitTrie β).kid b = nil := rfl
@[simp] theorem kid_node (v : β) (kids : Bool → BitTrie β) (b : Bool) :
    (node v kids).kid b = kids b := rfl
@[simp] theorem descend_nil_key (t : BitTrie β) : t.descend [] = t := rfl
@[simp] theorem descend_cons (t : BitTrie β) (b : Bool) (p : List Bool) :
    t.descend (b :: p) = (t.kid b).descend p := rfl

@[simp] theorem nil_descend (p : List Bool) : (nil : BitTrie β).descend p = nil := by
  induction p with
  | nil => rfl
  | cons b p ih => exact ih

@[simp] theorem find_nil (p : List Bool) : (nil : BitTrie β).find p = none := by
  simp [find, val?]

@[simp] theorem find_nil_key (v : β) (kids : Bool → BitTrie β) :
    (node v kids).find [] = some v := rfl

@[simp] theorem find_cons (t : BitTrie β) (b : Bool) (p : List Bool) :
    t.find (b :: p) = (t.kid b).find p := rfl

@[simp] theorem map_nil (g : β → γ) : (nil : BitTrie β).map g = nil := rfl

@[simp] theorem kid_map (g : β → γ) (t : BitTrie β) (b : Bool) :
    (t.map g).kid b = (t.kid b).map g := by
  cases t <;> rfl

theorem descend_map (g : β → γ) (t : BitTrie β) (p : List Bool) :
    (t.map g).descend p = (t.descend p).map g := by
  induction p generalizing t with
  | nil => rfl
  | cons b p ih => rw [descend_cons, kid_map, ih, descend_cons]

@[simp] theorem find_map (g : β → γ) (t : BitTrie β) (p : List Bool) :
    (t.map g).find p = (t.find p).map g := by
  rw [find, descend_map, find]
  cases t.descend p <;> rfl

/-- A trie is what is found in it. -/
theorem ext_find {t u : BitTrie β} (h : ∀ p, t.find p = u.find p) : t = u := by
  induction t generalizing u with
  | nil =>
    cases u with
    | nil => rfl
    | node w kids' => cases h []
  | node v kids ih =>
    cases u with
    | nil => cases h []
    | node w kids' =>
      obtain rfl : v = w := Option.some.inj (h [])
      have hkids : kids = kids' := funext fun b => ih b fun p => h (b :: p)
      rw [hkids]

/-- Mapping after one child is replaced. -/
theorem map_node_update (g : β → γ) (v : β) (kids : Bool → BitTrie β) (b : Bool)
    (t : BitTrie β) :
    (node v (Function.update kids b t)).map g =
      node (g v) (Function.update (fun c => (kids c).map g) b (t.map g)) := by
  simp only [map, node.injEq, true_and]
  funext c
  by_cases hc : c = b
  · subst hc; simp
  · simp [Function.update_of_ne hc]

/-- One equation for `put` along a bit, whether or not the node is there. -/
theorem put_cons (b : Bool) (t : BitTrie β) :
    put blank f (b :: p) t =
      node (t.val?.getD blank) (Function.update t.kid b (put blank f p (t.kid b))) := by
  cases t <;> rfl

/-- And for `put` at the root. -/
theorem put_nil (t : BitTrie β) : put blank f [] t = node (f (t.val?.getD blank)) t.kid := by
  cases t <;> rfl

/-- **The law of `put`.** The key gets its value, the keys above it exist,
and every other key is as before. -/
theorem find_put (t : BitTrie β) (p q : List Bool) :
    (put blank f p t).find q =
      if q = p then some (f ((t.find p).getD blank))
      else if q <+: p then some ((t.find q).getD blank)
      else t.find q := by
  induction p generalizing t q with
  | nil =>
    rw [put_nil]
    cases q with
    | nil => rfl
    | cons c q => simp
  | cons b p ih =>
    rw [put_cons]
    cases q with
    | nil => simp; rfl
    | cons c q =>
      by_cases hc : c = b
      · subst hc
        simp [ih, List.cons_prefix_cons]
      · simp [hc, List.cons_prefix_cons]

/-- The key that was put is found. -/
theorem find_put_self (t : BitTrie β) (p : List Bool) :
    (put blank f p t).find p = some (f ((t.find p).getD blank)) := by
  simp [find_put]

/-- A key no longer than the one put, or not below it, is untouched unless it
is on the path. -/
theorem find_put_of_not_prefix {t : BitTrie β} (h : ¬ q <+: p) :
    (put blank f p t).find q = t.find q := by
  have hne : q ≠ p := fun hqp => h (hqp ▸ List.prefix_refl _)
  rw [find_put, if_neg hne, if_neg h]

/-- Putting a key leaves the other keys of its length alone. -/
theorem find_put_of_ne {t : BitTrie β} (hlen : q.length = p.length) (hne : q ≠ p) :
    (put blank f p t).find q = t.find q :=
  find_put_of_not_prefix fun h => hne (h.eq_of_length hlen)

/-! ## Sets of prefixes

A trie of truth values as a set of keys, tested for a prefix of a key. -/

/-- Whether the trie marks the key or a key above it. -/
def marks : BitTrie Bool → List Bool → Bool
  | nil, _ => false
  | node v _, [] => v
  | node v kids, b :: p => v || (kids b).marks p

/-- **A mark on the way down is a marked prefix.** -/
theorem marks_iff {t : BitTrie Bool} : t.marks p = true ↔ ∃ q, q <+: p ∧ t.find q = some true := by
  induction p generalizing t with
  | nil =>
    cases t with
    | nil => simp [marks]
    | node v kids =>
      constructor
      · intro hv
        exact ⟨[], List.prefix_refl _, by rw [find_nil_key, show v = true from hv]⟩
      · rintro ⟨q, hq, hfind⟩
        rw [List.prefix_nil.1 hq, find_nil_key] at hfind
        exact Option.some.inj hfind
  | cons b p ih =>
    cases t with
    | nil => simp [marks]
    | node v kids =>
      rw [marks, Bool.or_eq_true, ih]
      constructor
      · rintro (hv | ⟨q, hq, hfind⟩)
        · exact ⟨[], List.nil_prefix, by rw [find_nil_key, hv]⟩
        · exact ⟨b :: q, List.cons_prefix_cons.2 ⟨rfl, hq⟩, hfind⟩
      · rintro ⟨q, hq, hfind⟩
        rcases q with _ | ⟨c, q⟩
        · rw [find_nil_key] at hfind
          exact Or.inl (Option.some.inj hfind)
        · obtain ⟨rfl, hrest⟩ := List.cons_prefix_cons.1 hq
          exact Or.inr ⟨q, hrest, hfind⟩

/-- Marking a key adds it to the set, and nothing else. -/
theorem find_mark {t : BitTrie Bool} :
    (put false (fun _ => true) p t).find q = some true ↔ q = p ∨ t.find q = some true := by
  rw [find_put]
  by_cases hqp : q = p
  · simp [hqp]
  · rw [if_neg hqp]
    by_cases hpre : q <+: p
    · rw [if_pos hpre]
      cases hf : t.find q <;> simp [hqp]
    · rw [if_neg hpre]
      simp [hqp]

end BitTrie

end Librefw
