import Librefw.Common.TrieBuild
import Librefw.Common.TrieWalk
import Librefw.Common.PathCopy
import Mathlib.Data.Finset.Card
import Mathlib.Data.Multiset.AddSub

/-!
# What an allocator grants

The answers of an allocator depend on how many requests there were before
and on what is in use, so what `n` requests in a row come to is a function
of these (`Allocator.serve`). A build that never looks at what it was given
needs a number of objects that does not depend on where they lie: it goes
as from a supply if the allocator grants that many, and else it ends in the
dereference of NULL (`put_serve`, `putAll_serve`, `cowPut_serve`). A trie
has a node for each initial segment of its keys, so the number is read off
the keys (`card_addrs`, `paths_putVals`).
-/

namespace Librefw

/-! ## The nodes of a trie -/

namespace BitTrie

variable {β γ : Type} {t : BitTrie β} {p q : List Bool}

/-- The keys there is a node for. -/
def paths : BitTrie β → Finset (List Bool)
  | nil => ∅
  | node _ kids => insert [] (((kids false).paths.image (List.cons false)) ∪
      ((kids true).paths.image (List.cons true)))

theorem mem_paths : q ∈ t.paths ↔ (t.find q).isSome := by
  induction t generalizing q with
  | nil => simp [paths]
  | node v kids ih =>
    cases q with
    | nil => simp [paths]
    | cons b q =>
      rw [find_cons, kid_node, ← ih b]
      cases b <;> simp [paths]

theorem paths_map (g : β → γ) (t : BitTrie β) : (t.map g).paths = t.paths := by
  ext q
  rw [mem_paths, mem_paths, find_map, Option.isSome_map]

/-- An insertion adds the node of every key on the way to its own. -/
theorem paths_put (blank : β) (f : β → β) (p : List Bool) (t : BitTrie β) :
    (put blank f p t).paths = t.paths ∪ p.inits.toFinset := by
  ext q
  rw [Finset.mem_union, List.mem_toFinset, List.mem_inits, mem_paths, mem_paths, find_put]
  by_cases hq : q = p
  · simp [hq]
  · rw [if_neg hq]
    by_cases hpre : q <+: p <;> simp [hpre]

theorem card_paths_node (v : β) (kids : Bool → BitTrie β) :
    (node v kids).paths.card = (kids false).paths.card + (kids true).paths.card + 1 := by
  have hdis : Disjoint ((kids false).paths.image (List.cons false))
      ((kids true).paths.image (List.cons true)) := by
    rw [Finset.disjoint_left]
    intro q hq hq'
    obtain ⟨r, -, rfl⟩ := Finset.mem_image.1 hq
    obtain ⟨r', -, heq⟩ := Finset.mem_image.1 hq'
    exact Bool.noConfusion (List.cons.inj heq).1
  rw [paths, Finset.card_insert_of_notMem (by simp), Finset.card_union_of_disjoint hdis,
    Finset.card_image_of_injective _ (List.cons_injective),
    Finset.card_image_of_injective _ (List.cons_injective)]

end BitTrie

namespace PtrTrie

variable {α : Type}

/-- A node has one address. -/
theorem card_addrs (t : PtrTrie α) : (addrs t).card = (vals t).paths.card := by
  rw [vals, BitTrie.paths_map]
  induction t with
  | nil => rfl
  | node x kids ih =>
    rw [addrs, Multiset.card_cons, Multiset.card_add, ih false, ih true, BitTrie.card_paths_node]

/-- The keys a run of insertions makes nodes for. -/
theorem paths_putVals (z : α) (xs : List (List Bool × (α → α))) (u : BitTrie α) :
    (putVals z xs u).paths = u.paths ∪ (xs.flatMap fun x => x.1.inits).toFinset := by
  induction xs generalizing u with
  | nil => simp [putVals]
  | cons x xs ih =>
    have hstep : putVals z (x :: xs) u = putVals z xs (BitTrie.put z x.2 x.1 u) := rfl
    rw [hstep, ih, BitTrie.paths_put, List.flatMap_cons, List.toFinset_append, Finset.union_assoc]

end PtrTrie

/-! ## Requests -/

/-- What an allocator has come to after `n` requests, all of them granted. -/
def Allocator.serve (A : Allocator) : ℕ → ℕ × Finset Addr → Option (ℕ × Finset Addr)
  | 0, x => some x
  | n + 1, x => (A.zalloc x.1 x.2).bind fun a => A.serve n (x.1 + 1, insert a x.2)

theorem Allocator.serve_add (A : Allocator) (k n : ℕ) (x : ℕ × Finset Addr) :
    A.serve (k + n) x = (A.serve k x).bind (A.serve n) := by
  induction k generalizing x with
  | zero => rw [Nat.zero_add, serve, Option.bind_some]
  | succ k ih =>
    rw [Nat.succ_add, serve, serve, Option.bind_assoc]
    simp only [ih]

/-- Every request counts, and every grant is a new address. -/
theorem Allocator.serve_count {A : Allocator} {n : ℕ} {x y : ℕ × Finset Addr}
    (h : A.serve n x = some y) : y.1 = x.1 + n ∧ y.2.card = x.2.card + n := by
  induction n generalizing x with
  | zero =>
    obtain rfl := Option.some.inj h
    exact ⟨rfl, rfl⟩
  | succ n ih =>
    rw [serve, Option.bind_eq_some_iff] at h
    obtain ⟨a, ha, h⟩ := h
    obtain ⟨htick, hcard⟩ := ih h
    rw [Finset.card_insert_of_notMem (A.fresh ha)] at hcard
    constructor <;> omega

/-- A supply that denies one request. -/
def Supply.denying (B : Supply) (i : ℕ) : Allocator where
  zalloc n s := if n = i then none else B.zalloc n s
  fresh := by
    intro n s a h
    split at h
    · cases h
    · exact B.fresh h
  size_t := B.size_t

namespace Mem

variable {ν : Type} {m m' : Mem ν} {A : Allocator} {p : Ptr} {f : ν → ν} {a : Addr} {v : ν}

/-- What the answers of an allocator depend on. -/
def asked (m : Mem ν) : ℕ × Finset Addr := (m.tick, m.objs.keys)

/-- The next `n` requests are granted. -/
def Grants (A : Allocator) (n : ℕ) (m : Mem ν) : Prop := (A.serve n m.asked).isSome = true

instance (A : Allocator) (n : ℕ) (m : Mem ν) : Decidable (m.Grants A n) :=
  inferInstanceAs (Decidable (_ = _))

theorem asked_set_of_mem (h : a ∈ m) : (m.set a v).asked = m.asked := by
  have hk : (m.set a v).objs.keys = m.objs.keys := Finset.val_inj.1 (allocated_set_of_mem h)
  rw [asked, hk]
  rfl

theorem asked_modify (h : m.modify p f = .ok m') : m'.asked = m.asked := by
  obtain ⟨w, -, h⟩ := bind_eq_ok.1 h
  unfold store at h
  split at h
  · cases h
  · split at h
    · next hmem =>
      obtain rfl := Except.ok.inj h
      exact asked_set_of_mem hmem
    · cases h

/-- A request that is granted. -/
theorem serve_of_some (h : m.zalloc A v = (some a, m')) (n : ℕ) :
    A.serve (n + 1) m.asked = A.serve n m'.asked := by
  unfold zalloc at h
  cases hA : A.zalloc m.tick m.objs.keys with
  | none =>
    rw [hA] at h
    cases h
  | some b =>
    rw [hA] at h
    obtain ⟨-, rfl⟩ := Prod.mk.inj h
    have hkeys : (m.set b v).objs.keys = insert b m.objs.keys := by
      ext c
      rw [Finmap.mem_keys, Finset.mem_insert, Finmap.mem_keys]
      exact mem_set
    rw [Allocator.serve, asked, hA, Option.bind_some, asked, ← hkeys]

/-- A request that is denied. -/
theorem serve_of_none (h : m.zalloc A v = (none, m')) (n : ℕ) :
    A.serve (n + 1) m.asked = none ∧ m' = { m with tick := m.tick + 1 } := by
  unfold zalloc at h
  cases hA : A.zalloc m.tick m.objs.keys with
  | none =>
    rw [hA] at h
    rw [Allocator.serve, asked, hA]
    exact ⟨rfl, (Prod.mk.inj h).2.symm⟩
  | some b =>
    rw [hA] at h
    cases h

/-- One request. -/
theorem grants_one : m.Grants A 1 ↔ ∃ a m', m.zalloc A v = (some a, m') := by
  unfold Grants
  cases hz : m.zalloc A v with
  | mk c m₁ =>
    cases c with
    | none => simp [(serve_of_none hz 0).1]
    | some a =>
      rw [serve_of_some hz 0]
      simp [Allocator.serve]

theorem lookup_of_load (h : m.load (some a) = .ok v) : m.lookup a = some v := by
  unfold load at h
  cases hl : m.lookup a with
  | none => simp [hl] at h
  | some w => simpa [hl] using h

end Mem

/-! ## Runs -/

section Runs

variable {ν β : Type}

/-- The run `x` makes `n` requests: it ends with `y` if all of them are granted, and
dereferences NULL if one is denied. -/
def Serves (A : Allocator) (n : ℕ) (m m' : Mem ν) (x : Except Fault β) (y : β) : Prop :=
  (A.serve n m.asked = some m'.asked ∧ x = .ok y) ∨
    (A.serve n m.asked = none ∧ x = .error .nullDeref)

/-- A loop that ends at NULL, or has dereferenced it. -/
def EndsNull (x : Except Fault (Ptr × β)) : Prop := x = .error .nullDeref ∨ ∃ y, x = .ok (none, y)

variable {A : Allocator} {n : ℕ} {m m' : Mem ν} {x : Except Fault β} {y : β}

theorem Serves.grants_iff (h : Serves A n m m' x y) : m.Grants A n ↔ x = .ok y := by
  rcases h with ⟨hs, rfl⟩ | ⟨hs, rfl⟩
  · simp [Mem.Grants, hs]
  · simp [Mem.Grants, hs]

theorem Serves.of_not (h : Serves A n m m' x y) (hn : ¬ m.Grants A n) : x = .error .nullDeref := by
  rcases h with ⟨hs, -⟩ | ⟨-, hx⟩
  · exact absurd (by rw [Mem.Grants, hs]; rfl) hn
  · exact hx

/-- One run after another. -/
theorem Serves.bind {γ : Type} {k : ℕ} {m'' : Mem ν} {g : β → Except Fault γ} {w : γ}
    (h : Serves A n m m' x y) (hg : Serves A k m' m'' (g y) w) :
    Serves A (n + k) m m'' (x >>= g) w := by
  unfold Serves
  rw [A.serve_add]
  rcases h with ⟨hs, rfl⟩ | ⟨hs, rfl⟩
  · rw [hs]
    exact hg
  · rw [hs]
    exact Or.inr ⟨rfl, rfl⟩

/-- What a run ends with is what all requests granted come to. -/
theorem Serves.eq_of_ok {w : β} (h : Serves A n m m' x y) (hx : x = .ok w) : w = y := by
  rcases h with ⟨-, hy⟩ | ⟨-, hnull⟩
  · exact Except.ok.inj (hx.symm.trans hy)
  · rw [hx] at hnull
    cases hnull

/-- What follows without a request is served with it. -/
theorem Serves.map {γ : Type} (h : Serves A n m m' x y) (g : β → γ) :
    Serves A n m m' (x >>= fun y => pure (g y)) (g y) :=
  h.bind (k := 0) (Or.inl ⟨rfl, rfl⟩)

/-- A loop that counts one more node ends at NULL where it did. -/
theorem EndsNull.succ {x : Except Fault (Ptr × ℕ × Mem ν)} (h : EndsNull x) :
    EndsNull (x >>= fun y => pure (y.1, y.2.1 + 1, y.2.2)) := by
  rcases h with rfl | ⟨y, rfl⟩
  · exact Or.inl rfl
  · exact Or.inr ⟨_, rfl⟩

/-- What is written through NULL. -/
theorem EndsNull.modify {g : ν → ν} {x : Except Fault (Ptr × ℕ × Mem ν)}
    (h : EndsNull x) : (x >>= fun y => y.2.2.modify y.1 g >>= fun m => pure (y.1, y.2.1, m)) =
      .error .nullDeref := by
  rcases h with rfl | ⟨y, rfl⟩
  · rfl
  · rfl

end Runs

namespace PtrTrie

variable {α : Type} {A : Allocator} {z : α} {f : α → α} {m m' : Mem (Cell α)} {p : List Bool}
variable {a : Addr} {last : Ptr} {k : ℕ}

theorem extend_null (A : Allocator) (z : α) (p : List Bool) (m : Mem (Cell α)) :
    EndsNull (extend A z p none m) := by
  cases p with
  | nil => exact Or.inr ⟨(0, m), rfl⟩
  | cons b p => exact Or.inl rfl

section Served

variable {B : Supply} (hle : A.Le B.toAllocator)

include hle

/-- **A descent asks for the nodes it creates**, and no further than it gets them. -/
theorem extend_serve (h : extend B.toAllocator z p (some a) m = .ok (last, k, m')) :
    (A.serve k m.asked = some m'.asked ∧ extend A z p (some a) m = .ok (last, k, m')) ∨
      (A.serve k m.asked = none ∧ EndsNull (extend A z p (some a) m)) := by
  induction p generalizing m a k with
  | nil =>
    obtain ⟨rfl, heq⟩ := Prod.mk.inj (Except.ok.inj h)
    obtain ⟨rfl, rfl⟩ := Prod.mk.inj heq
    exact Or.inl ⟨rfl, rfl⟩
  | cons b p ih =>
    rw [extend] at h ⊢
    obtain ⟨n, hn, h⟩ := bind_eq_ok.1 h
    rw [hn, ok_bind]
    cases hc : n.child b with
    | some c =>
      simp only [hc] at h ⊢
      exact ih h
    | none =>
      simp only [hc] at h ⊢
      obtain ⟨m₂, hmod, h⟩ := bind_eq_ok.1 h
      obtain ⟨⟨l, k', m₃⟩, hrec, h⟩ := bind_eq_ok.1 h
      obtain ⟨rfl, heq⟩ := Prod.mk.inj (Except.ok.inj h)
      obtain ⟨rfl, rfl⟩ := Prod.mk.inj heq
      rcases Mem.zalloc_cases A m (Cell.zero z) with ⟨c, m₁, halloc, -⟩ | halloc
      · rw [Mem.zalloc_of_le hle halloc] at hmod hrec
        simp only [halloc, hmod, ok_bind]
        rw [Mem.serve_of_some halloc, ← Mem.asked_modify hmod]
        rcases ih hrec with ⟨hs, hrun⟩ | ⟨hs, hnull⟩
        · exact Or.inl ⟨hs, by rw [hrun]; rfl⟩
        · exact Or.inr ⟨hs, hnull.succ⟩
      · -- NULL is hung below the node, and the descent goes on from there
        refine Or.inr ⟨(Mem.serve_of_none halloc k').1, ?_⟩
        have hl : ({ m with tick := m.tick + 1 } : Mem (Cell α)).lookup a = some n :=
          Mem.lookup_of_load hn
        simp only [halloc, Mem.modify_of_lookup hl, ok_bind]
        exact (extend_null A z p _).succ

/-- **An insertion asks for the nodes it creates.** -/
theorem put_serve (h : put B.toAllocator z f p (some a) m = .ok (last, k, m')) :
    Serves A k m m' (put A z f p (some a) m) (last, k, m') := by
  obtain ⟨⟨l, k', m₁⟩, hext, h⟩ := bind_eq_ok.1 h
  obtain ⟨m₂, hmod, h⟩ := bind_eq_ok.1 h
  obtain ⟨rfl, heq⟩ := Prod.mk.inj (Except.ok.inj h)
  obtain ⟨rfl, rfl⟩ := Prod.mk.inj heq
  rw [Serves, Mem.asked_modify hmod]
  rcases extend_serve hle hext with ⟨hs, hrun⟩ | ⟨hs, hnull⟩
  · refine Or.inl ⟨hs, ?_⟩
    simp only [put, hrun, ok_bind, hmod, pure_eq_ok]
  · exact Or.inr ⟨hs, hnull.modify⟩

end Served

/-- A release asks for nothing. -/
theorem freeTree_tick {depth : ℕ} {r : Ptr} (h : freeTree depth r m = .ok m') :
    m'.tick = m.tick := by
  induction depth generalizing r m m' with
  | zero =>
    cases r with
    | none =>
      obtain rfl := Except.ok.inj h
      rfl
    | some a => cases h
  | succ depth ih =>
    cases r with
    | none =>
      obtain rfl := Except.ok.inj h
      rfl
    | some a =>
      rw [freeTree] at h
      obtain ⟨n, -, h⟩ := bind_eq_ok.1 h
      obtain ⟨m₁, hfst, h⟩ := bind_eq_ok.1 h
      obtain ⟨n', -, h⟩ := bind_eq_ok.1 h
      obtain ⟨m₂, hsnd, h⟩ := bind_eq_ok.1 h
      unfold Mem.free at h
      split at h
      · obtain rfl := Except.ok.inj h
        exact (ih hsnd).trans (ih hfst)
      · cases h

/-- A run from a supply is served. -/
theorem put_supply {B : Supply} (h : put B.toAllocator z f p (some a) m = .ok (last, k, m')) :
    B.serve k m.asked = some m'.asked := by
  rcases put_serve (Allocator.Le.refl _) h with ⟨hs, -⟩ | ⟨-, he⟩
  · exact hs
  · rw [h] at he
    cases he

/-- **A run of insertions asks for as many nodes as it adds.** -/
theorem putAll_serve {B : Supply} (hle : A.Le B.toAllocator) {xs : List (List Bool × (α → α))}
    (h : putAll B.toAllocator z (some a) xs m = .ok m') :
    ∃ n, B.serve n m.asked = some m'.asked ∧ Serves A n m m' (putAll A z (some a) xs m) m' := by
  induction xs generalizing m with
  | nil =>
    obtain rfl := Except.ok.inj h
    exact ⟨0, rfl, Or.inl ⟨rfl, rfl⟩⟩
  | cons x xs ih =>
    rw [putAll] at h
    obtain ⟨⟨l, k, m₁⟩, hput, h⟩ := bind_eq_ok.1 h
    obtain ⟨n, hn, hrest⟩ := ih h
    refine ⟨k + n, ?_, (put_serve hle hput).bind hrest⟩
    rw [Allocator.serve_add, put_supply hput]
    exact hn

/-- **The requests of a build**, with the root's: a node for each initial segment of a
key. -/
theorem putAll_count {B : Supply} {xs : List (List Bool × (α → α))} {v : α}
    (hs : Stored m (.node (a, v) fun _ => .nil))
    (hrun : putAll B.toAllocator z (some a) xs m = .ok m') {n : ℕ}
    (hn : B.serve n m.asked = some m'.asked) :
    (insert [] (xs.flatMap fun x => x.1.inits).toFinset).card = n + 1 := by
  have hone : (addrs (.node (a, v) fun _ => .nil : PtrTrie α)) = {a} := rfl
  obtain ⟨m₁, t', hput, hg, hvals⟩ := putAll_spec B z xs hs (by simp) (by simp [hone])
  obtain rfl := Except.ok.inj (hrun.symm.trans hput)
  -- what was allocated is what the trie has grown by
  have hcard := congrArg Multiset.card hg.account
  have hgrown : m'.allocated.card = m.allocated.card + n := (Allocator.serve_count hn).2
  have hpaths : (vals t').paths = insert [] (xs.flatMap fun x => x.1.inits).toFinset := by
    rw [hvals, paths_putVals]
    rfl
  rw [Multiset.card_add, Multiset.card_add, card_addrs, hpaths, hgrown, hone,
    Multiset.card_singleton] at hcard
  omega

/-! ## Path copying -/

section PathCopy

open BitTrie

variable {t : PtrTrie α} {kids : Bool → PtrTrie α} {v : α} {c : Addr} {new : Ptr}
variable {olds : List Addr} {B : Supply}

theorem growPath_created {r : Ptr} (h : growPath A z p r m = .ok (last, k, m')) : k = p.length := by
  induction p generalizing r m k last m' with
  | nil =>
    obtain ⟨-, heq⟩ := Prod.mk.inj (Except.ok.inj h)
    exact (Prod.mk.inj heq).1.symm
  | cons b p ih =>
    obtain ⟨m₁, -, h⟩ := bind_eq_ok.1 h
    obtain ⟨⟨l, k', m₂⟩, hrec, h⟩ := bind_eq_ok.1 h
    simp only [pure_eq_ok, Except.ok.injEq, Prod.mk.injEq] at h
    rw [← h.2.1, ih hrec, List.length_cons]

/-- Below a clone that is NULL the update gets nowhere. -/
theorem cowBelow_null (A : Allocator) (hs : Stored m t) (hr : root t = some a) :
    cowBelow A z f p a none m = .error .nullDeref := by
  obtain ⟨w, kids, rfl⟩ := root_eq_some.1 hr
  cases p with
  | nil => rfl
  | cons b p =>
    cases hk : kids b with
    | nil =>
      have hclone : clonePath A z (b :: p) a none m = .ok (b :: p, none, [], m) :=
        clonePath_cons_of_missing hs.1 (by simp [hk])
      rw [cowBelow, hclone]
      rfl
    | node x kids' =>
      have hsk : Stored m (node x kids') := hk ▸ hs.2 b
      have hx : m.lookup x.1 = some ⟨fun d => root (kids' d), x.2⟩ := hsk.1
      have hchild : (fun d => root (kids d)) b = some x.1 := by simp [hk]
      rw [cowBelow, clonePath, Mem.load_of_lookup hs.1]
      simp only [ok_bind, hchild]
      rcases Mem.zalloc_cases A m (Cell.zero z) with ⟨c, m₁, halloc, hext⟩ | halloc
      · have hx₁ := (hext.lookup_of_mem (Mem.mem_of_lookup hx)).trans hx
        simp only [clone, halloc, Mem.load_of_lookup hx₁, Mem.store_of_mem hext.mem_self, ok_bind,
          pure_eq_ok]
        rfl
      · simp only [clone, halloc]
        rfl

/-- A clone is one request. -/
theorem clone_serve (hle : A.Le B.toAllocator) {n : Cell α} (hn : m.lookup a = some n) :
    (∃ c m', clone A z a m = .ok (some c, m') ∧ clone B.toAllocator z a m = .ok (some c, m') ∧
        m.Extends c n m' ∧ ∀ j, A.serve (j + 1) m.asked = A.serve j m'.asked) ∨
      clone A z a m = .ok (none, { m with tick := m.tick + 1 }) ∧
        ∀ j, A.serve (j + 1) m.asked = none := by
  rcases Mem.zalloc_cases A m (Cell.zero z) with ⟨c, m₁, halloc, hext⟩ | halloc
  · obtain ⟨hA, hfresh⟩ := clone_of_zalloc halloc hext hn
    have hB := (clone_of_zalloc (Mem.zalloc_of_le hle halloc) hext hn).1
    refine Or.inl ⟨c, m₁.set c n, hA, hB, hfresh, fun j => ?_⟩
    rw [Mem.serve_of_some halloc, Mem.asked_set_of_mem hext.mem_self]
  · exact Or.inr ⟨by simp [clone, halloc], fun j => (Mem.serve_of_none halloc j).1⟩

/-- The update where the path leaves the trie at its root asks for the nodes of the path. -/
theorem cowBelow_serve_of_missing (hle : A.Le B.toAllocator) (hs : Stored m (node (a, v) kids))
    (hc : m.lookup c = some ⟨fun b => root (kids b), v⟩)
    (hmiss : ∀ b q, p = b :: q → kids b = nil)
    (h : cowBelow B.toAllocator z f p a (some c) m = .ok (last, k, olds, m')) :
    Serves A p.length m m' (cowBelow A z f p a (some c) m) (last, k, olds, m') := by
  rw [cowBelow_eq_put _ hs hc hmiss] at h ⊢
  obtain ⟨⟨l, k', m₁⟩, hput, h⟩ := bind_eq_ok.1 h
  simp only [pure_eq_ok, Except.ok.injEq, Prod.mk.injEq] at h
  obtain ⟨rfl, rfl, rfl, rfl⟩ := h
  have hcreated : k' = p.length := by
    obtain ⟨⟨l', k₁, m₂⟩, hext, hrest⟩ := bind_eq_ok.1 hput
    obtain ⟨m₃, -, hrest⟩ := bind_eq_ok.1 hrest
    rw [← growPath_eq_extend B.toAllocator z p hc fun b q hp => by simp [hmiss b q hp]] at hext
    rw [← growPath_created hext]
    exact (Prod.mk.inj (Prod.mk.inj (Except.ok.inj hrest)).2).1.symm
  rw [← hcreated]
  exact (put_serve hle hput).bind (k := 0) (Or.inl ⟨rfl, rfl⟩)

/-- **Below a cloned root the update asks for a node a step**, whether it clones or
creates. -/
theorem cowBelow_serve (hle : A.Le B.toAllocator) (hs : Stored m (node (a, v) kids))
    (hc : m.lookup c = some ⟨fun b => root (kids b), v⟩) (hcnot : c ∉ addrs (node (a, v) kids))
    (h : cowBelow B.toAllocator z f p a (some c) m = .ok (last, k, olds, m')) :
    Serves A p.length m m' (cowBelow A z f p a (some c) m) (last, k, olds, m') := by
  induction p generalizing m a v kids c k olds with
  | nil => exact cowBelow_serve_of_missing hle hs hc (fun _ _ h => nomatch h) h
  | cons b p ih =>
    cases hk : kids b with
    | nil =>
      refine cowBelow_serve_of_missing hle hs hc (fun d q hp => ?_) h
      obtain ⟨rfl, -⟩ := List.cons.inj hp
      exact hk
    | node x kids' =>
      obtain ⟨a', w⟩ := x
      have hcm : c ∈ m := Mem.mem_of_lookup hc
      have hsub : addrs (node (a', w) kids') ≤ addrs (node (a, v) kids) := hk ▸ addrs_kid_le _ kids b
      have hsk : Stored m (node (a', w) kids') := hk ▸ hs.2 b
      have hchild : (fun d => root (kids d)) b = some a' := by simp [hk]
      -- nothing of the old child is written where the clone's cell is
      have hkeep : ∀ {m₁ : Mem (Cell α)} {n : Cell α},
          (∀ d ∈ m, m₁.lookup d = m.lookup d) → Stored (m₁.set c n) (node (a', w) kids') := by
        intro m₁ n hm₁
        refine hsk.congr fun d hd => ?_
        have hdc : d ≠ c := fun heq => hcnot (heq ▸ Multiset.mem_of_le hsub hd)
        rw [Mem.lookup_set_ne hdc, hm₁ d (hsk.mem_of_addrs hd)]
      rcases clone_serve hle hsk.1 with ⟨c', m₁, hA, hB, hext, hserve⟩ | ⟨hA, hserve⟩
      · have hc₁ := (hext.lookup_of_mem hcm).trans hc
        have hmod := Mem.modify_of_lookup (f := Cell.setChild b (some c')) hc₁
        rw [cowBelow_cons_of_child hs.1 hchild hB hmod] at h
        rw [cowBelow_cons_of_child hs.1 hchild hA hmod]
        obtain ⟨⟨l, k', os, m₂⟩, hrec, h⟩ := bind_eq_ok.1 h
        simp only [pure_eq_ok, Except.ok.injEq, Prod.mk.injEq] at h
        obtain ⟨rfl, rfl, rfl, rfl⟩ := h
        have hc' : c' ∉ addrs (node (a', w) kids') := fun hin =>
          hext.fresh (hsk.mem_of_addrs hin)
        have hcell := (Mem.lookup_set_ne (m := m₁) (v := Cell.setChild b (some c')
          ⟨fun d => root (kids d), v⟩) (hext.ne_of_mem hcm).symm).trans hext.lookup_self
        have hrest := ih (hkeep fun d hd => hext.lookup_of_mem hd) hcell hc' hrec
        have hall := hrest.map fun y => (y.1, y.2.1, a' :: y.2.2.1, y.2.2.2)
        rw [Serves, List.length_cons, hserve, ← Mem.asked_set_of_mem (Mem.mem_of_lookup hc₁)]
        exact hall
      · have hc₁ : ({ m with tick := m.tick + 1 } : Mem (Cell α)).lookup c =
            some ⟨fun b => root (kids b), v⟩ := hc
        have hmod := Mem.modify_of_lookup (f := Cell.setChild b none) hc₁
        have hs₁ : Stored (({ m with tick := m.tick + 1 } : Mem (Cell α)).set c
            (Cell.setChild b none ⟨fun d => root (kids d), v⟩)) (node (a', w) kids') :=
          hkeep fun _ _ => rfl
        rw [cowBelow_cons_of_child hs.1 hchild hA hmod, cowBelow_null A hs₁ rfl]
        exact Or.inr ⟨hserve _, rfl⟩

/-- **Path copying asks for the root and a node a step.** -/
theorem cowPut_serve (hle : A.Le B.toAllocator) (hs : Stored m (node (a, v) kids))
    (h : cowPut B.toAllocator z f p a m = .ok (new, last, k, olds, m')) :
    Serves A (p.length + 1) m m' (cowPut A z f p a m) (new, last, k, olds, m') := by
  rcases clone_serve hle hs.1 with ⟨c, m₁, hA, hB, hext, hserve⟩ | ⟨hA, hserve⟩
  · have hs₁ : Stored m₁ (node (a, v) kids) := hs.congr fun d hd =>
      hext.lookup_of_mem (hs.mem_of_addrs hd)
    have hc : c ∉ addrs (node (a, v) kids) := fun hin => hext.fresh (hs.mem_of_addrs hin)
    rw [cowPut, hB, ok_bind] at h
    rw [cowPut, hA, ok_bind]
    obtain ⟨⟨l, k', os, m₂⟩, hrec, h⟩ := bind_eq_ok.1 h
    simp only [pure_eq_ok, Except.ok.injEq, Prod.mk.injEq] at h
    obtain ⟨rfl, rfl, rfl, rfl, rfl⟩ := h
    have hrest := cowBelow_serve hle hs₁ hext.lookup_self hc hrec
    have hall := hrest.map fun y => (some c, y.1, y.2.1, a :: y.2.2.1, y.2.2.2)
    rw [Serves, hserve]
    exact hall
  · have hs₁ : Stored { m with tick := m.tick + 1 } (node (a, v) kids) := hs.congr fun _ _ => rfl
    refine Or.inr ⟨hserve _, ?_⟩
    simp only [cowPut, hA, ok_bind, cowBelow_null A hs₁ rfl, error_bind]

end PathCopy

end PtrTrie

end Librefw
