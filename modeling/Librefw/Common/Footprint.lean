import Librefw.Common.TrieWalk
import Mathlib.Algebra.BigOperators.Group.Multiset.Defs
import Mathlib.Data.List.Perm.Basic

/-!
# Who holds what

The nodes a pointer leads to, as a function of the store: where the store
holds a trie at the pointer (`IsTrie`), `footprint m p` is the multiset of
its nodes, one occurrence for every path that leads to a node. Without
sharing it has no duplicates, and its elements are what is reached
(`IsTrie.mem_footprint`). A change outside the footprint leaves it alone
(`IsTrie.frame`).

`held f l` adds up what the entries of a list hold, so that a ledger of
who holds which address is an equation between multisets, and an update
of one entry moves it by the difference.
-/

namespace Librefw

namespace PtrTrie

variable {α : Type} {m m' : Mem (Cell α)} {t : PtrTrie α} {p : Ptr} {a : Addr}

/-- The store holds a trie at the pointer. -/
def IsTrie (m : Mem (Cell α)) (p : Ptr) : Prop := ∃ t, root t = p ∧ Stored m t

open Classical in
/-- The nodes of the trie at a pointer. -/
noncomputable def footprint (m : Mem (Cell α)) (p : Ptr) : Multiset Addr :=
  if h : IsTrie m p then addrs h.choose else 0

theorem Stored.isTrie (h : Stored m t) : IsTrie m (root t) := ⟨t, rfl, h⟩

theorem Stored.footprint_root (h : Stored m t) : footprint m (root t) = addrs t := by
  have hex : IsTrie m (root t) := h.isTrie
  obtain ⟨hroot, hs⟩ := hex.choose_spec
  rw [footprint, dif_pos hex, Stored.unique hs h hroot]

/-- A footprint names the nodes of the trie the store holds. -/
theorem Stored.footprint_eq (h : Stored m t) (hp : root t = p) : footprint m p = addrs t :=
  hp ▸ h.footprint_root

theorem isTrie_none (m : Mem (Cell α)) : IsTrie m none := ⟨.nil, rfl, trivial⟩

@[simp] theorem footprint_none (m : Mem (Cell α)) : footprint m none = 0 :=
  Stored.footprint_root (t := .nil) trivial

namespace IsTrie

/-- The footprint is what is reached. -/
theorem mem_footprint (h : IsTrie m p) : a ∈ footprint m p ↔ Reach m p a := by
  obtain ⟨t, rfl, hs⟩ := h
  rw [hs.footprint_root, hs.reach_iff]

/-- **The frame rule**, for a pointer. -/
theorem frame (h : IsTrie m p) (heq : ∀ c ∈ footprint m p, m'.lookup c = m.lookup c) :
    IsTrie m' p ∧ footprint m' p = footprint m p := by
  obtain ⟨t, rfl, hs⟩ := h
  rw [hs.footprint_root] at heq ⊢
  have hs' : Stored m' t := hs.congr heq
  exact ⟨hs'.isTrie, hs'.footprint_root⟩

end IsTrie

end PtrTrie

/-! ## Lists of holders -/

section Held

variable {α : Type} {f g : α → Multiset Addr} {l : List α} {x y : α} {i : ℕ} {a : Addr}

/-- What the entries of a list hold, together. -/
def held (f : α → Multiset Addr) (l : List α) : Multiset Addr := (l.map f).sum

@[simp] theorem held_nil : held f [] = 0 := rfl

@[simp] theorem held_cons : held f (x :: l) = f x + held f l := by simp [held]

@[simp] theorem held_append {l₂ : List α} : held f (l ++ l₂) = held f l + held f l₂ := by
  simp [held]

theorem held_congr (h : ∀ x ∈ l, f x = g x) : held f l = held g l := by
  rw [held, held, List.map_congr_left h]

theorem held_perm {l₂ : List α} (h : l.Perm l₂) : held f l = held f l₂ := (h.map f).sum_eq

theorem mem_held : a ∈ held f l ↔ ∃ x ∈ l, a ∈ f x := by
  induction l with
  | nil => simp
  | cons y l ih => simp [ih]

theorem le_held (h : x ∈ l) : f x ≤ held f l := by
  induction l with
  | nil => cases h
  | cons y l ih =>
    rw [held_cons]
    rcases List.mem_cons.1 h with rfl | h
    · exact Multiset.le_add_right _ _
    · exact (ih h).trans (Multiset.le_add_left _ _)

/-- A list, as one entry and the rest. -/
theorem coe_eraseIdx (h : l[i]? = some x) :
    (l : Multiset α) = x ::ₘ (l.eraseIdx i : Multiset α) := by
  obtain ⟨hlt, rfl⟩ := List.getElem?_eq_some_iff.1 h
  rw [Multiset.cons_coe, Multiset.coe_eq_coe]
  exact (List.getElem_cons_eraseIdx_perm hlt).symm

/-- One entry, and the rest. -/
theorem held_eraseIdx (h : l[i]? = some x) : held f l = f x + held f (l.eraseIdx i) := by
  obtain ⟨hlt, rfl⟩ := List.getElem?_eq_some_iff.1 h
  rw [← held_cons]
  exact (held_perm (List.getElem_cons_eraseIdx_perm hlt)).symm

theorem mem_eraseIdx_of_ne (h : l[i]? = some x) (hy : y ∈ l) (hne : y ≠ x) : y ∈ l.eraseIdx i := by
  obtain ⟨j, hj⟩ := List.mem_iff_getElem?.1 hy
  refine List.mem_eraseIdx_iff_getElem?.2 ⟨j, ?_, hj⟩
  rintro rfl
  exact hne (Option.some.inj (hj.symm.trans h))

theorem mem_set_of_ne {z : α} (h : l[i]? = some x) (hy : y ∈ l) (hne : y ≠ x) : y ∈ l.set i z := by
  obtain ⟨j, hj⟩ := List.mem_iff_getElem?.1 hy
  refine List.mem_iff_getElem?.2 ⟨j, (List.getElem?_set_ne ?_).trans hj⟩
  rintro rfl
  exact hne (Option.some.inj (hj.symm.trans h))

/-- What one entry holds, no other does. -/
theorem disjoint_of_eraseIdx (h : l[i]? = some x) (hnd : (held f l).Nodup)
    (hy : y ∈ l.eraseIdx i) (ha : a ∈ f y) : a ∉ f x := by
  rw [held_eraseIdx h, Multiset.nodup_add] at hnd
  exact fun hx => Multiset.disjoint_left.1 hnd.2.2 hx (mem_held.2 ⟨y, hy, ha⟩)

/-- So an address names the entry that holds it. -/
theorem eq_of_held (hnd : (held f l).Nodup) (hx : x ∈ l) (hy : y ∈ l) (ha : a ∈ f x)
    (hb : a ∈ f y) : y = x := by
  obtain ⟨i, hi⟩ := List.mem_iff_getElem?.1 hx
  by_contra hne
  exact disjoint_of_eraseIdx hi hnd (mem_eraseIdx_of_ne hi hy hne) hb ha

/-- One entry replaced. -/
theorem held_set (h : l[i]? = some x) : held f (l.set i y) = f y + held f (l.eraseIdx i) := by
  obtain ⟨hlt, -⟩ := List.getElem?_eq_some_iff.1 h
  rw [← held_cons]
  exact held_perm (List.set_perm_cons_eraseIdx hlt y)

end Held

end Librefw
