import Librefw.Common.TrieMem

/-!
# Building a trie in place

A trie that only its builder holds grows by one insertion after another.
`Grows` is what an insertion and a run of insertions have in common: the
root stays, the footprint grows by what was allocated, and nothing outside
the footprint is written; it composes (`Grows.trans`), so a run of
insertions has the law of one (`putAll_spec`).
-/

namespace Librefw

namespace PtrTrie

open BitTrie

variable {α : Type} {m m' m'' : Mem (Cell α)} {t t' t'' : PtrTrie α} {a : Addr}

/-- The trie `t` has become `t'`, in place. -/
structure Grows (m : Mem (Cell α)) (t : PtrTrie α) (m' : Mem (Cell α)) (t' : PtrTrie α) :
    Prop where
  root_eq : root t' = root t
  stored : Stored m' t'
  account : addrs t' + m.allocated = addrs t + m'.allocated
  lookup_eq : ∀ c ∈ m, c ∉ addrs t → m'.lookup c = m.lookup c

/-- A part of what is allocated has no address twice. -/
theorem nodup_of_le_allocated {S : Multiset Addr} (h : S ≤ m.allocated) : S.Nodup :=
  Multiset.nodup_of_le h m.nodup_allocated

theorem Stored.addrs_le (hs : Stored m t) (hnd : (addrs t).Nodup) : addrs t ≤ m.allocated :=
  (Multiset.le_iff_subset hnd).2 fun _ hc => Mem.mem_allocated.2 (hs.mem_of_addrs hc)

theorem PutResult.grows {z : α} {f : α → α} {p : List Bool} {last : Ptr} {created : ℕ}
    (h : PutResult z f p m t last created m' t') : Grows m t m' t' where
  root_eq := h.root_eq
  stored := h.stored
  account := h.allocated
  lookup_eq c hc hnot := h.lookup_eq c hc fun hlast => hnot (lastOnPath_mem hlast)

namespace Grows

theorem refl (hs : Stored m t) : Grows m t m t := ⟨rfl, hs, rfl, fun _ _ _ => rfl⟩

theorem ne_nil (h : Grows m t m' t') (hne : t ≠ nil) : t' ≠ nil := fun hnil =>
  hne (root_eq_none.1 (h.root_eq ▸ root_eq_none.2 hnil))

/-- What a trie grows by was allocated, so it is without sharing if it was. -/
theorem nodup (h : Grows m t m' t') (hs : Stored m t) (hnd : (addrs t).Nodup) :
    (addrs t').Nodup := by
  have hsum : addrs t' + addrs t ≤ m'.allocated + addrs t := by
    rw [add_comm m'.allocated, ← h.account]
    exact Multiset.add_le_add_left (hs.addrs_le hnd)
  exact nodup_of_le_allocated (Multiset.le_of_add_le_add_right hsum)

/-- What was allocated outside the footprint is there, and still outside. -/
theorem outside (h : Grows m t m' t') (ha : a ∈ m) (hnot : a ∉ addrs t) :
    a ∈ m' ∧ a ∉ addrs t' := by
  have ha' : a ∈ m' := by
    obtain ⟨n, hn⟩ := Mem.mem_iff_lookup.1 ha
    exact Mem.mem_of_lookup ((h.lookup_eq a ha hnot).trans hn)
  refine ⟨ha', fun hin => ?_⟩
  have h1 := congrArg (Multiset.count a) h.account
  have h2 := Multiset.count_eq_one_of_mem m.nodup_allocated (Mem.mem_allocated.2 ha)
  have h3 := Multiset.count_eq_one_of_mem m'.nodup_allocated (Mem.mem_allocated.2 ha')
  have h4 := Multiset.count_eq_zero_of_notMem hnot
  have h5 := Multiset.count_pos.2 hin
  simp only [Multiset.count_add] at h1
  omega

theorem trans (h₁ : Grows m t m' t') (h₂ : Grows m' t' m'' t'') : Grows m t m'' t'' where
  root_eq := h₂.root_eq.trans h₁.root_eq
  stored := h₂.stored
  account := by
    ext d
    have h1 := congrArg (Multiset.count d) h₁.account
    have h2 := congrArg (Multiset.count d) h₂.account
    simp only [Multiset.count_add] at h1 h2 ⊢
    omega
  lookup_eq c hc hnot := by
    obtain ⟨hc', hnot'⟩ := h₁.outside hc hnot
    rw [h₂.lookup_eq c hc' hnot', h₁.lookup_eq c hc hnot]

end Grows

/-- Insertions one after another, each a path and a change of the payload. -/
def putAll (A : Allocator) (z : α) (runner : Ptr) :
    List (List Bool × (α → α)) → Mem (Cell α) → Except Fault (Mem (Cell α))
  | [], m => pure m
  | x :: xs, m => do
    let (_, _, m) ← put A z x.2 x.1 runner m
    putAll A z runner xs m

/-- What a run of insertions means. -/
def putVals (z : α) (xs : List (List Bool × (α → α))) (u : BitTrie α) : BitTrie α :=
  xs.foldl (fun u x => BitTrie.put z x.2 x.1 u) u

/-- **A run of insertions.** -/
theorem putAll_spec (A : Supply) (z : α) (xs : List (List Bool × (α → α))) (hs : Stored m t)
    (hne : t ≠ nil) (hnd : (addrs t).Nodup) :
    ∃ m' t', putAll A.toAllocator z (root t) xs m = .ok m' ∧ Grows m t m' t' ∧
      vals t' = putVals z xs (vals t) := by
  induction xs generalizing m t with
  | nil => exact ⟨m, t, rfl, .refl hs, rfl⟩
  | cons x xs ih =>
    cases t with
    | nil => exact absurd rfl hne
    | node y kids =>
      obtain ⟨last, created, m₁, t₁, hput, hres⟩ := put_spec A z x.2 x.1 m y.1 y.2 kids hs hnd
      have hg := hres.grows
      obtain ⟨m₂, t₂, hrun, hg₂, hvals⟩ := ih hg.stored (hg.ne_nil hne) (hg.nodup hs hnd)
      refine ⟨m₂, t₂, ?_, hg.trans hg₂, ?_⟩
      · have hroot : root t₁ = some y.1 := hg.root_eq
        rw [hroot] at hrun
        rw [putAll, root_node, hput]
        exact hrun
      · rw [hvals, hres.vals_eq]
        rfl

end PtrTrie

end Librefw
