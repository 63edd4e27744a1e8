import Librefw.Bogon.Set

/-!
# The ledger of the bogon list

Whatever allocations fail, the nodes of the published tree and of those
that wait for their callback are all that is allocated in the cache
(`LfwBgLive`): a load that fails half way faults, and one that gives up
has allocated no node. Once the published tree is itself handed to
`call_rcu`, only what waits is left (`LfwBgQueued`), and with nothing
waiting the cache is empty.
-/

namespace Librefw

open PtrTrie

variable {s s' : LfwBgState} {A : Allocator} {e : Endian} {info : GenlInfo}

/-- The nodes of the trees of a list. -/
def lfwHeld (xs : List (Addr × PtrTrie Bool)) : Multiset Addr := held (fun x => addrs x.2) xs

/-- The list in use: its tree and the replaced ones are what is allocated. -/
def LfwBgLive (s : LfwBgState) : Prop :=
  ∃ a t olds, LfwBgInv s a t olds ∧ addrs t + lfwHeld olds = s.nodes.allocated

/-- The list given up: every tree waits for its callback. -/
def LfwBgQueued (s : LfwBgState) : Prop :=
  ∃ olds, s.rcu = olds.map (fun x => some x.1) ∧ LfwBgForest s olds ∧
    lfwHeld olds = s.nodes.allocated

theorem lfwInitBgState_allocated (hinit : lfwInitBgState A = .ok s) : s.nodes.allocated = 0 := by
  unfold lfwInitBgState at hinit
  split at hinit
  · cases hinit
  · obtain rfl := Except.ok.inj hinit
    exact Mem.allocated_empty

theorem lfwInitBgState_live (hinit : lfwInitBgState A = .ok s) : LfwBgLive s := by
  obtain ⟨a, t, olds, hinv⟩ := lfwInitBgState_inv hinit
  have hnone := lfwInitBgState_allocated hinit
  refine ⟨a, t, olds, hinv, ?_⟩
  have hle := hinv.nodes_le
  rw [hnone] at hle ⊢
  exact Multiset.le_zero.1 hle

/-- **A request that returns keeps the ledger**, and takes back no callback. -/
theorem LfwBgLive.set {ret : ℤ} (h : LfwBgLive s)
    (hrun : lfwBogonSet e A info s = .ok (ret, s')) : LfwBgLive s' := by
  obtain ⟨a, t, olds, hinv, hacc⟩ := h
  rcases lfwBogonSet_ok hrun with ⟨-, bufs, rfl⟩ |
    ⟨-, -, buf, bufs, bufs', s₁, -, hsize, hload, rfl⟩
  · exact ⟨a, t, olds, hinv.bufs bufs, hacc⟩
  · rcases lfwLoadBgTree_cases (hsize ▸ lfwBufEntries_le A _) hload with
      ⟨-, hgave⟩ | ⟨-, -, -, -, a', t', hl⟩
    · refine ⟨a, t, olds, (hgave.inv (hinv.bufs bufs)).bufs bufs', hacc.trans ?_⟩
      show s.nodes.allocated = s₁.nodes.allocated
      rw [Mem.allocated, Mem.allocated, hgave.nodes_eq]
    · refine ⟨a', t', _, (hl.inv (hinv.bufs bufs)).bufs bufs', ?_⟩
      have hnodes : s₁.nodes.allocated = addrs t' + s.nodes.allocated := hl.nodes_eq
      show addrs t' + lfwHeld (olds ++ [(a, t)]) = s₁.nodes.allocated
      rw [hnodes, ← hacc, lfwHeld, held_append, held_cons, held_nil, add_zero,
        add_comm (addrs t)]
      rfl

theorem LfwBgLive.callback (h : LfwBgLive s) (i : ℕ) :
    ∃ s', lfwFreeBgTree i s = .ok s' ∧ LfwBgLive s' := by
  obtain ⟨a, t, olds, hinv, hacc⟩ := h
  obtain ⟨s', hrun, hinv', hfreed⟩ := lfwFreeBgTree_spec i hinv
  refine ⟨s', hrun, a, t, _, hinv', ?_⟩
  have hsum : lfwHeld olds + s'.nodes.allocated = lfwHeld olds +
      (addrs t + lfwHeld (olds.eraseIdx i)) := by
    rw [lfwHeld, hfreed, ← hacc, add_comm, add_assoc, add_left_comm]
    rfl
  exact (add_left_cancel hsum).symm

/-- **The published tree is queued.** -/
theorem LfwBgLive.queue (h : LfwBgLive s) : LfwBgQueued { s with rcu := s.rcu ++ [s.tree] } := by
  obtain ⟨a, t, olds, hinv, hacc⟩ := h
  have hperm : ((a, t) :: olds).Perm (olds ++ [(a, t)]) := (List.perm_append_singleton _ _).symm
  have hforest := hinv.forest
  refine ⟨olds ++ [(a, t)], ?_, ⟨fun x hx => hforest.stored x (hperm.mem_iff.2 hx), ?_, ?_⟩, ?_⟩
  · rw [hinv.rcu_eq, hinv.tree_eq, List.map_append]
    rfl
  · rw [← held_perm hperm]
    exact hforest.nodes_le
  · rw [← held_perm hperm]
    exact hforest.trees_le
  · rw [lfwHeld, ← held_perm hperm, held_cons]
    exact hacc

theorem LfwBgQueued.callback (h : LfwBgQueued s) (i : ℕ) :
    ∃ s', lfwFreeBgTree i s = .ok s' ∧ LfwBgQueued s' := by
  obtain ⟨olds, hrcu, hforest, hacc⟩ := h
  cases hi : olds[i]? with
  | none =>
    have hnone : s.rcu[i]? = none := by rw [hrcu, List.getElem?_map, hi, Option.map_none]
    exact ⟨s, by rw [lfwFreeBgTree, hnone]; rfl, olds, hrcu, hforest, hacc⟩
  | some x =>
    have hsome : s.rcu[i]? = some (some x.1) := by
      rw [hrcu, List.getElem?_map, hi, Option.map_some]
    obtain ⟨s', hrun, -, hrcu', hforest', hfreed⟩ := hforest.free hi hsome
    refine ⟨s', hrun, olds.eraseIdx i, ?_, hforest', ?_⟩
    · rw [hrcu', hrcu, List.eraseIdx_map]
    · rw [← hacc, lfwHeld, held_eraseIdx hi] at hfreed
      exact (add_left_cancel hfreed).symm

/-- With nothing allocated no tree that waits has a root. -/
theorem LfwBgQueued.load (h : LfwBgQueued s) (hnone : s.nodes.allocated = 0) {tree : Ptr}
    (htree : tree ∈ s.rcu) : s.trees.load tree = .ok ⟨none⟩ := by
  obtain ⟨olds, hmap, hforest, hacc⟩ := h
  rw [hmap] at htree
  obtain ⟨x, hx, rfl⟩ := List.mem_map.1 htree
  have hle : addrs x.2 ≤ lfwHeld olds := le_held hx
  rw [hacc, hnone, Multiset.le_zero] at hle
  rw [Mem.load_of_lookup (hforest.stored x hx).1, addrs_eq_zero.1 hle]
  rfl

/-! ## What there is to free -/

/-- The request replaces the list: it announces a prefix, and there is memory for the buffer,
the header and the root. -/
def LfwLoads (e : Endian) (A : Allocator) (info : GenlInfo) (s : LfwBgState) : Prop :=
  lfwNumPrefix e info ≠ 0 ∧
    (lfwVzalloc A s.bufs (lfwBufEntries A (lfwNumPrefix e info))).1 ≠ none ∧ ¬ lfwLoadAborts A s

/-- A request without its buffer is refused. -/
theorem lfwVzalloc_ne_none (hrun : lfwBogonSet e A info s = .ok (0, s')) :
    (lfwVzalloc A s.bufs (lfwBufEntries A (lfwNumPrefix e info))).1 ≠ none := by
  intro hnone
  unfold lfwBogonSet at hrun
  cases hbuf : lfwVzalloc A s.bufs (lfwBufEntries A (lfwNumPrefix e info)) with
  | mk buf bufs =>
    rw [hbuf] at hnone
    obtain rfl : buf = none := hnone
    simp only [hbuf] at hrun
    split at hrun
    · exact absurd (Prod.mk.inj (Except.ok.inj hrun)).1 (by decide)
    · exact absurd (Prod.mk.inj (Except.ok.inj hrun)).1 (by decide)

/-- **A list that is loaded has nodes**, and a request that loads none leaves them as they
are. -/
theorem lfwBogonSet_allocated {ret : ℤ} (hrun : lfwBogonSet e A info s = .ok (ret, s')) :
    ((ret ≠ 0 ∨ lfwLoadAborts A s) ∧ s'.nodes.allocated = s.nodes.allocated) ∨
      (LfwLoads e A info s ∧ s'.nodes.allocated ≠ 0) := by
  rcases lfwBogonSet_ok hrun with ⟨hret, bufs, rfl⟩ |
    ⟨rfl, hnum, buf, bufs, bufs', s₁, -, hsize, hload, rfl⟩
  · exact Or.inl ⟨Or.inl hret, rfl⟩
  · rcases lfwLoadBgTree_cases (hsize ▸ lfwBufEntries_le A _) hload with
      ⟨habort, hgave⟩ | ⟨habort, hall, -, -, a, t, hl⟩
    · refine Or.inl ⟨Or.inr habort, ?_⟩
      show s₁.nodes.allocated = s.nodes.allocated
      rw [Mem.allocated, Mem.allocated, hgave.nodes_eq]
    · refine Or.inr ⟨⟨by omega, lfwVzalloc_ne_none hrun, habort⟩, fun hnone => ?_⟩
      have hnodes : s₁.nodes.allocated = addrs t + s.nodes.allocated := hl.nodes_eq
      have hzero : addrs t ≤ 0 := (Multiset.le_add_right _ _).trans (hnodes.symm.trans hnone).le
      rw [Multiset.le_zero] at hzero
      -- the first prefix is marked in the tree
      obtain ⟨c, hvals⟩ := hl.vals_eq
      obtain ⟨x, hx⟩ := List.exists_mem_of_length_pos (l := buf) (by omega)
      have hfind : (lfwMarked e c buf).find (x.key e) = some true :=
        find_lfwMarked.2 ⟨x, hx, rfl⟩
      rw [← hvals, addrs_eq_zero.1 hzero, vals_nil, BitTrie.find_nil] at hfind
      cases hfind

theorem lfwFreeBgTree_allocated {i : ℕ} (hrun : lfwFreeBgTree i s = .ok s')
    (hnone : s.nodes.allocated = 0) : s'.nodes.allocated = 0 := by
  unfold lfwFreeBgTree at hrun
  cases hi : s.rcu[i]? with
  | none =>
    rw [hi] at hrun
    obtain rfl := Except.ok.inj hrun
    exact hnone
  | some tree =>
    rw [hi] at hrun
    obtain ⟨t, -, hrun⟩ := bind_eq_ok.1 hrun
    obtain ⟨nodes, hfree, hrun⟩ := bind_eq_ok.1 hrun
    have hle : nodes.allocated ≤ s.nodes.allocated := freeTree_le hfree
    rw [hnone, Multiset.le_zero] at hle
    cases tree with
    | none => cases hrun
    | some a =>
      obtain ⟨trees, -, hrun⟩ := bind_eq_ok.1 hrun
      obtain rfl := Except.ok.inj hrun
      exact hle

end Librefw
