import Librefw.Common.Budget
import Librefw.Hcf.Refinement
import Librefw.Hcf.Ledger

/-!
# Allocations that fail

A node that could not be allocated is written through in the same
function: by the next turn of its loop, or where the leaf gets its values.
So a function that returns had memory for every node it asked for
(`hcfRegisterIpLocked_serve`), and went as with a supply; only a history
that got no root returns early, with the tree as it was.
-/

namespace Librefw

open PtrTrie

variable {A : Allocator} {m m' : Mem HcfNode} {s s' : HcfState} {t : PtrTrie HcfMeta} {p : Ptr}
variable {x : Addr}

theorem hcfCreateNode_complete (h : hcfCreateNode A m = (some x, m')) :
    hcfCreateNode A.complete.toAllocator m = (some x, m') :=
  Mem.zalloc_complete h

/-- A critical section asks for 25 nodes. -/
theorem hcfRegisterIpLocked_serve (A : Allocator) (task : HcfAddNodeTask) (hs : Stored m t)
    (hne : t ≠ .nil) (hnd : (addrs t).Nodup) :
    ∃ pub m', hcfRegisterIpLocked A.complete.toAllocator task (root t) m = .ok (some pub, m') ∧
      Serves A 25 m m' (hcfRegisterIpLocked A task (root t) m) (some pub, m') := by
  cases t with
  | nil => exact absurd rfl hne
  | node x kids =>
    obtain ⟨a, v⟩ := x
    obtain ⟨new, last, created, olds, m', t', hrun, -⟩ :=
      cowPut_spec A.complete HcfMeta.zero (fun _ => hcfMetaOf task.ttl) (ipPath task.source_ip 24) m
        a v kids hs hnd
    have hserve := cowPut_serve A.le_complete hs hrun
    rw [length_ipPath] at hserve
    refine ⟨⟨new, last, created, olds⟩, m', ?_, ?_⟩
    · rw [root_node, hcfRegisterIpLocked_eq, hrun]
      rfl
    · rw [root_node, hcfRegisterIpLocked_eq]
      exact hserve.bind (k := 0) (Or.inl ⟨rfl, rfl⟩)

/-- **A critical section that ends had memory for its path.** -/
theorem hcfRegisterIpLocked_complete {task : HcfAddNodeTask} {pub : Option HcfPublished}
    (hroot : root t = p) (hs : Stored m t) (hnd : (addrs t).Nodup)
    (h : hcfRegisterIpLocked A task p m = .ok (pub, m')) :
    hcfRegisterIpLocked A.complete.toAllocator task p m = .ok (pub, m') := by
  subst hroot
  by_cases hne : t = .nil
  · rw [hne] at h ⊢
    exact h
  · obtain ⟨new, m₁, hrun, hserve⟩ := hcfRegisterIpLocked_serve A task hs hne hnd
    rw [hrun, hserve.eq_of_ok h]

/-- So had a build. -/
theorem hcfInsertEntries_complete {entries : List HcfHistoryEntry} (hroot : root t = p)
    (hs : Stored m t) (hne : t ≠ .nil) (hnd : (addrs t).Nodup)
    (h : entries.foldlM (fun m x => hcfInsertEntry A p x m) m = .ok m') :
    entries.foldlM (fun m x => hcfInsertEntry A.complete.toAllocator p x m) m = .ok m' := by
  subst hroot
  rw [hcfInsertEntries_eq] at h ⊢
  obtain ⟨m₁, t', hrun, -⟩ :=
    putAll_spec A.complete HcfMeta.zero (entries.map HcfHistoryEntry.put) hs hne hnd
  cases t with
  | nil => exact absurd rfl hne
  | node y kids =>
    obtain ⟨n, -, hserve⟩ := putAll_serve A.le_complete hrun
    rw [hrun, hserve.eq_of_ok h]

theorem hcfInsertEntry_complete {entry : HcfHistoryEntry} (hroot : root t = p)
    (hs : Stored m t) (hne : t ≠ .nil) (hnd : (addrs t).Nodup)
    (h : hcfInsertEntry A p entry m = .ok m') :
    hcfInsertEntry A.complete.toAllocator p entry m = .ok m' := by
  have hone : [entry].foldlM (fun m x => hcfInsertEntry A p x m) m = .ok m' := by
    rw [List.foldlM_cons, h]
    rfl
  have hall := hcfInsertEntries_complete hroot hs hne hnd hone
  rw [List.foldlM_cons] at hall
  simpa only [List.foldlM_nil, bind_pure] using hall

/-! ## The functions, whatever memory there is -/

/-- An initialisation that returns has a root. -/
theorem hcfInitState_complete (h : hcfInitState A = .ok s) :
    hcfInitState A.complete.toAllocator = .ok s := by
  unfold hcfInitState at h ⊢
  cases hz : hcfCreateNode A Mem.empty with
  | mk c m =>
    rw [hz] at h
    cases c with
    | none => cases h
    | some c =>
      rw [hcfCreateNode_complete hz]
      exact h

theorem hcfInitState_any (h : hcfInitState A = .ok s) : ∃ a, HcfInv s (hcfBlank a) := by
  obtain ⟨a, s₁, hinit, hinv⟩ := hcfInitState_spec A.complete
  obtain rfl := Except.ok.inj (hinit.symm.trans (hcfInitState_complete h))
  exact ⟨a, hinv⟩

/-- **A register work that returns** has put its leaf. -/
theorem HcfInv.work_any {task : HcfAddNodeTask} {announced : Option HcfIpCtx} (h : HcfInv s t)
    (hrun : hcfRegisterIpWork A task s = .ok (announced, s')) :
    ∃ t', HcfInv s' t' ∧ vals t' = BitTrie.put HcfMeta.zero (fun _ => hcfMetaOf task.ttl)
      (ipPath task.source_ip 24) (vals t) := by
  obtain ⟨s₁, t', hwork, hinv, hvals⟩ := hcfRegisterIpWork_spec A.complete task h
  have hsame : hcfRegisterIpWork A.complete.toAllocator task s = .ok (announced, s') := by
    unfold hcfRegisterIpWork at hrun ⊢
    obtain ⟨⟨pub, m⟩, hlocked, hrun⟩ := bind_eq_ok.1 hrun
    rw [hcfRegisterIpLocked_complete h.root_eq h.stored h.nodup hlocked, ok_bind]
    exact hrun
  obtain ⟨-, rfl⟩ := Prod.mk.inj (Except.ok.inj (hwork.symm.trans hsame))
  exact ⟨t', hinv, hvals⟩

/-- The invariant is about what is allocated. -/
theorem HcfInv.congr_objs (h : HcfInv s t) (hobjs : m.objs = s.mem.objs) :
    HcfInv { s with mem := m } t where
  root_eq := h.root_eq
  ne_nil := h.ne_nil
  stored := h.stored.congr fun c _ => by
    show m.objs.lookup c = s.mem.objs.lookup c
    rw [hobjs]
  account := by
    show m.objs.keys.val = addrs t + s.rcu
    rw [hobjs]
    exact h.account

/-- **A history that returns** has changed nothing, or installed its entries. -/
theorem HcfInv.history_any {e : Endian} {info : GenlInfo} {ret : ℤ} (h : HcfInv s t)
    (hrun : hcfRegisterIpHistory e A info s = .ok (ret, s')) :
    HcfInv s' t ∨ ∃ t', HcfInv s' t' ∧
      MapsTo (vals t') (HcfMap.restore (hcfHistoryEntries e info)) := by
  rcases Mem.zalloc_cases A s.mem (Cell.zero HcfMeta.zero) with ⟨c, m, hz, hext⟩ | hz
  · obtain ⟨s₁, hhist, t', hinv, hmap⟩ := h.history e A.complete info
    have hsame : hcfRegisterIpHistory e A.complete.toAllocator info s = .ok (ret, s') := by
      unfold hcfRegisterIpHistory at hrun ⊢
      rw [hcfCreateNode_complete hz]
      rw [hcfCreateNode, hz] at hrun
      obtain ⟨m₂, hfold, hrun⟩ := bind_eq_ok.1 hrun
      have hroot : root (hcfBlank c) = some c := rfl
      have hfold' := hcfInsertEntries_complete hroot (stored_hcfBlank hext.lookup_self)
        (by simp [hcfBlank]) (by simp [addrs_hcfBlank]) hfold
      simp only [hfold', ok_bind]
      exact hrun
    obtain ⟨-, rfl⟩ := Prod.mk.inj (Except.ok.inj (hhist.symm.trans hsame))
    exact Or.inr ⟨t', hinv, hmap⟩
  · simp only [hcfRegisterIpHistory, hcfCreateNode, hz, pure_eq_ok, Except.ok.injEq,
      Prod.mk.injEq] at hrun
    obtain ⟨-, rfl⟩ := hrun
    exact Or.inl (h.congr_objs rfl)

/-! ## With everything in flight -/

section InFlight

variable {s s' : HcfSys} {task : HcfAddNodeTask} {i : ℕ}

theorem hcfRegister_any (h : HcfLedger s) (hrun : hcfRegister A task s = .ok s') :
    HcfStepCase s (.register A.complete task) s' := by
  obtain ⟨s₁, hwork, hcase⟩ := hcfRegister_cases h A.complete task
  have hsame : hcfRegister A.complete.toAllocator task s = .ok s' := by
    obtain ⟨t, hroot, hs, -, hnd⟩ := h.exists_live
    unfold hcfRegister at hrun ⊢
    obtain ⟨⟨pub, m⟩, hlocked, hrun⟩ := bind_eq_ok.1 hrun
    rw [hcfRegisterIpLocked_complete hroot hs hnd hlocked, ok_bind]
    exact hrun
  obtain rfl := Except.ok.inj (hwork.symm.trans hsame)
  exact hcase

theorem hcfHistoryEntry_any (h : HcfLedger s) (hrun : hcfHistoryEntry A i s = .ok s') :
    HcfStepCase s (.historyEntry A.complete i) s' := by
  obtain ⟨s₁, hentry, hcase⟩ := hcfHistoryEntry_cases h A.complete i
  have hsame : hcfHistoryEntry A.complete.toAllocator i s = .ok s' := by
    unfold hcfHistoryEntry at hrun ⊢
    cases hb : s.builds[i]? with
    | none =>
      rw [hb] at hrun
      exact hrun
    | some b =>
      cases hx : b.entries with
      | nil =>
        simp only [hb, hx] at hrun ⊢
        exact hrun
      | cons x rest =>
        simp only [hb, hx] at hrun ⊢
        obtain ⟨m, hone, hrun⟩ := bind_eq_ok.1 hrun
        obtain ⟨t, hroot, hs, hne, hnd⟩ := h.exists_build hb
        rw [hcfInsertEntry_complete hroot hs hne hnd hone, ok_bind]
        exact hrun
  obtain rfl := Except.ok.inj (hentry.symm.trans hsame)
  exact hcase

/-- A history that finds no memory for its root ends there. -/
theorem hcfHistoryStart_any (A : Allocator) (entries : List HcfHistoryEntry) (s : HcfSys) :
    (∃ m, m.objs = s.mem.objs ∧ hcfHistoryStart A entries s = { s with mem := m }) ∨
      HcfStepCase s (.historyStart A.complete entries) (hcfHistoryStart A entries s) := by
  cases hz : hcfCreateNode A s.mem with
  | mk c m =>
    cases c with
    | none =>
      refine Or.inl ⟨m, Mem.objs_of_zalloc_none hz, ?_⟩
      rw [hcfHistoryStart, hz]
    | some c =>
      have hz' := hcfCreateNode_complete hz
      have hcase := hcfHistoryStart_cases A.complete entries s
      rw [hcfHistoryStart, hz'] at hcase
      rw [hcfHistoryStart, hz]
      exact Or.inr hcase

/-- The ledger is about what is allocated. -/
theorem HcfLedger.congr_objs (h : HcfLedger s) (hobjs : m.objs = s.mem.objs) :
    HcfLedger { s with mem := m } := by
  have hk : HcfKept s m s.builds s.syncs := h.kept_all fun c _ => by
    rw [Mem.lookup, hobjs, Mem.lookup]
  have hacc : m.allocated = s.mem.allocated := by rw [Mem.allocated, hobjs, Mem.allocated]
  refine ⟨hk.live.1, fun b hb => (hk.builds b hb).1, h.builds_ne, fun o ho => (hk.syncs o ho).1,
    ?_, h.slots⟩
  rw [hacc, h.account]
  simp only [HcfSys.live, HcfSys.building, HcfSys.replaced, HcfSys.retained, HcfSys.queued]
  rw [held_congr fun b hb => (hk.builds b hb).2, held_congr fun o ho => (hk.syncs o ho).2]
  exact congrArg (fun x => x + _ + _ + _ + _) hk.live.2.symm

/-- The component starts with nothing in flight. -/
theorem hcfSysInit_any (h : hcfSysInit A = .ok s) :
    HcfLedger s ∧ s.builds = [] ∧ s.syncs = [] ∧ s.works = [] ∧ s.readers = [] ∧ s.rcu = [] := by
  obtain ⟨s₁, hinit, hledger, -⟩ := hcfSysInit_ledger A.complete
  obtain ⟨s₀, hstate, h⟩ := bind_eq_ok.1 h
  rw [hcfSysInit, hcfInitState_complete hstate, ok_bind] at hinit
  obtain rfl := Except.ok.inj h
  obtain rfl := Except.ok.inj hinit
  exact ⟨hledger, rfl, rfl, rfl, rfl, rfl⟩

end InFlight

end Librefw
