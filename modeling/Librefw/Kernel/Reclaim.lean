import Librefw.Bogon.Ledger
import Librefw.Hcf.Complete
import Librefw.Hcf.Runs
import Librefw.Kernel.Model.Reclaim

/-!
# When the deferred frees are done

The teardown destroys the caches after a `synchronize_rcu`, which waits
for read sections and not for the callbacks that are still to free into
them. What each component has in flight goes as the teardown proceeds:
first commands and lookups, then works, then the tree, then the replaced
ones (`HcfClosing`). What is left is the callbacks.

A history message waits for its grace period and frees what it replaced
itself; a register work and a list that is loaded leave that to callbacks.
A run in which nothing is left to callbacks is good (`LfwDefers`). Of one
in which something is, the updates can also be taken one after the other
and the module torn down with the callbacks late, and then it is not
(`lfwReclaim_iff`).
-/

namespace Librefw

open PtrTrie

variable {e : Endian} {s s' : LfwReclaim} {evs : List LfwReclaimEvent} {n : ℕ}

/-! ## The hop-count filter as it closes -/

section Closing

variable {s s' : HcfSys} {ev : HcfEvent}

/-- What has ended by the `n`-th statement of the teardown. -/
structure HcfClosing (n : ℕ) (s : HcfSys) : Prop where
  quiet : 0 < n → s.builds = [] ∧ s.readers = []
  drained : 1 < n → s.works = []
  swapped : 2 < n → s.tree = none
  synced : 3 < n → s.syncs = []

/-- The events there still are. -/
def HcfEvent.Due (n : ℕ) : HcfEvent → Prop
  | .register _ _ => n ≤ 1
  | .historyStart _ _ | .historyEntry _ _ | .historySwap _ | .readerEnter _ _ | .readerStep _ =>
    n = 0
  | .swapNull => False
  | _ => True

/-- What is in an empty list. -/
theorem getElem?_eq_some_nil {α : Type} {l : List α} {i : ℕ} {x : α} (hx : l[i]? = some x)
    (hnil : l = []) : False := by
  rw [hnil] at hx
  cases hx

/-- **An event opens nothing that has ended.** -/
theorem HcfStepCase.closing (hcase : HcfStepCase s ev s') (hdue : ev.Due n)
    (h : HcfClosing n s) : HcfClosing n s' := by
  cases hcase with
  | idle ev hidle => exact h
  | register hroot hs hreg =>
    have hn : n ≤ 1 := hdue
    exact ⟨h.quiet, fun hlt => by omega, fun hlt => by omega, h.synced⟩
  | announce hw hlog =>
    exact ⟨h.quiet, fun hlt => (getElem?_eq_some_nil hw (h.drained hlt)).elim, h.swapped, h.synced⟩
  | retire hw hlog hnodes =>
    exact ⟨h.quiet, fun hlt => (getElem?_eq_some_nil hw (h.drained hlt)).elim, h.swapped, h.synced⟩
  | finish hw hlog hnodes =>
    exact ⟨h.quiet, fun hlt => (getElem?_eq_some_nil hw (h.drained hlt)).elim, h.swapped, h.synced⟩
  | callback hc hgrace => exact ⟨h.quiet, h.drained, h.swapped, h.synced⟩
  | historyStart hext =>
    have hn : n = 0 := hdue
    exact ⟨fun hlt => by omega, h.drained, h.swapped, h.synced⟩
  | historyEntry hb hx hroot hs hg =>
    have hn : n = 0 := hdue
    exact ⟨fun hlt => by omega, h.drained, h.swapped, h.synced⟩
  | historySwap hb hx =>
    have hn : n = 0 := hdue
    exact ⟨fun hlt => by omega, fun hlt => by omega, fun hlt => by omega, fun hlt => by omega⟩
  | swapNull => exact hdue.elim
  | syncDone ho hgrace hacc hkeep =>
    exact ⟨h.quiet, h.drained, h.swapped,
      fun hlt => (getElem?_eq_some_nil ho (h.synced hlt)).elim⟩
  | reader ev hev readers clock answers =>
    have hn : n = 0 := by
      cases ev with
      | readerEnter source_ip ttl => exact hdue
      | readerStep i => exact hdue
      | _ => exact hev.elim
    exact ⟨fun hlt => by omega, h.drained, h.swapped, h.synced⟩

/-- **Once all has ended**, and no callback waits, the cache is empty. -/
theorem HcfClosing.allocated (h : HcfClosing n s) (hledger : HcfLedger s) (hn : 3 < n)
    (hrcu : s.rcu = []) : s.mem.allocated = 0 := by
  rw [hledger.account]
  simp only [HcfSys.live, HcfSys.building, HcfSys.replaced, HcfSys.retained, HcfSys.queued]
  rw [h.swapped (by omega), (h.quiet (by omega)).1, h.synced hn, h.drained (by omega), hrcu]
  simp

/-- At first nothing has ended. -/
theorem HcfClosing.zero (s : HcfSys) : HcfClosing 0 s :=
  ⟨fun hlt => by omega, fun hlt => by omega, fun hlt => by omega, fun hlt => by omega⟩

theorem HcfClosing.quieted (h : s.builds = [] ∧ s.readers = []) : HcfClosing 1 s :=
  ⟨fun _ => h, fun hlt => by omega, fun hlt => by omega, fun hlt => by omega⟩

theorem HcfClosing.worked (h : HcfClosing 1 s) (hworks : s.works = []) : HcfClosing 2 s :=
  ⟨fun _ => h.quiet (by omega), fun _ => hworks, fun hlt => by omega, fun hlt => by omega⟩

/-- The teardown's own swap. -/
theorem HcfClosing.swapNull (h : HcfClosing 2 s) : HcfClosing 3 (hcfSwap none s) := by
  have hquiet := h.quiet (by omega)
  have hworks := h.drained (by omega)
  unfold hcfSwap
  cases htree : s.tree with
  | none => exact ⟨fun _ => hquiet, fun _ => hworks, fun _ => rfl, fun hlt => by omega⟩
  | some root => exact ⟨fun _ => hquiet, fun _ => hworks, fun _ => rfl, fun hlt => by omega⟩

theorem HcfClosing.synchronized (h : HcfClosing 3 s) (hsyncs : s.syncs = []) (n : ℕ) :
    HcfClosing n s :=
  ⟨fun _ => h.quiet (by omega), fun _ => h.drained (by omega), fun _ => h.swapped (by omega),
    fun _ => hsyncs⟩

/-- What has all ended stays so. -/
theorem HcfClosing.mono (h : HcfClosing n s) (hn : 3 < n) (n' : ℕ) : HcfClosing n' s :=
  ⟨fun _ => h.quiet (by omega), fun _ => h.drained (by omega), fun _ => h.swapped (by omega),
    fun _ => h.synced hn⟩

end Closing

/-! ## The invariant -/

/-- Both ledgers are in order, and what the teardown has ended has ended. -/
structure LfwReclaimInv (s : LfwReclaim) : Prop where
  ledger : HcfLedger s.hcf
  closing : HcfClosing s.pc.index s.hcf
  live : s.pc.index ≤ 6 → LfwBgLive s.bg
  queued : 6 < s.pc.index → LfwBgQueued s.bg

/-- The invariant before the `n`-th statement. -/
theorem LfwReclaimInv.of_index (hn : s.pc.index = n) (hledger : HcfLedger s.hcf)
    (hclosing : HcfClosing n s.hcf) (hlive : n ≤ 6 → LfwBgLive s.bg)
    (hqueued : 6 < n → LfwBgQueued s.bg) : LfwReclaimInv s := by
  subst hn
  exact ⟨hledger, hclosing, hlive, hqueued⟩

theorem LfwReclaimInv.closing_at (h : LfwReclaimInv s) (hn : s.pc.index = n) :
    HcfClosing n s.hcf := hn ▸ h.closing

/-- No callback is left that frees into a destroyed cache, and none of its nodes is allocated: a
tree without a root has nothing in the cache. -/
structure LfwReclaimed (s : LfwReclaim) : Prop where
  hcf : s.pc.hcfDestroyed → s.hcf.rcu = [] ∧ s.hcf.mem.allocated = 0
  bogon : s.pc.bgDestroyed →
    (∀ tree ∈ s.bg.rcu, s.bg.trees.load tree = .ok ⟨none⟩) ∧ s.bg.nodes.allocated = 0

/-- An update that leaves nodes to callbacks: a work that finds a tree, whose path it replaces,
and a list that is loaded, which the next one or the teardown replaces. -/
def LfwDefers (e : Endian) (s : LfwReclaim) : LfwReclaimEvent → Prop
  | .register _ _ => s.pc.index ≤ 1 ∧ s.hcf.tree ≠ none
  | .bogonSet A info => s.pc.index = 0 ∧ LfwLoads e A info s.bg
  | _ => False

/-! ## What an event does -/

/-- What an event does: nothing, a step of one of the components, or a statement of the
teardown. -/
inductive LfwReclaimCase (e : Endian) (s : LfwReclaim) : LfwReclaimEvent → LfwReclaim → Prop where
  | idle (ev : LfwReclaimEvent) : LfwReclaimCase e s ev s
  | register {A : Allocator} {task : HcfAddNodeTask} {hcf : HcfSys} (hdue : s.pc.index ≤ 1)
      (hcase : HcfStepCase s.hcf (.register A.complete task) hcf)
      (hreg : hcfRegister A task s.hcf = .ok hcf) :
      LfwReclaimCase e s (.register A task) { s with hcf := hcf }
  | hcf {ev : LfwReclaimEvent} {hev : HcfEvent} {hcf : HcfSys}
      (hcase : HcfStepCase s.hcf hev hcf) (hdue : hev.Due s.pc.index)
      (hnot : ∀ A task, hev ≠ .register A task) :
      LfwReclaimCase e s ev { s with hcf := hcf }
  | denied {A : Allocator} {entries : List HcfHistoryEntry} {m : Mem HcfNode}
      (hobjs : m.objs = s.hcf.mem.objs) :
      LfwReclaimCase e s (.historyStart A entries) { s with hcf := { s.hcf with mem := m } }
  | bogonSet {A : Allocator} {info : GenlInfo} {ret : ℤ} {bg : LfwBgState} {stamps : List ℕ}
      (hzero : s.pc.index = 0) (hset : lfwBogonSet e A info s.bg = .ok (ret, bg)) :
      LfwReclaimCase e s (.bogonSet A info) { s with bg := bg, stamps := stamps }
  | bogonCallback {i : ℕ} {bg : LfwBgState} {stamps : List ℕ}
      (hfree : lfwFreeBgTree i s.bg = .ok bg) :
      LfwReclaimCase e s (.bogonCallback i) { s with bg := bg, stamps := stamps }
  | teardown : LfwReclaimCase e s .teardown s.teardown

theorem onHcf_eq_ok {x : Except Fault HcfSys} (h : s.onHcf x = .ok s') :
    ∃ hcf, x = .ok hcf ∧ s' = { s with hcf := hcf } := by
  obtain ⟨hcf, hx, hpure⟩ := bind_eq_ok.1 h
  exact ⟨hcf, hx, (Except.ok.inj hpure).symm⟩

/-- A callback of the hop-count filter. -/
theorem LfwReclaimInv.hcfCallback (h : LfwReclaimInv s) {i : ℕ}
    (hrun : s.hcfCallback i = .ok s') : LfwReclaimCase e s (.hcfCallback i) s' := by
  unfold LfwReclaim.hcfCallback at hrun
  split at hrun
  · -- it faults if there is one
    split at hrun
    · obtain rfl := Except.ok.inj hrun
      exact .idle _
    · cases hrun
  · obtain ⟨hcf, hback, rfl⟩ := onHcf_eq_ok hrun
    obtain ⟨hcf', hback', hcase⟩ := hcfCallback_cases h.ledger i
    obtain rfl := Except.ok.inj (hback.symm.trans hback')
    exact .hcf hcase trivial nofun

/-- A callback of the bogon list. -/
theorem lfwReclaim_bogonCallback {i : ℕ} (hrun : s.bogonCallback i = .ok s') :
    LfwReclaimCase e s (.bogonCallback i) s' := by
  -- it frees its tree, whatever its root
  have hfree : ∀ s₁, (do
      let bg ← lfwFreeBgTree i s.bg
      pure { s with bg := bg, stamps := s.stamps.eraseIdx i } : Except Fault LfwReclaim) = .ok s₁ →
      LfwReclaimCase e s (.bogonCallback i) s₁ := by
    intro s₁ hs₁
    obtain ⟨bg, hbg, hpure⟩ := bind_eq_ok.1 hs₁
    obtain rfl := Except.ok.inj hpure
    exact .bogonCallback hbg
  unfold LfwReclaim.bogonCallback at hrun
  split at hrun
  · next tree stamp hi hstamp =>
    split at hrun
    · obtain ⟨t, -, hrun⟩ := bind_eq_ok.1 hrun
      split at hrun
      · split at hrun
        · cases hrun
        · exact hfree s' hrun
      · exact hfree s' hrun
    · obtain rfl := Except.ok.inj hrun
      exact .idle _
  · obtain rfl := Except.ok.inj hrun
    exact .idle _

/-- **What an event does.** -/
theorem LfwReclaimInv.cases (h : LfwReclaimInv s) {ev : LfwReclaimEvent}
    (hstep : lfwReclaimStep e s ev = .ok s') : LfwReclaimCase e s ev s' := by
  unfold lfwReclaimStep at hstep
  by_cases hdue : ev.Due s.pc
  swap
  · rw [if_neg hdue] at hstep
    obtain rfl := Except.ok.inj hstep
    exact .idle ev
  rw [if_pos hdue] at hstep
  cases ev with
  | register A task =>
    obtain ⟨hcf, hreg, rfl⟩ := onHcf_eq_ok hstep
    exact .register hdue (hcfRegister_any h.ledger hreg) hreg
  | announce i =>
    obtain ⟨hcf, hann, rfl⟩ := onHcf_eq_ok hstep
    obtain rfl := Except.ok.inj hann
    exact .hcf (hcfAnnounce_cases i s.hcf) trivial nofun
  | callRcu i =>
    obtain ⟨hcf, hcall, rfl⟩ := onHcf_eq_ok hstep
    obtain rfl := Except.ok.inj hcall
    exact .hcf (hcfCallRcu_cases i s.hcf) trivial nofun
  | hcfCallback i => exact h.hcfCallback hstep
  | historyStart A entries =>
    obtain ⟨hcf, hstart, rfl⟩ := onHcf_eq_ok hstep
    obtain rfl := Except.ok.inj hstart
    rcases hcfHistoryStart_any A entries s.hcf with ⟨m, hobjs, heq⟩ | hcase
    · rw [heq]
      exact .denied hobjs
    · exact .hcf hcase hdue nofun
  | historyEntry A i =>
    obtain ⟨hcf, hentry, rfl⟩ := onHcf_eq_ok hstep
    exact .hcf (hcfHistoryEntry_any h.ledger hentry) hdue nofun
  | historySwap i =>
    obtain ⟨hcf, hswap, rfl⟩ := onHcf_eq_ok hstep
    obtain rfl := Except.ok.inj hswap
    exact .hcf (hcfHistorySwap_cases i s.hcf) hdue nofun
  | syncDone i =>
    obtain ⟨hcf, hdone, rfl⟩ := onHcf_eq_ok hstep
    obtain ⟨hcf', hdone', hcase⟩ := hcfSyncDone_cases h.ledger i
    obtain rfl := Except.ok.inj (hdone.symm.trans hdone')
    exact .hcf hcase trivial nofun
  | readerEnter source_ip ttl =>
    obtain ⟨hcf, henter, rfl⟩ := onHcf_eq_ok hstep
    obtain rfl := Except.ok.inj henter
    have hcase : HcfStepCase s.hcf (.readerEnter source_ip ttl)
        (hcfReaderEnter source_ip ttl s.hcf) :=
      .reader (.readerEnter source_ip ttl) trivial _ _ s.hcf.answers
    exact .hcf hcase hdue nofun
  | readerStep i =>
    obtain ⟨hcf, hread, rfl⟩ := onHcf_eq_ok hstep
    exact .hcf (hcfReaderStep_cases hread) hdue nofun
  | bogonSet A info =>
    obtain ⟨⟨ret, bg⟩, hset, hpure⟩ := bind_eq_ok.1 hstep
    obtain rfl := Except.ok.inj hpure
    exact .bogonSet hdue hset
  | bogonCallback i => exact lfwReclaim_bogonCallback hstep
  | teardown =>
    obtain rfl := Except.ok.inj hstep
    exact .teardown

/-! ## What an event keeps -/

/-- **A statement of the teardown keeps the invariant.** -/
theorem LfwReclaimInv.teardown (h : LfwReclaimInv s) : LfwReclaimInv s.teardown := by
  unfold LfwReclaim.teardown
  cases hpc : s.pc with
  | running =>
    have hn : s.pc.index = 0 := congrArg LfwReclaimPc.index hpc
    simp only
    split
    · next hnone =>
      exact .of_index (n := 1) rfl h.ledger (.quieted ⟨hnone.1, List.isEmpty_iff.1 hnone.2.2⟩)
        (fun _ => h.live (by omega)) fun hlt => by omega
    · exact h
  | hcfDestroyWorkqueue =>
    have hn : s.pc.index = 1 := congrArg LfwReclaimPc.index hpc
    simp only
    split
    · next hnone =>
      exact .of_index (n := 2) rfl h.ledger ((h.closing_at hn).worked hnone)
        (fun _ => h.live (by omega)) fun hlt => by omega
    · exact h
  | hcfSwapTree =>
    have hn : s.pc.index = 2 := congrArg LfwReclaimPc.index hpc
    -- the last root goes to the grace period that is then waited for
    exact .of_index (n := 3) rfl h.ledger.swapNull (h.closing_at hn).swapNull
      (fun _ => h.live (by omega)) fun hlt => by omega
  | hcfSynchronizeRcu =>
    have hn : s.pc.index = 3 := congrArg LfwReclaimPc.index hpc
    simp only
    split
    · next hnone =>
      exact .of_index (n := 4) rfl h.ledger ((h.closing_at hn).synchronized hnone 4)
        (fun _ => h.live (by omega)) fun hlt => by omega
    · exact h
  | hcfCacheDestroy =>
    have hn : s.pc.index = 4 := congrArg LfwReclaimPc.index hpc
    exact .of_index (n := 5) rfl h.ledger ((h.closing_at hn).mono (by omega) 5)
      (fun _ => h.live (by omega)) fun hlt => by omega
  | hcfKfree =>
    have hn : s.pc.index = 5 := congrArg LfwReclaimPc.index hpc
    exact .of_index (n := 6) rfl h.ledger ((h.closing_at hn).mono (by omega) 6)
      (fun _ => h.live (by omega)) fun hlt => by omega
  | bgCallRcu =>
    -- the published tree waits like the replaced ones
    have hn : s.pc.index = 6 := congrArg LfwReclaimPc.index hpc
    exact .of_index (n := 7) rfl h.ledger ((h.closing_at hn).mono (by omega) 7)
      (fun hle => by omega) fun _ => (h.live (by omega)).queue
  | bgSynchronizeRcu stamp =>
    have hn : s.pc.index = 7 := congrArg LfwReclaimPc.index hpc
    simp only
    split
    · exact .of_index (n := 8) rfl h.ledger ((h.closing_at hn).mono (by omega) 8)
        (fun hle => by omega) fun _ => h.queued (by omega)
    · exact h
  | bgCacheDestroy =>
    have hn : s.pc.index = 8 := congrArg LfwReclaimPc.index hpc
    exact .of_index (n := 9) rfl h.ledger ((h.closing_at hn).mono (by omega) 9)
      (fun hle => by omega) fun _ => h.queued (by omega)
  | bgKfree =>
    have hn : s.pc.index = 9 := congrArg LfwReclaimPc.index hpc
    exact .of_index (n := 10) rfl h.ledger ((h.closing_at hn).mono (by omega) 10)
      (fun hle => by omega) fun _ => h.queued (by omega)
  | gone => exact h

/-- **An event keeps the invariant.** -/
theorem LfwReclaimInv.step (h : LfwReclaimInv s) {ev : LfwReclaimEvent}
    (hstep : lfwReclaimStep e s ev = .ok s') : LfwReclaimInv s' := by
  cases h.cases hstep with
  | idle => exact h
  | register hdue hcase hreg =>
    exact ⟨hcase.ledger h.ledger, hcase.closing hdue h.closing, h.live, h.queued⟩
  | hcf hcase hdue hnot =>
    exact ⟨hcase.ledger h.ledger, hcase.closing hdue h.closing, h.live, h.queued⟩
  | denied hobjs =>
    have hclosing := h.closing
    exact ⟨h.ledger.congr_objs hobjs, ⟨hclosing.quiet, hclosing.drained, hclosing.swapped,
      hclosing.synced⟩, h.live, h.queued⟩
  | bogonSet hzero hset =>
    refine .of_index hzero h.ledger (h.closing_at hzero) (fun _ => (h.live (by omega)).set hset)
      fun hlt => ?_
    omega
  | bogonCallback hfree =>
    refine ⟨h.ledger, h.closing, fun hle => ?_, fun hlt => ?_⟩
    · obtain ⟨bg, hbg, hlive⟩ := (h.live hle).callback _
      obtain rfl := Except.ok.inj (hfree.symm.trans hbg)
      exact hlive
    · obtain ⟨bg, hbg, hqueued⟩ := (h.queued hlt).callback _
      obtain rfl := Except.ok.inj (hfree.symm.trans hbg)
      exact hqueued
  | teardown => exact h.teardown

/-- Nothing is left to callbacks: no work is past its critical section, and no tree of the bogon
list has a node. -/
structure LfwUndeferred (s : LfwReclaim) : Prop where
  works : s.hcf.works = []
  rcu : s.hcf.rcu = []
  nodes : s.bg.nodes.allocated = 0

/-- A step that is no work leaves nothing to callbacks. -/
theorem HcfStepCase.undeferred {x x' : HcfSys} {hev : HcfEvent} (hcase : HcfStepCase x hev x')
    (hnot : ∀ A task, hev ≠ .register A task) (hworks : x.works = []) (hrcu : x.rcu = []) :
    x'.works = [] ∧ x'.rcu = [] := by
  have hswap : ∀ (p : Ptr) (y : HcfSys), y.works = [] → y.rcu = [] →
      (hcfSwap p y).works = [] ∧ (hcfSwap p y).rcu = [] := by
    intro p y hw hr
    unfold hcfSwap
    cases y.tree with
    | none => exact ⟨hw, hr⟩
    | some root => exact ⟨hw, hr⟩
  cases hcase with
  | idle ev hidle => exact ⟨hworks, hrcu⟩
  | register hroot hs hreg => exact absurd rfl (hnot _ _)
  | announce hw hlog => exact (getElem?_eq_some_nil hw hworks).elim
  | retire hw hlog hnodes => exact (getElem?_eq_some_nil hw hworks).elim
  | finish hw hlog hnodes => exact (getElem?_eq_some_nil hw hworks).elim
  | callback hc hgrace => exact (getElem?_eq_some_nil hc hrcu).elim
  | historySwap hb hx => exact hswap _ _ hworks hrcu
  | swapNull => exact hswap _ _ hworks hrcu
  | _ => exact ⟨hworks, hrcu⟩

/-- **An event that defers nothing.** -/
theorem LfwUndeferred.step (hu : LfwUndeferred s) (h : LfwReclaimInv s) {ev : LfwReclaimEvent}
    (hnot : ¬ LfwDefers e s ev) (hstep : lfwReclaimStep e s ev = .ok s') : LfwUndeferred s' := by
  cases h.cases hstep with
  | idle => exact hu
  | register hdue hcase hreg =>
    -- there is no tree, so the work ends where it begins
    have htree : s.hcf.tree = none := by
      by_contra hne
      exact hnot ⟨hdue, hne⟩
    rw [hcfRegister, htree] at hreg
    obtain rfl := Except.ok.inj hreg
    exact ⟨hu.works, hu.rcu, hu.nodes⟩
  | hcf hcase hdue hnot =>
    obtain ⟨hworks, hrcu⟩ := hcase.undeferred hnot hu.works hu.rcu
    exact ⟨hworks, hrcu, hu.nodes⟩
  | denied hobjs => exact ⟨hu.works, hu.rcu, hu.nodes⟩
  | bogonSet hzero hset =>
    rcases lfwBogonSet_allocated hset with ⟨-, hsame⟩ | ⟨hloads, -⟩
    · exact ⟨hu.works, hu.rcu, hsame.trans hu.nodes⟩
    · exact absurd ⟨hzero, hloads⟩ hnot
  | bogonCallback hfree =>
    exact ⟨hu.works, hu.rcu, lfwFreeBgTree_allocated hfree hu.nodes⟩
  | teardown =>
    obtain ⟨hworks, hrcu, hnodes⟩ := hu
    unfold LfwReclaim.teardown
    split
    · split <;> exact ⟨hworks, hrcu, hnodes⟩
    · split <;> exact ⟨hworks, hrcu, hnodes⟩
    · obtain ⟨hw, hr⟩ := HcfStepCase.swapNull.undeferred (fun A task heq => by cases heq) hworks
        hrcu
      exact ⟨hw, hr, hnodes⟩
    · split <;> exact ⟨hworks, hrcu, hnodes⟩
    · exact ⟨hworks, hrcu, hnodes⟩
    · exact ⟨hworks, hrcu, hnodes⟩
    · exact ⟨hworks, hrcu, hnodes⟩
    · split <;> exact ⟨hworks, hrcu, hnodes⟩
    · exact ⟨hworks, hrcu, hnodes⟩
    · exact ⟨hworks, hrcu, hnodes⟩
    · exact ⟨hworks, hrcu, hnodes⟩

/-- **Where nothing is left to callbacks**, none is missed. -/
theorem LfwReclaimInv.reclaimed (h : LfwReclaimInv s) (hu : LfwUndeferred s) : LfwReclaimed s := by
  constructor
  · intro hd
    have hn : 4 < s.pc.index := hd
    exact ⟨hu.rcu, h.closing.allocated h.ledger (by omega) hu.rcu⟩
  · intro hd
    have hn : 8 < s.pc.index := hd
    exact ⟨fun tree htree => (h.queued (by omega)).load hu.nodes htree, hu.nodes⟩

/-! ## Updates one after the other -/

/-- The updates of a run. What else happens in it is when they happen, and when what they left
to callbacks does. -/
def LfwReclaimEvent.IsUpdate : LfwReclaimEvent → Bool
  | .register _ _ | .historyStart _ _ | .bogonSet _ _ => true
  | _ => false

/-- An update that leaves nodes to callbacks if it goes through. -/
def LfwReclaimEvent.Defers (e : Endian) : LfwReclaimEvent → Prop
  | .register _ _ => True
  | .bogonSet _ info => lfwNumPrefix e info ≠ 0
  | _ => False

/-- A request whose list fits the buffer it announces, with no prefix over 32. -/
structure LfwFits (e : Endian) (info : GenlInfo) : Prop where
  count : (lfwPrefixAttrs e info).length ≤ lfwNumPrefix e info
  size : lfwNumPrefix e info < 2 ^ 29
  len : ∀ p ∈ lfwInstalled e info, p.ipPrefixLen.toNat ≤ 32

/-- An update that goes through: its allocations are granted, and its list, if it announces
one, fits. -/
def LfwReclaimEvent.Served (e : Endian) : LfwReclaimEvent → Prop
  | .register A _ | .historyStart A _ => A.Total
  | .bogonSet A info => A.Total ∧ (lfwNumPrefix e info ≠ 0 → LfwFits e info)
  | _ => True

theorem LfwDefers.defers {ev : LfwReclaimEvent} (h : LfwDefers e s ev) : ev.Defers e := by
  cases ev with
  | register A task => trivial
  | bogonSet A info => exact h.2.1
  | _ => exact h.elim

theorem LfwReclaimEvent.Defers.isUpdate {ev : LfwReclaimEvent} (h : ev.Defers e) :
    ev.IsUpdate = true := by
  cases ev with
  | register A task => rfl
  | bogonSet A info => rfl
  | _ => exact h.elim

/-- The same event with both components there. -/
def HcfEvent.toReclaim : HcfEvent → LfwReclaimEvent
  | .register A task => .register A.toAllocator task
  | .announce i => .announce i
  | .callRcu i => .callRcu i
  | .callback i => .hcfCallback i
  | .historyStart A entries => .historyStart A.toAllocator entries
  | .historyEntry A i => .historyEntry A.toAllocator i
  | .historySwap i => .historySwap i
  | .swapNull => .teardown
  | .syncDone i => .syncDone i
  | .readerEnter source_ip ttl => .readerEnter source_ip ttl
  | .readerStep i => .readerStep i

/-- While the module runs, a run of the hop-count filter is one of both components. -/
theorem lfwReclaim_run_hcf {hevs : List HcfEvent} {hcf : HcfSys} (hpc : s.pc = .running)
    (hdue : ∀ hev ∈ hevs, hev ≠ .swapNull) (hrun : run hcfSysStep s.hcf hevs = .ok hcf) :
    run (lfwReclaimStep e) s (hevs.map HcfEvent.toReclaim) = .ok { s with hcf := hcf } := by
  induction hevs generalizing s with
  | nil =>
    obtain rfl := Except.ok.inj hrun
    rfl
  | cons hev hevs ih =>
    rw [run_cons] at hrun
    obtain ⟨hcf₁, hone, hrun⟩ := bind_eq_ok.1 hrun
    have hstep : lfwReclaimStep e s hev.toReclaim = .ok { s with hcf := hcf₁ } := by
      have hlift : s.onHcf (hcfSysStep s.hcf hev) = .ok { s with hcf := hcf₁ } := by
        rw [hone]
        rfl
      have hnot : ¬ s.pc.hcfDestroyed := by
        rw [hpc]
        decide
      have hindex : s.pc.index = 0 := congrArg LfwReclaimPc.index hpc
      cases hev with
      | swapNull => exact absurd rfl (hdue _ List.mem_cons_self)
      | callback i =>
        show s.hcfCallback i = _
        rw [LfwReclaim.hcfCallback, if_neg hnot]
        exact hlift
      | register A task =>
        have hle : s.pc.index ≤ 1 := by omega
        exact (if_pos hle).trans hlift
      | announce i => exact hlift
      | callRcu i => exact hlift
      | syncDone i => exact hlift
      | _ => exact (if_pos hindex).trans hlift
    rw [List.map_cons, run_cons, hstep, ok_bind]
    exact ih hpc (fun x hx => hdue x (List.mem_cons_of_mem _ hx)) hrun

theorem along_not_lfwDefers (h : ∀ ev ∈ evs, ¬ ev.Defers e) :
    Along (lfwReclaimStep e) (fun s ev => ¬ LfwDefers e s ev) s evs := by
  have hstep : ∀ (s : LfwReclaim) (ev : LfwReclaimEvent), True → ¬ ev.Defers e →
      ¬ LfwDefers e s ev ∧ ∀ s', lfwReclaimStep e s ev = .ok s' → True :=
    fun s ev _ hev => ⟨fun hd => hev hd.defers, fun _ _ => trivial⟩
  exact Along.imp hstep trivial (along_of_forall h)

/-- Between two updates, with nothing under way. -/
structure LfwAtRest (s : LfwReclaim) : Prop where
  pc_eq : s.pc = .running
  builds : s.hcf.builds = []
  syncs : s.hcf.syncs = []
  works : s.hcf.works = []
  readers : s.hcf.readers = []
  hcf : ∃ t, HcfInv s.hcf.state t
  bg : ∃ a t olds, LfwBgInv s.bg a t olds

/-- Something is left to a callback, now or when the module goes. -/
def LfwLeft (s : LfwReclaim) : Prop := s.hcf.rcu ≠ [] ∨ s.bg.nodes.allocated ≠ 0

/-- Both components start at rest. -/
theorem lfwReclaimInit_inv {A : Allocator} (hinit : lfwReclaimInit A = .ok s) :
    LfwReclaimInv s ∧ LfwUndeferred s ∧ LfwAtRest s := by
  unfold lfwReclaimInit at hinit
  cases hbg : lfwInitBgState A with
  | error r =>
    rw [hbg] at hinit
    cases hinit
  | ok bg =>
    cases hhcf : hcfSysInit A with
    | error r =>
      rw [hbg, hhcf] at hinit
      cases hinit
    | ok hcf =>
      rw [hbg, hhcf] at hinit
      obtain rfl := Except.ok.inj hinit
      obtain ⟨hledger, hbuilds, hsyncs, hworks, hreaders, hrcu⟩ := hcfSysInit_any hhcf
      obtain ⟨a, hinv⟩ := hcfInitState_any (hcfSysInit_state hhcf)
      refine ⟨.of_index (n := 0) rfl hledger (.zero hcf) (fun _ => lfwInitBgState_live hbg)
        fun hlt => by omega, ⟨hworks, hrcu, lfwInitBgState_allocated hbg⟩,
        ⟨rfl, hbuilds, hsyncs, hworks, hreaders, ⟨_, hinv⟩, lfwInitBgState_inv hbg⟩⟩

/-- An update can be taken by itself, and leaves to callbacks what it defers. -/
def LfwTakes (e : Endian) (s : LfwReclaim) (evs : List LfwReclaimEvent) : Prop :=
  ∃ evs' s', evs'.filter LfwReclaimEvent.IsUpdate = evs ∧
    run (lfwReclaimStep e) s evs' = .ok s' ∧ LfwAtRest s' ∧ (LfwLeft s → LfwLeft s') ∧
    ((∃ ev ∈ evs, ev.Defers e) → LfwLeft s')

theorem LfwAtRest.register (h : LfwAtRest s) {A : Allocator} (hA : A.Total) (task : HcfAddNodeTask) :
    LfwTakes e s [.register A task] := by
  obtain ⟨t, hinv⟩ := h.hcf
  obtain ⟨s₁, t', hwork, hinv', -⟩ := hcfRegisterIpWork_spec { A with total := hA } task hinv
  have hrcu := hcfRegisterIpWork_rcu hinv hwork
  obtain ⟨nodes, hnodes, hrun⟩ := hcfRegisterIpWork_run hwork
  -- the root at least is replaced
  have hne : s.hcf.rcu ++ s.hcf.stamped nodes ≠ [] := by
    obtain rfl : nodes = pathAddrs t (ipPath task.source_ip 24) :=
      List.append_cancel_left (hnodes.symm.trans hrcu)
    intro hnil
    have hpath := List.map_eq_nil_iff.1 (List.append_eq_nil_iff.1 hnil).2
    exact hinv.ne_nil (pathAddrs_eq_nil.1 hpath)
  refine ⟨_, _, ?_, lfwReclaim_run_hcf h.pc_eq ?_ hrun, ⟨h.pc_eq, h.builds, h.syncs, h.works,
    h.readers, ⟨t', ?_⟩, h.bg⟩, fun _ => Or.inl hne, fun _ => Or.inl hne⟩
  · simp [hcfRegisterEvents, HcfEvent.toReclaim, LfwReclaimEvent.IsUpdate, List.filter_cons]
  · simp [hcfRegisterEvents]
  · have hstate : s₁ = ⟨s₁.mem, s₁.tree, s.hcf.state.rcu ++ nodes⟩ := by rw [← hnodes]
    rw [hstate] at hinv'
    rw [HcfSys.state, List.map_append, HcfSys.map_node_stamped]
    exact hinv'

theorem LfwAtRest.historyStart (h : LfwAtRest s) {A : Allocator} (hA : A.Total)
    (entries : List HcfHistoryEntry) : LfwTakes e s [.historyStart A entries] := by
  obtain ⟨t, hinv⟩ := h.hcf
  obtain ⟨a, m₁, m₂, m₃, t', hcreate, hentries, hfree, hinv', -⟩ :=
    hcfInstall_spec { A with total := hA } entries hinv
  have hrun := hcfHistoryEvents_run h.readers hcreate hentries hfree
  refine ⟨_, _, ?_, lfwReclaim_run_hcf h.pc_eq ?_ hrun, ⟨h.pc_eq, h.builds, h.syncs, h.works,
    h.readers, ⟨t', hinv'⟩, h.bg⟩, id, ?_⟩
  · simp [hcfHistoryEvents, HcfEvent.toReclaim, LfwReclaimEvent.IsUpdate, List.filter_cons]
  · rintro hev hmem rfl
    simp [hcfHistoryEvents] at hmem
  · rintro ⟨ev, hev, hdefers⟩
    rw [List.mem_singleton.1 hev] at hdefers
    exact hdefers.elim

theorem LfwAtRest.bogonSet (h : LfwAtRest s) {A : Allocator} (hA : A.Total) {info : GenlInfo}
    (hfits : lfwNumPrefix e info ≠ 0 → LfwFits e info) : LfwTakes e s [.bogonSet A info] := by
  obtain ⟨a, t, olds, hinv⟩ := h.bg
  have hindex : s.pc.index = 0 := congrArg LfwReclaimPc.index h.pc_eq
  obtain ⟨ret, bg, hset, hbg, hzero⟩ : ∃ ret bg, lfwBogonSet e A info s.bg = .ok (ret, bg) ∧
      (∃ a t olds, LfwBgInv bg a t olds) ∧ (lfwNumPrefix e info ≠ 0 → ret = 0) := by
    by_cases hnum : lfwNumPrefix e info = 0
    · refine ⟨-EINVAL, s.bg, ?_, h.bg, fun hne => absurd hnum hne⟩
      unfold lfwBogonSet
      simp only [hnum, if_true, pure_eq_ok]
    · have hf := hfits hnum
      have hspec := hinv.set_spec { A with total := hA } hf.count hf.size hf.len
      rw [if_neg hnum] at hspec
      obtain ⟨bg, a', t', hset, hinv', -⟩ := hspec
      exact ⟨0, bg, hset, ⟨a', t', _, hinv'⟩, fun _ => rfl⟩
  have hrun : run (lfwReclaimStep e) s [.bogonSet A info] = .ok { s with
      bg := bg
      stamps := s.stamps ++ List.replicate (bg.rcu.length - s.bg.rcu.length) s.hcf.clock } := by
    have hdue : (LfwReclaimEvent.bogonSet A info).Due s.pc := hindex
    rw [run_singleton, lfwReclaimStep, if_pos hdue]
    show s.bogonSet e A info = _
    rw [LfwReclaim.bogonSet, hset]
    rfl
  refine ⟨_, _, rfl, hrun, ⟨h.pc_eq, h.builds, h.syncs, h.works, h.readers, h.hcf, hbg⟩, ?_, ?_⟩
  · rintro (hrcu | hnodes)
    · exact Or.inl hrcu
    · rcases lfwBogonSet_allocated hset with ⟨-, hsame⟩ | ⟨-, hne⟩
      · exact Or.inr fun hnone => hnodes (hsame.symm.trans hnone)
      · exact Or.inr hne
  · rintro ⟨ev, hev, hdefers⟩
    rw [List.mem_singleton.1 hev] at hdefers
    rcases lfwBogonSet_allocated hset with ⟨hret | habort, -⟩ | ⟨-, hne⟩
    · exact absurd (hzero hdefers) hret
    · exact absurd habort (not_lfwLoadAborts { A with total := hA } s.bg)
    · exact Or.inr hne

/-- **Updates can be taken one after the other.** -/
theorem LfwAtRest.takes (h : LfwAtRest s) (hup : ∀ ev ∈ evs, ev.IsUpdate = true)
    (hserved : ∀ ev ∈ evs, ev.Served e) : LfwTakes e s evs := by
  induction evs generalizing s with
  | nil => exact ⟨[], s, rfl, rfl, h, id, fun ⟨_, hev, _⟩ => absurd hev List.not_mem_nil⟩
  | cons ev evs ih =>
    have hone : LfwTakes e s [ev] := by
      have hev := hserved ev List.mem_cons_self
      have hup' := hup ev List.mem_cons_self
      cases ev with
      | register A task => exact h.register hev task
      | historyStart A entries => exact h.historyStart hev entries
      | bogonSet A info => exact h.bogonSet hev.1 hev.2
      | _ => cases hup'
    obtain ⟨evs₁, s₁, hfilter₁, hrun₁, h₁, hleft₁, hdefers₁⟩ := hone
    obtain ⟨evs₂, s₂, hfilter₂, hrun₂, h₂, hleft₂, hdefers₂⟩ :=
      ih h₁ (fun x hx => hup x (List.mem_cons_of_mem _ hx))
        fun x hx => hserved x (List.mem_cons_of_mem _ hx)
    refine ⟨evs₁ ++ evs₂, s₂, ?_, ?_, h₂, fun hl => hleft₂ (hleft₁ hl), ?_⟩
    · rw [List.filter_append, hfilter₁, hfilter₂]
      rfl
    · rw [run_append, hrun₁, ok_bind, hrun₂]
    · rintro ⟨x, hx, hdefers⟩
      rcases List.mem_cons.1 hx with rfl | hx
      · exact hleft₂ (hdefers₁ ⟨x, List.mem_singleton_self x, hdefers⟩)
      · exact hdefers₂ ⟨x, hx, hdefers⟩

/-- The teardown, no callback in between. -/
def lfwTeardown : List LfwReclaimEvent :=
  [.teardown, .teardown, .teardown, .syncDone 0] ++ List.replicate 6 .teardown

/-- The teardown of the hop-count filter frees the tree it unpublished. -/
theorem LfwAtRest.hcf_teardown (h : LfwAtRest s) : ∃ m : Mem HcfNode,
    run (lfwReclaimStep e) s [.teardown, .teardown, .teardown, .syncDone 0] = .ok { s with
      hcf := { s.hcf with tree := none, syncs := [], mem := m }
      pc := .hcfSynchronizeRcu } := by
  obtain ⟨t, hinv⟩ := h.hcf
  obtain ⟨m, hfree, -⟩ := hcfFreeNode_spec hinv.stored hinv.nodup
  have htree : root t = s.hcf.tree := hinv.root_eq
  obtain ⟨a, ha⟩ : ∃ a, s.hcf.tree = some a := by
    rw [← htree, ← Option.ne_none_iff_exists']
    exact mt root_eq_none.1 hinv.ne_nil
  rw [htree, ha] at hfree
  have hfree' : hcfFreeNode (some a) s.hcf.mem = .ok m := hfree
  have hone : ∀ x : LfwReclaim, lfwReclaimStep e x .teardown = .ok x.teardown := fun _ => rfl
  have h₁ : s.teardown = { s with pc := .hcfDestroyWorkqueue } := by
    rw [LfwReclaim.teardown, h.pc_eq]
    exact if_pos ⟨h.builds, h.syncs, List.isEmpty_iff.2 h.readers⟩
  have h₂ : LfwReclaim.teardown { s with pc := .hcfDestroyWorkqueue } =
      { s with pc := .hcfSwapTree } := if_pos h.works
  have h₃ : LfwReclaim.teardown { s with pc := .hcfSwapTree } = { s with
      hcf := { s.hcf with tree := none, syncs := [⟨some a, s.hcf.clock⟩] }
      pc := .hcfSynchronizeRcu } := by
    show ({ s with hcf := hcfSwap none s.hcf, pc := .hcfSynchronizeRcu } : LfwReclaim) = _
    rw [hcfSwap, ha, h.syncs]
    rfl
  -- no lookup is under way, so the grace period ends at once
  have h₄ : hcfSyncDone 0 { s.hcf with tree := none, syncs := [⟨some a, s.hcf.clock⟩] } =
      .ok { s.hcf with tree := none, syncs := [], mem := m } := by
    have hover : ∀ r ∈ s.hcf.readers, s.hcf.clock ≤ r.id := by
      rw [h.readers]
      exact fun r hr => absurd hr List.not_mem_nil
    refine (if_pos hover).trans ?_
    show (hcfFreeNode (some a) s.hcf.mem >>= _) = _
    rw [hfree']
    rfl
  refine ⟨m, ?_⟩
  rw [run_cons, hone, h₁, ok_bind, run_cons, hone, h₂, ok_bind, run_cons, hone, h₃, ok_bind,
    run_singleton]
  show LfwReclaim.onHcf _ (hcfSyncDone 0 _) = _
  rw [h₄]
  rfl

/-- The rest of the teardown queues the bogon tree, and waits for lookups but for no callback. -/
theorem lfwTeardown_bogon {hcf : HcfSys} {bg : LfwBgState} {stamps : List ℕ}
    (hsyncs : hcf.syncs = []) (hreaders : hcf.readers = []) :
    run (lfwReclaimStep e) ⟨hcf, bg, stamps, .hcfSynchronizeRcu⟩ (List.replicate 6 .teardown) =
      .ok ⟨hcf, { bg with rcu := bg.rcu ++ [bg.tree] }, stamps ++ [hcf.clock], .bgKfree⟩ := by
  have hone : ∀ x : LfwReclaim, lfwReclaimStep e x .teardown = .ok x.teardown := fun _ => rfl
  have h₁ : LfwReclaim.teardown ⟨hcf, bg, stamps, .hcfSynchronizeRcu⟩ =
      ⟨hcf, bg, stamps, .hcfCacheDestroy⟩ := if_pos hsyncs
  have h₂ : run (lfwReclaimStep e) ⟨hcf, bg, stamps, .hcfCacheDestroy⟩
      (List.replicate 3 .teardown) = .ok ⟨hcf, { bg with rcu := bg.rcu ++ [bg.tree] },
        stamps ++ [hcf.clock], .bgSynchronizeRcu hcf.clock⟩ := rfl
  have hover : hcf.graceOver hcf.clock := by
    rw [HcfSys.graceOver, hreaders]
    exact fun r hr => absurd hr List.not_mem_nil
  have h₃ : LfwReclaim.teardown ⟨hcf, { bg with rcu := bg.rcu ++ [bg.tree] },
      stamps ++ [hcf.clock], .bgSynchronizeRcu hcf.clock⟩ =
        ⟨hcf, { bg with rcu := bg.rcu ++ [bg.tree] }, stamps ++ [hcf.clock], .bgCacheDestroy⟩ :=
    if_pos hover
  have hsplit : List.replicate 6 LfwReclaimEvent.teardown =
      .teardown :: (List.replicate 3 .teardown ++ [.teardown, .teardown]) := rfl
  rw [hsplit, run_cons, hone, h₁, ok_bind, run_append, h₂, ok_bind, run_cons, hone, h₃, ok_bind,
    run_singleton, hone]
  rfl

/-- **The teardown does not wait for callbacks.** -/
theorem LfwAtRest.teardown (h : LfwAtRest s) (hleft : LfwLeft s) :
    ∃ s', run (lfwReclaimStep e) s lfwTeardown = .ok s' ∧ ¬ LfwReclaimed s' := by
  obtain ⟨m, hrun⟩ := h.hcf_teardown (e := e)
  have hall : run (lfwReclaimStep e) s lfwTeardown = .ok
      ⟨{ s.hcf with tree := none, syncs := [], mem := m },
        { s.bg with rcu := s.bg.rcu ++ [s.bg.tree] }, s.stamps ++ [s.hcf.clock], .bgKfree⟩ := by
    rw [lfwTeardown, run_append, hrun, ok_bind]
    exact lfwTeardown_bogon rfl h.readers
  refine ⟨_, hall, fun hr => ?_⟩
  rcases hleft with hrcu | hnodes
  · exact hrcu (hr.hcf (show LfwReclaimPc.bgKfree.hcfDestroyed by decide)).1
  · exact hnodes (hr.bogon (show LfwReclaimPc.bgKfree.bgDestroyed by decide)).2

/-- **When the deferred frees are done.** A run of works, histories, lists, lookups and
callbacks, and of the teardown after them, is good if no step of it leaves anything to
callbacks: a destroyed cache has nothing allocated and no callback to come, in every state
reached. Of updates that go through, every timing is good if and only if none is a work or a
list, and the timing that is not takes them one after the other. -/
theorem lfwReclaim_iff {A₀ : Allocator} {s₀ : LfwReclaim} (e : Endian)
    (hinit : lfwReclaimInit A₀ = .ok s₀) (evs : List LfwReclaimEvent) :
    (Along (lfwReclaimStep e) (fun s ev => ¬ LfwDefers e s ev) s₀ evs →
      Always (lfwReclaimStep e) LfwReclaimed s₀ evs) ∧
    ((∀ ev ∈ evs, ev.Served e) →
      ((∀ evs', evs'.filter LfwReclaimEvent.IsUpdate = evs.filter LfwReclaimEvent.IsUpdate →
        Always (lfwReclaimStep e) LfwReclaimed s₀ evs') ↔ ∀ ev ∈ evs, ¬ ev.Defers e)) := by
  obtain ⟨hinv, hundeferred, hrest⟩ := lfwReclaimInit_inv hinit
  have halong : ∀ evs', Along (lfwReclaimStep e) (fun s ev => ¬ LfwDefers e s ev) s₀ evs' →
      Always (lfwReclaimStep e) LfwReclaimed s₀ evs' := by
    intro evs' hev
    have hgood : ∀ s, LfwReclaimInv s ∧ LfwUndeferred s → LfwReclaimed s :=
      fun s h => h.1.reclaimed h.2
    have hkeep : ∀ s ev s', LfwReclaimInv s ∧ LfwUndeferred s → ¬ LfwDefers e s ev →
        lfwReclaimStep e s ev = .ok s' → LfwReclaimInv s' ∧ LfwUndeferred s' :=
      fun s ev s' h hnot hstep => ⟨h.1.step hstep, h.2.step h.1 hnot hstep⟩
    exact always_of_along hgood hkeep ⟨hinv, hundeferred⟩ hev
  refine ⟨halong evs, fun hserved => ⟨fun hall ev hev hdefers => ?_, fun hnot evs' heq => ?_⟩⟩
  · -- the updates by themselves, then the teardown
    have hmem : ev ∈ evs.filter LfwReclaimEvent.IsUpdate :=
      List.mem_filter.2 ⟨hev, hdefers.isUpdate⟩
    obtain ⟨evs', s', hfilter, hrun, h', -, hleft⟩ :=
      hrest.takes (fun x hx => (List.mem_filter.1 hx).2)
        fun x hx => hserved x (List.mem_filter.1 hx).1
    obtain ⟨s₁, hrun₁, hbad⟩ := h'.teardown (e := e) (hleft ⟨ev, hmem, hdefers⟩)
    refine hbad (hall (evs' ++ lfwTeardown) ?_ _ [] s₁ (List.append_nil _).symm ?_)
    · rw [List.filter_append, hfilter]
      exact List.append_nil _
    · rw [run_append, hrun, ok_bind, hrun₁]
  · -- an update of the other timing is one of this
    have hall : ∀ ev ∈ evs', ¬ ev.Defers e := by
      intro ev hev hdefers
      have hmem : ev ∈ evs'.filter LfwReclaimEvent.IsUpdate :=
        List.mem_filter.2 ⟨hev, hdefers.isUpdate⟩
      rw [heq] at hmem
      exact hnot ev (List.mem_filter.1 hmem).1 hdefers
    exact halong evs' (along_not_lfwDefers hall)

/-- Both components after their initialisation. -/
def lfwFirstReclaim : LfwReclaim :=
  ⟨⟨hcfFirstState.mem, hcfFirstState.tree, [], [], [], [], 0, [], [], []⟩, lfwFirstState, [],
    .running⟩

theorem lfwReclaimInit_first :
    lfwReclaimInit Supply.next.toAllocator = .ok lfwFirstReclaim := rfl

/-- A history message of two entries, and a request that announces nothing. -/
def lfwSampleUpdates : List LfwReclaimEvent :=
  [.historyStart Supply.next.toAllocator [⟨0x0A000001#32, 60, 4⟩, ⟨0x0A000101#32, 120, 8⟩],
    .historyEntry Supply.next.toAllocator 0, .bogonSet Supply.next.toAllocator (lfwSampleRequest 0),
    .historyEntry Supply.next.toAllocator 0, .historySwap 0, .syncDone 0]

/-- These leave nothing to callbacks, and a single work does. -/
theorem lfwReclaim_sample :
    Always (lfwReclaimStep .little) LfwReclaimed lfwFirstReclaim (lfwSampleUpdates ++ lfwTeardown) ∧
    ¬ ∀ evs, evs.filter LfwReclaimEvent.IsUpdate =
        [.register Supply.next.toAllocator ⟨0x0A000001#32, 60⟩] →
      Always (lfwReclaimStep .little) LfwReclaimed lfwFirstReclaim evs := by
  have hnum : lfwNumPrefix .little (lfwSampleRequest 0#8) = 0 := by decide +kernel
  refine ⟨(lfwReclaim_iff .little lfwReclaimInit_first _).1 (along_not_lfwDefers ?_),
    fun hall => ?_⟩
  · simp [lfwSampleUpdates, lfwTeardown, LfwReclaimEvent.Defers, hnum]
  · have hiff := (lfwReclaim_iff .little lfwReclaimInit_first
      [.register Supply.next.toAllocator ⟨0x0A000001#32, 60⟩]).2
      (by simp [LfwReclaimEvent.Served, Allocator.Total, Supply.next.total])
    exact hiff.1 hall _ (List.mem_singleton_self _) trivial

/-- A list is loaded, and then the module is unloaded: the callback that frees the list comes
after its cache is gone. -/
theorem lfwReclaim_left : ¬ ∀ (e : Endian) (A₀ : Allocator) (s₀ : LfwReclaim)
    (evs : List LfwReclaimEvent), lfwReclaimInit A₀ = .ok s₀ →
    Always (lfwReclaimStep e) LfwReclaimed s₀ evs := by
  intro h
  have hall := h .little Supply.next.toAllocator _
    (.bogonSet Supply.next.toAllocator (lfwSampleRequest 1) :: lfwTeardown) lfwReclaimInit_first
  have hend : (run (lfwReclaimStep .little) lfwFirstReclaim
      (.bogonSet Supply.next.toAllocator (lfwSampleRequest 1) :: lfwTeardown)).toOption.any
      (fun s => s.pc.bgDestroyed ∧ s.bg.nodes.allocated ≠ 0) = true := by decide +kernel
  cases hrun : run (lfwReclaimStep .little) lfwFirstReclaim
      (.bogonSet Supply.next.toAllocator (lfwSampleRequest 1) :: lfwTeardown) with
  | error err =>
    rw [hrun] at hend
    cases hend
  | ok s =>
    rw [hrun] at hend
    obtain ⟨hdestroyed, hnodes⟩ := of_decide_eq_true hend
    exact hnodes ((hall _ [] s (List.append_nil _).symm hrun).bogon hdestroyed).2

end Librefw
