import Librefw.Hcf.Model.Concurrent
import Librefw.Hcf.State

/-!
# Functions that nobody interrupts

The functions of the component as they run to their end, against the steps
they are cut into. A register work is the run of its critical section, its
announcement and its loop of `call_rcu`; a history message is the run of
its entries, its swap and what follows the grace period. Taken without any
other step in between, the steps lead where the function leads
(`hcfRegisterIpWork_run`, `hcfRegisterIpHistory_run`).
-/

namespace Librefw

open PtrTrie

variable {s : HcfSys} {s₀ s₁ : HcfState} {A : Supply} {task : HcfAddNodeTask} {m m' : Mem HcfNode}
variable {nodes : List Addr} {p : Ptr} {t : PtrTrie HcfMeta} {announced : Option HcfIpCtx}

/-- The component between its functions: the store, the tree, and what waits. -/
def HcfSys.state (s : HcfSys) : HcfState := ⟨s.mem, s.tree, s.rcu.map HcfCallback.node⟩

/-- What is queued now. -/
def HcfSys.stamped (s : HcfSys) (nodes : List Addr) : List HcfCallback :=
  nodes.map fun node => ⟨node, s.clock⟩

@[simp] theorem HcfSys.map_node_stamped : (s.stamped nodes).map HcfCallback.node = nodes := by
  rw [HcfSys.stamped, List.map_map]
  exact List.map_id nodes

/-- What was logged of a work's announcement. -/
def hcfLoggedOf (task : HcfAddNodeTask) (announced : Option HcfIpCtx) : List HcfLogged :=
  announced.toList.map fun ctx => ⟨task, .ok (some ctx)⟩

/-- The component starts between its functions. -/
theorem hcfSysInit_state {A : Allocator} (hinit : hcfSysInit A = .ok s) :
    hcfInitState A = .ok s.state := by
  obtain ⟨s₀, hstate, hpure⟩ := bind_eq_ok.1 hinit
  obtain rfl := Except.ok.inj hpure
  rw [hstate]
  unfold hcfInitState at hstate
  split at hstate
  · cases hstate
  · obtain rfl := Except.ok.inj hstate
    rfl

/-! ## A register work -/

/-- The loop of the last work, node by node. -/
theorem hcfCallRcu_run {pub : HcfPublished} {l : List HcfWork} (rcu : List HcfCallback) :
    run hcfSysStep { s with works := l ++ [⟨task, pub, true, nodes⟩], rcu := rcu }
      (List.replicate (nodes.length + 1) (.callRcu l.length)) =
      .ok { s with works := l, rcu := rcu ++ s.stamped nodes } := by
  induction nodes generalizing rcu with
  | nil =>
    rw [List.length_nil, Nat.zero_add, List.replicate_one, run_singleton]
    simp [hcfSysStep, hcfCallRcu, HcfSys.stamped, List.eraseIdx_append_of_length_le]
  | cons node rest ih =>
    have hget : (l ++ [(⟨task, pub, true, node :: rest⟩ : HcfWork)])[l.length]? =
        some ⟨task, pub, true, node :: rest⟩ := by simp
    have hset : (l ++ [(⟨task, pub, true, node :: rest⟩ : HcfWork)]).set l.length
        ⟨task, pub, true, rest⟩ = l ++ [⟨task, pub, true, rest⟩] := by simp
    rw [List.length_cons, List.replicate_succ, run_cons]
    simp only [hcfSysStep, hcfCallRcu, hget, hset, if_true, pure_eq_ok, ok_bind]
    have hrest := ih (rcu ++ [(⟨node, s.clock⟩ : HcfCallback)])
    rw [List.append_assoc] at hrest
    exact hrest

/-- The last work reads its leaf and announces it. -/
theorem hcfAnnounce_last {pub : HcfPublished} {l : List HcfWork}
    (hlog : hcfLogNewIp s.mem task pub = .ok announced)
    (hworks : s.works = l ++ [⟨task, pub, false, nodes⟩]) :
    hcfAnnounce l.length s = { s with
      works := l ++ [⟨task, pub, true, nodes⟩]
      log := s.log ++ hcfLoggedOf task announced } := by
  have hget : s.works[l.length]? = some ⟨task, pub, false, nodes⟩ := by simp [hworks]
  have hset : s.works.set l.length ⟨task, pub, true, nodes⟩ =
      l ++ [⟨task, pub, true, nodes⟩] := by simp [hworks]
  have hlogged : (if 0 < pub.nodes_created then s.log ++ [⟨task, hcfLogNewIp s.mem task pub⟩]
      else s.log) = s.log ++ hcfLoggedOf task announced := by
    rw [hlog]
    unfold hcfLogNewIp at hlog
    split at hlog
    · next hpos =>
      obtain ⟨n, -, hlog⟩ := bind_eq_ok.1 hlog
      obtain ⟨-, -, hlog⟩ := bind_eq_ok.1 hlog
      rw [if_pos hpos, ← Except.ok.inj hlog]
      rfl
    · next hzero =>
      rw [if_neg hzero, ← Except.ok.inj hlog]
      exact (List.append_nil _).symm
  simp only [hcfAnnounce, hget, hset, Bool.false_eq_true, if_false, hlogged]

/-- The steps of a work, the `i`-th that is under way, which replaces `n` nodes. -/
def hcfRegisterEvents (A : Supply) (task : HcfAddNodeTask) (i n : ℕ) : List HcfEvent :=
  .register A task :: .announce i :: List.replicate (n + 1) (.callRcu i)

/-- **`hcf_register_ip_work` is a run** of its steps. -/
theorem hcfRegisterIpWork_run (hrun : hcfRegisterIpWork A.toAllocator task s.state =
      .ok (announced, s₁)) :
    ∃ nodes, s₁.rcu = s.state.rcu ++ nodes ∧
      run hcfSysStep s (hcfRegisterEvents A task s.works.length nodes.length) =
        .ok { s with
          mem := s₁.mem
          tree := s₁.tree
          rcu := s.rcu ++ s.stamped nodes
          log := s.log ++ hcfLoggedOf task announced } := by
  obtain ⟨⟨pub, m⟩, hlocked, hrun⟩ := bind_eq_ok.1 hrun
  have hlocked' : hcfRegisterIpLocked A.toAllocator task s.tree s.mem = .ok (pub, m) := hlocked
  cases pub with
  | none =>
    -- without a tree the work ends at once
    obtain ⟨rfl, rfl⟩ := Prod.mk.inj (Except.ok.inj hrun)
    refine ⟨[], (List.append_nil _).symm, ?_⟩
    simp [hcfRegisterEvents, run, hcfSysStep, hcfRegister, hlocked', hcfAnnounce, hcfCallRcu, hcfLoggedOf,
      HcfSys.stamped, HcfSys.state]
  | some pub =>
    obtain ⟨announced', hlog, hrun⟩ := bind_eq_ok.1 hrun
    obtain ⟨rfl, rfl⟩ := Prod.mk.inj (Except.ok.inj hrun)
    refine ⟨pub.nodes_to_free, rfl, ?_⟩
    have hlocked_step : hcfSysStep s (.register A task) = .ok { s with
        mem := m
        tree := pub.new_root
        works := s.works ++ [⟨task, pub, false, pub.nodes_to_free⟩] } := by
      simp only [hcfSysStep, hcfRegister, hlocked', ok_bind, pure_eq_ok]
    rw [hcfRegisterEvents, run_cons, hlocked_step, ok_bind, run_cons, hcfSysStep, hcfAnnounce_last hlog rfl,
      pure_eq_ok, ok_bind]
    exact hcfCallRcu_run (s := { s with
      mem := m, tree := pub.new_root, log := s.log ++ hcfLoggedOf task announced' }) s.rcu

/-- What a work hands over is the path of its address, the root first. -/
theorem hcfRegisterIpWork_rcu (h : HcfInv s₀ t)
    (hrun : hcfRegisterIpWork A.toAllocator task s₀ = .ok (announced, s₁)) :
    s₁.rcu = s₀.rcu ++ pathAddrs t (ipPath task.source_ip 24) := by
  obtain ⟨pub, m', t', hlocked, hreg⟩ :=
    hcfRegisterIpLocked_spec A task h.stored h.ne_nil h.nodup
  rw [hcfRegisterIpWork, ← h.root_eq, hlocked, ok_bind] at hrun
  obtain ⟨announced', -, hrun⟩ := bind_eq_ok.1 hrun
  obtain ⟨-, rfl⟩ := Prod.mk.inj (Except.ok.inj hrun)
  rw [← hreg.olds_eq]

/-! ## A history message -/

/-- The loop of the last message, entry by entry. -/
theorem hcfHistoryEntry_run {entries : List HcfHistoryEntry} {l : List HcfBuild}
    (hrun : entries.foldlM (fun m x => hcfInsertEntry A.toAllocator p x m) m = .ok m') :
    run hcfSysStep { s with mem := m, builds := l ++ [⟨p, entries⟩] }
      (List.replicate entries.length (.historyEntry A l.length)) =
      .ok { s with mem := m', builds := l ++ [⟨p, []⟩] } := by
  induction entries generalizing m with
  | nil =>
    obtain rfl := Except.ok.inj hrun
    rfl
  | cons x rest ih =>
    rw [List.foldlM_cons] at hrun
    obtain ⟨m₁, hone, hrun⟩ := bind_eq_ok.1 hrun
    have hget : (l ++ [(⟨p, x :: rest⟩ : HcfBuild)])[l.length]? = some ⟨p, x :: rest⟩ := by simp
    have hset : (l ++ [(⟨p, x :: rest⟩ : HcfBuild)]).set l.length ⟨p, rest⟩ =
        l ++ [⟨p, rest⟩] := by simp
    rw [List.length_cons, List.replicate_succ, run_cons]
    simp only [hcfSysStep, hcfHistoryEntry, hget, hone, hset, ok_bind, pure_eq_ok]
    exact ih hrun

theorem hcfFreeNode_none (m : Mem HcfNode) : hcfFreeNode none m = .ok m := by
  unfold hcfFreeNode
  cases m.objs.keys.card with
  | zero => rfl
  | succ depth => rfl

/-- The steps of a history message, the `i`-th that is under way, its swap the `j`-th that
waits. -/
def hcfHistoryEvents (A : Supply) (entries : List HcfHistoryEntry) (i j : ℕ) : List HcfEvent :=
  .historyStart A entries :: (List.replicate entries.length (.historyEntry A i) ++
    [.historySwap i, .syncDone j])

/-- A root, the entries, and what was published before: the steps install the one and free the
other, where no lookup holds the grace period up. -/
theorem hcfHistoryEvents_run {entries : List HcfHistoryEntry} {a : Addr} {m₁ m₂ m₃ : Mem HcfNode}
    (hreaders : s.readers = []) (hcreate : hcfCreateNode A.toAllocator s.mem = (some a, m₁))
    (hrun : entries.foldlM (fun m x => hcfInsertEntry A.toAllocator (some a) x m) m₁ = .ok m₂)
    (hfree : hcfFreeNode s.tree m₂ = .ok m₃) :
    run hcfSysStep s (hcfHistoryEvents A entries s.builds.length s.syncs.length) =
      .ok { s with mem := m₃, tree := some a } := by
  have hstart : hcfSysStep s (.historyStart A entries) =
      .ok { s with mem := m₁, builds := s.builds ++ [⟨some a, entries⟩] } := by
    simp only [hcfSysStep, hcfHistoryStart, hcreate, pure_eq_ok]
  have hget : (s.builds ++ [(⟨some a, []⟩ : HcfBuild)])[s.builds.length]? =
      some ⟨some a, []⟩ := by simp
  have hleave : (s.builds ++ [(⟨some a, []⟩ : HcfBuild)]).eraseIdx s.builds.length =
      s.builds := by simp [List.eraseIdx_append_of_length_le]
  rw [hcfHistoryEvents, run_cons, hstart, ok_bind, run_append, hcfHistoryEntry_run hrun, ok_bind,
    run_cons]
  simp only [hcfSysStep, hcfHistorySwap, hget, hleave, pure_eq_ok, ok_bind, run_singleton]
  cases htree : s.tree with
  | none =>
    -- nothing was published, so nothing is waited for
    rw [htree, hcfFreeNode_none] at hfree
    obtain rfl := Except.ok.inj hfree
    simp [hcfSwap, hcfSyncDone]
  | some old_root =>
    rw [htree] at hfree
    simp [hcfSwap, hcfSyncDone, HcfSys.graceOver, hreaders, hfree,
      List.eraseIdx_append_of_length_le]

/-- **`hcf_register_ip_history` is a run** of its steps. -/
theorem hcfRegisterIpHistory_run {e : Endian} {info : GenlInfo} {ret : ℤ}
    (hreaders : s.readers = [])
    (hrun : hcfRegisterIpHistory e A.toAllocator info s.state = .ok (ret, s₁)) :
    run hcfSysStep s
      (hcfHistoryEvents A (hcfHistoryEntries e info) s.builds.length s.syncs.length) =
      .ok { s with mem := s₁.mem, tree := s₁.tree } := by
  obtain ⟨a, m₁, hcreate, -⟩ := hcfCreateNode_supply A s.mem
  have hcreate' : hcfCreateNode A.toAllocator s.state.mem = (some a, m₁) := hcreate
  simp only [hcfRegisterIpHistory, hcreate'] at hrun
  obtain ⟨m₂, hentries, hrun⟩ := bind_eq_ok.1 hrun
  obtain ⟨s₂, hswap, hrun⟩ := bind_eq_ok.1 hrun
  obtain ⟨m₃, hfree, hswap⟩ := bind_eq_ok.1 hswap
  obtain ⟨-, rfl⟩ := Prod.mk.inj (Except.ok.inj hrun)
  obtain rfl := Except.ok.inj hswap
  exact hcfHistoryEvents_run hreaders hcreate hentries hfree

end Librefw
