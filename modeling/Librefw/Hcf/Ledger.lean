import Librefw.Hcf.Model.Concurrent
import Librefw.Hcf.State
import Librefw.Common.Footprint

/-!
# The ledger of nodes

Who holds which node while works, histories, grace periods and lookups
interleave: the published tree, the trees under construction, the trees
replaced and not yet freed, the nodes works have yet to hand to
`call_rcu`, and the callbacks that wait. `HcfLedger` says that these five
accounts make up exactly what is allocated, each node once.

`hcfSysStep_cases` says once what an event can do (`HcfStepCase`), with
the laws of the tree functions filled in; the ledger, and what later
modules prove, is a case analysis on it.
-/

namespace Librefw

open PtrTrie

variable {s s' : HcfSys} {m' : Mem HcfNode} {a : Addr}

namespace HcfSys

/-- The nodes of the published tree. -/
noncomputable def live (s : HcfSys) : Multiset Addr := footprint s.mem s.tree

/-- The nodes of trees under construction. -/
noncomputable def building (s : HcfSys) : Multiset Addr :=
  held (fun b : HcfBuild => footprint s.mem b.new_tree) s.builds

/-- The nodes of replaced trees. -/
noncomputable def replaced (s : HcfSys) : Multiset Addr :=
  held (fun o : HcfSync => footprint s.mem o.old_root) s.syncs

/-- The nodes works have yet to hand to `call_rcu`. -/
def retained (s : HcfSys) : Multiset Addr :=
  held (fun w : HcfWork => (w.nodes_to_free : Multiset Addr)) s.works

/-- The nodes whose callback waits. -/
def queued (s : HcfSys) : Multiset Addr := held (fun c : HcfCallback => {c.node}) s.rcu

end HcfSys

/-- The store `m'` has the published tree, and the trees of the lists, as the
component had them. -/
structure HcfKept (s : HcfSys) (m' : Mem HcfNode) (bs : List HcfBuild) (os : List HcfSync) :
    Prop where
  live : IsTrie m' s.tree ∧ footprint m' s.tree = s.live
  builds : ∀ b ∈ bs, IsTrie m' b.new_tree ∧
    footprint m' b.new_tree = footprint s.mem b.new_tree
  syncs : ∀ o ∈ os, IsTrie m' o.old_root ∧
    footprint m' o.old_root = footprint s.mem o.old_root

/-- **The ledger.** Every root is one of a stored trie, and the five accounts
are what is allocated. -/
structure HcfLedger (s : HcfSys) : Prop where
  live : IsTrie s.mem s.tree
  builds : ∀ b ∈ s.builds, IsTrie s.mem b.new_tree
  builds_ne : ∀ b ∈ s.builds, b.new_tree ≠ none
  syncs : ∀ o ∈ s.syncs, IsTrie s.mem o.old_root
  account : s.mem.allocated = s.live + s.building + s.replaced + s.retained + s.queued
  slots : ∀ w ∈ s.works, w.nodes_to_free.length ≤ 33

namespace HcfLedger

/-- No node is held twice. -/
theorem count_le_one (h : HcfLedger s) (a : Addr) :
    s.live.count a + s.building.count a + s.replaced.count a + s.retained.count a +
      s.queued.count a ≤ 1 := by
  have hone := Multiset.nodup_iff_count_le_one.1 s.mem.nodup_allocated a
  rw [h.account] at hone
  simpa only [Multiset.count_add] using hone

theorem mem_iff (h : HcfLedger s) : a ∈ s.mem ↔
    a ∈ s.live ∨ a ∈ s.building ∨ a ∈ s.replaced ∨ a ∈ s.retained ∨ a ∈ s.queued := by
  rw [← Mem.mem_allocated, h.account]
  simp only [Multiset.mem_add, or_assoc]

theorem nodup_live (h : HcfLedger s) : s.live.Nodup :=
  Multiset.nodup_iff_count_le_one.2 fun a => by have := h.count_le_one a; omega

/-- A published tree, with its trie. -/
theorem exists_live (h : HcfLedger s) :
    ∃ t, root t = s.tree ∧ Stored s.mem t ∧ s.live = addrs t ∧ (addrs t).Nodup := by
  obtain ⟨t, hroot, hs⟩ := h.live
  have heq : s.live = addrs t := hs.footprint_eq hroot
  exact ⟨t, hroot, hs, heq, heq ▸ h.nodup_live⟩

theorem nodup_building (h : HcfLedger s) : s.building.Nodup :=
  Multiset.nodup_iff_count_le_one.2 fun a => by have := h.count_le_one a; omega

theorem exists_build (h : HcfLedger s) {i : ℕ} {b : HcfBuild} (hb : s.builds[i]? = some b) :
    ∃ t, root t = b.new_tree ∧ Stored s.mem t ∧ t ≠ .nil ∧ (addrs t).Nodup := by
  have hmem : b ∈ s.builds := List.mem_of_getElem? hb
  obtain ⟨t, hroot, hs⟩ := h.builds b hmem
  have hle := le_held (f := fun b : HcfBuild => footprint s.mem b.new_tree) hmem
  refine ⟨t, hroot, hs, fun hnil => h.builds_ne b hmem ?_, ?_⟩
  · rw [← hroot, hnil, root_nil]
  · rw [← hs.footprint_eq hroot]
    exact Multiset.nodup_of_le hle h.nodup_building

theorem nodup_replaced (h : HcfLedger s) : s.replaced.Nodup :=
  Multiset.nodup_iff_count_le_one.2 fun a => by have := h.count_le_one a; omega

end HcfLedger

/-! ## What an event does -/

/-- An event of a lookup. -/
def HcfEvent.IsLookup : HcfEvent → Prop
  | .readerEnter _ _ => True
  | .readerStep _ => True
  | _ => False

/-- The nodes an event frees: that of a callback whose grace period is over, and
those of a replaced tree. -/
def HcfSys.Frees (s : HcfSys) (ev : HcfEvent) (a : Addr) : Prop :=
  match ev with
  | .callback i => ∃ c, s.rcu[i]? = some c ∧ s.graceOver c.stamp ∧ c.node = a
  | .syncDone i => ∃ o, s.syncs[i]? = some o ∧ s.graceOver o.stamp ∧ Reach s.mem o.old_root a
  | _ => False

/-- What an event does to the state, the laws of the tree functions filled in. -/
inductive HcfStepCase (s : HcfSys) : HcfEvent → HcfSys → Prop where
  | idle (ev : HcfEvent) (hidle : ∀ a, ¬ s.Frees ev a) : HcfStepCase s ev s
  | register {A : Supply} {task : HcfAddNodeTask} {pub : HcfPublished} {m' : Mem HcfNode}
      {t t' : PtrTrie HcfMeta} (hroot : root t = s.tree) (hs : Stored s.mem t)
      (hreg : HcfRegistered task s.mem t pub.new_root pub.new_runner pub.nodes_created
        pub.nodes_to_free m' t') :
      HcfStepCase s (.register A task)
        { s with
          mem := m'
          tree := pub.new_root
          works := s.works ++ [⟨task, pub, false, pub.nodes_to_free⟩] }
  | announce {i : ℕ} {w : HcfWork} (hw : s.works[i]? = some w) (hlog : w.logged = false) :
      HcfStepCase s (.announce i)
        { s with
          works := s.works.set i { w with logged := true }
          log := if 0 < w.pub.nodes_created
            then s.log ++ [⟨w.task, hcfLogNewIp s.mem w.task w.pub⟩] else s.log }
  | retire {i : ℕ} {w : HcfWork} {node : Addr} {rest : List Addr} (hw : s.works[i]? = some w)
      (hlog : w.logged = true) (hnodes : w.nodes_to_free = node :: rest) :
      HcfStepCase s (.callRcu i)
        { s with
          works := s.works.set i { w with nodes_to_free := rest }
          rcu := s.rcu ++ [⟨node, s.clock⟩] }
  | finish {i : ℕ} {w : HcfWork} (hw : s.works[i]? = some w) (hlog : w.logged = true)
      (hnodes : w.nodes_to_free = []) :
      HcfStepCase s (.callRcu i) { s with works := s.works.eraseIdx i }
  | callback {i : ℕ} {c : HcfCallback} (hc : s.rcu[i]? = some c) (hgrace : s.graceOver c.stamp) :
      HcfStepCase s (.callback i)
        { s with mem := s.mem.erase c.node, rcu := s.rcu.eraseIdx i }
  | historyStart {A : Supply} {entries : List HcfHistoryEntry} {c : Addr} {m' : Mem HcfNode}
      (hext : s.mem.Extends c (Cell.zero HcfMeta.zero) m') :
      HcfStepCase s (.historyStart A entries)
        { s with mem := m', builds := s.builds ++ [⟨some c, entries⟩] }
  | historyEntry {A : Supply} {i : ℕ} {b : HcfBuild} {x : HcfHistoryEntry}
      {rest : List HcfHistoryEntry} {t t' : PtrTrie HcfMeta} {m' : Mem HcfNode}
      (hb : s.builds[i]? = some b) (hx : b.entries = x :: rest) (hroot : root t = b.new_tree)
      (hs : Stored s.mem t) (hg : Grows s.mem t m' t') :
      HcfStepCase s (.historyEntry A i)
        { s with mem := m', builds := s.builds.set i { b with entries := rest } }
  | historySwap {i : ℕ} {b : HcfBuild} (hb : s.builds[i]? = some b) (hx : b.entries = []) :
      HcfStepCase s (.historySwap i) (hcfSwap b.new_tree { s with builds := s.builds.eraseIdx i })
  | swapNull : HcfStepCase s .swapNull (hcfSwap none s)
  | syncDone {i : ℕ} {o : HcfSync} {m' : Mem HcfNode} (ho : s.syncs[i]? = some o)
      (hgrace : s.graceOver o.stamp)
      (hacc : footprint s.mem o.old_root + m'.allocated = s.mem.allocated)
      (hkeep : ∀ c, c ∉ footprint s.mem o.old_root → m'.lookup c = s.mem.lookup c) :
      HcfStepCase s (.syncDone i) { s with mem := m', syncs := s.syncs.eraseIdx i }
  | reader (ev : HcfEvent) (hev : ev.IsLookup) (readers : List HcfReader) (clock : ℕ)
      (answers : List HcfAnswered) :
      HcfStepCase s ev { s with readers := readers, clock := clock, answers := answers }

/-- A register work: nothing without a tree, else a path copy. -/
theorem hcfRegister_cases (h : HcfLedger s) (A : Supply) (task : HcfAddNodeTask) :
    ∃ s', hcfRegister A.toAllocator task s = .ok s' ∧ HcfStepCase s (.register A task) s' := by
  obtain ⟨t, hroot, hs, hlive, hnd⟩ := h.exists_live
  unfold hcfRegister
  by_cases hnil : t = .nil
  · have hnone : s.tree = none := by rw [← hroot, hnil, root_nil]
    refine ⟨s, ?_, .idle _ fun _ h => h⟩
    rw [hnone]
    simp only [hcfRegisterIpLocked, pure_eq_ok, ok_bind]
    rw [← hnone]
  · obtain ⟨pub, m', t', hrun, hreg⟩ := hcfRegisterIpLocked_spec A task hs hnil hnd
    refine ⟨_, ?_, .register hroot hs hreg⟩
    rw [← hroot, hrun]
    rfl

theorem hcfAnnounce_cases (i : ℕ) (s : HcfSys) : HcfStepCase s (.announce i) (hcfAnnounce i s) := by
  unfold hcfAnnounce
  cases hw : s.works[i]? with
  | none => exact .idle _ fun _ h => h
  | some w =>
    by_cases hlog : w.logged
    · simp only [hlog, if_true]
      exact .idle _ fun _ h => h
    · simp only [hlog]
      exact .announce hw (by simpa using hlog)

theorem hcfCallRcu_cases (i : ℕ) (s : HcfSys) : HcfStepCase s (.callRcu i) (hcfCallRcu i s) := by
  unfold hcfCallRcu
  cases hw : s.works[i]? with
  | none => exact .idle _ fun _ h => h
  | some w =>
    by_cases hlog : w.logged
    · simp only [hlog, if_true]
      cases hnodes : w.nodes_to_free with
      | nil => exact .finish hw hlog hnodes
      | cons node rest => simpa only [hlog] using HcfStepCase.retire hw hlog hnodes
    · simp only [hlog]
      exact .idle _ fun _ h => h

/-- A callback frees a node that is there. -/
theorem hcfCallback_cases (h : HcfLedger s) (i : ℕ) :
    ∃ s', hcfCallback i s = .ok s' ∧ HcfStepCase s (.callback i) s' := by
  unfold hcfCallback
  cases hc : s.rcu[i]? with
  | none => exact ⟨s, rfl, .idle _ fun a ⟨c', hc', _⟩ => nomatch hc.symm.trans hc'⟩
  | some c =>
    by_cases hgrace : s.graceOver c.stamp
    · have hmem : c.node ∈ s.mem := by
        refine h.mem_iff.2 (Or.inr (Or.inr (Or.inr (Or.inr ?_))))
        exact mem_held.2 ⟨c, List.mem_of_getElem? hc, Multiset.mem_singleton_self _⟩
      refine ⟨_, ?_, .callback hc hgrace⟩
      simp only [hgrace, if_true, Mem.free_of_mem hmem, ok_bind, pure_eq_ok]
    · refine ⟨s, ?_, .idle _ fun a ⟨c', hc', hgrace', _⟩ => ?_⟩
      · simp only [hgrace, if_false, pure_eq_ok]
      · obtain rfl := Option.some.inj (hc'.symm.trans hc)
        exact hgrace hgrace'

theorem hcfHistoryStart_cases (A : Supply) (entries : List HcfHistoryEntry) (s : HcfSys) :
    HcfStepCase s (.historyStart A entries) (hcfHistoryStart A.toAllocator entries s) := by
  obtain ⟨c, m', hcreate, hext⟩ := hcfCreateNode_supply A s.mem
  unfold hcfHistoryStart
  rw [hcreate]
  exact .historyStart hext

/-- An entry of a history goes into a tree only the message holds. -/
theorem hcfHistoryEntry_cases (h : HcfLedger s) (A : Supply) (i : ℕ) :
    ∃ s', hcfHistoryEntry A.toAllocator i s = .ok s' ∧
      HcfStepCase s (.historyEntry A i) s' := by
  unfold hcfHistoryEntry
  cases hb : s.builds[i]? with
  | none => exact ⟨s, rfl, .idle _ fun _ h => h⟩
  | some b =>
    cases hx : b.entries with
    | nil => exact ⟨s, by simp only [hx, pure_eq_ok], .idle _ fun _ h => h⟩
    | cons x rest =>
      obtain ⟨t, hroot, hs, hne, hnd⟩ := h.exists_build hb
      obtain ⟨m', t', hrun, hg, -⟩ := hcfInsertEntry_spec A x hs hne hnd
      rw [hroot] at hrun
      refine ⟨_, ?_, .historyEntry hb hx hroot hs hg⟩
      simp only [hx, hrun, ok_bind, pure_eq_ok]

theorem hcfHistorySwap_cases (i : ℕ) (s : HcfSys) :
    HcfStepCase s (.historySwap i) (hcfHistorySwap i s) := by
  unfold hcfHistorySwap
  cases hb : s.builds[i]? with
  | none => exact .idle _ fun _ h => h
  | some b =>
    cases hx : b.entries with
    | nil => simpa only [hx] using HcfStepCase.historySwap hb hx
    | cons x rest => simpa only [hx] using HcfStepCase.idle (.historySwap i) fun _ h => h

/-- A replaced tree is freed as a whole. -/
theorem hcfSyncDone_cases (h : HcfLedger s) (i : ℕ) :
    ∃ s', hcfSyncDone i s = .ok s' ∧ HcfStepCase s (.syncDone i) s' := by
  unfold hcfSyncDone
  cases ho : s.syncs[i]? with
  | none => exact ⟨s, rfl, .idle _ fun a ⟨o', ho', _⟩ => nomatch ho.symm.trans ho'⟩
  | some o =>
    by_cases hgrace : s.graceOver o.stamp
    · have hmem : o ∈ s.syncs := List.mem_of_getElem? ho
      obtain ⟨t, hroot, hs⟩ := h.syncs o hmem
      have hfoot : footprint s.mem o.old_root = addrs t := hs.footprint_eq hroot
      have hnd : (footprint s.mem o.old_root).Nodup :=
        Multiset.nodup_of_le (le_held (f := fun o : HcfSync => footprint s.mem o.old_root) hmem)
          h.nodup_replaced
      obtain ⟨m', hrun, hacc, hkeep⟩ := hcfFreeNode_spec hs (hfoot ▸ hnd)
      rw [hroot] at hrun
      refine ⟨_, ?_, .syncDone ho hgrace (hfoot ▸ hacc) (hfoot ▸ hkeep)⟩
      simp only [hgrace, if_true, hrun, ok_bind, pure_eq_ok]
    · refine ⟨s, ?_, .idle _ fun a ⟨o', ho', hgrace', _⟩ => ?_⟩
      · simp only [hgrace, if_false, pure_eq_ok]
      · obtain rfl := Option.some.inj (ho'.symm.trans ho)
        exact hgrace hgrace'

/-- A lookup that goes on changes nothing but lookups. -/
theorem hcfReaderStep_cases {i : ℕ} (hrun : hcfReaderStep i s = .ok s') :
    HcfStepCase s (.readerStep i) s' := by
  unfold hcfReaderStep at hrun
  cases hr : s.readers[i]? with
  | none =>
    simp only [hr, pure_eq_ok, Except.ok.injEq] at hrun
    exact hrun ▸ .idle (.readerStep i) fun _ h => h
  | some r =>
    simp only [hr] at hrun
    split at hrun
    · simp only [pure_eq_ok, Except.ok.injEq] at hrun
      exact hrun ▸ .reader (.readerStep i) trivial _ _ _
    · obtain ⟨pc, -, hrun⟩ := bind_eq_ok.1 hrun
      simp only [pure_eq_ok, Except.ok.injEq] at hrun
      exact hrun ▸ .reader (.readerStep i) trivial _ _ _

/-- **What an event does**, where a lookup that is to go on can. -/
theorem hcfSysStep_cases (h : HcfLedger s) (ev : HcfEvent)
    (hread : ∀ i, ev = .readerStep i → ∃ s', hcfReaderStep i s = .ok s') :
    ∃ s', hcfSysStep s ev = .ok s' ∧ HcfStepCase s ev s' := by
  cases ev with
  | register A task => exact hcfRegister_cases h A task
  | announce i => exact ⟨_, rfl, hcfAnnounce_cases i s⟩
  | callRcu i => exact ⟨_, rfl, hcfCallRcu_cases i s⟩
  | callback i => exact hcfCallback_cases h i
  | historyStart A entries => exact ⟨_, rfl, hcfHistoryStart_cases A entries s⟩
  | historyEntry A i => exact hcfHistoryEntry_cases h A i
  | historySwap i => exact ⟨_, rfl, hcfHistorySwap_cases i s⟩
  | swapNull => exact ⟨_, rfl, .swapNull⟩
  | syncDone i => exact hcfSyncDone_cases h i
  | readerEnter source_ip ttl =>
    exact ⟨_, rfl, .reader (.readerEnter source_ip ttl) trivial _ _ s.answers⟩
  | readerStep i =>
    obtain ⟨s', hrun⟩ := hread i rfl
    exact ⟨s', hrun, hcfReaderStep_cases hrun⟩

/-! ## What an event leaves alone -/

namespace HcfLedger

/-- An address in an account is allocated. -/
theorem mem_of_live (h : HcfLedger s) (ha : a ∈ s.live) : a ∈ s.mem := h.mem_iff.2 (Or.inl ha)

theorem mem_of_building (h : HcfLedger s) (ha : a ∈ s.building) : a ∈ s.mem :=
  h.mem_iff.2 (Or.inr (Or.inl ha))

theorem mem_of_replaced (h : HcfLedger s) (ha : a ∈ s.replaced) : a ∈ s.mem :=
  h.mem_iff.2 (Or.inr (Or.inr (Or.inl ha)))

theorem mem_building {b : HcfBuild} (hb : b ∈ s.builds) (ha : a ∈ footprint s.mem b.new_tree) :
    a ∈ s.building := mem_held.2 ⟨b, hb, ha⟩

theorem mem_replaced {o : HcfSync} (ho : o ∈ s.syncs) (ha : a ∈ footprint s.mem o.old_root) :
    a ∈ s.replaced := mem_held.2 ⟨o, ho, ha⟩

theorem mem_queued {c : HcfCallback} (hc : c ∈ s.rcu) : c.node ∈ s.queued :=
  mem_held.2 ⟨c, hc, Multiset.mem_singleton_self _⟩

/-- **The frame of an event.** Where it writes or frees no more than `F`, the
trees without a node of `F` are as they were. -/
theorem kept (h : HcfLedger s) {F : Multiset Addr}
    (hkeep : ∀ c ∈ s.mem, c ∉ F → m'.lookup c = s.mem.lookup c) (hlive : ∀ c ∈ s.live, c ∉ F)
    {bs : List HcfBuild} {os : List HcfSync}
    (hbs : ∀ b ∈ bs, b ∈ s.builds ∧ ∀ c ∈ footprint s.mem b.new_tree, c ∉ F)
    (hos : ∀ o ∈ os, o ∈ s.syncs ∧ ∀ c ∈ footprint s.mem o.old_root, c ∉ F) :
    HcfKept s m' bs os where
  live := h.live.frame fun c hc => hkeep c (h.mem_of_live hc) (hlive c hc)
  builds b hb := (h.builds b (hbs b hb).1).frame fun c hc =>
    hkeep c (h.mem_of_building (mem_building (hbs b hb).1 hc)) ((hbs b hb).2 c hc)
  syncs o ho := (h.syncs o (hos o ho).1).frame fun c hc =>
    hkeep c (h.mem_of_replaced (mem_replaced (hos o ho).1 hc)) ((hos o ho).2 c hc)

/-- An event that writes and frees no old node. -/
theorem kept_all (h : HcfLedger s) (hkeep : ∀ c ∈ s.mem, m'.lookup c = s.mem.lookup c) :
    HcfKept s m' s.builds s.syncs :=
  h.kept (F := 0) (fun c hc _ => hkeep c hc) (fun _ _ => Multiset.notMem_zero _)
    (fun _ hb => ⟨hb, fun _ _ => Multiset.notMem_zero _⟩)
    (fun _ ho => ⟨ho, fun _ _ => Multiset.notMem_zero _⟩)

/-- An event that writes one tree under construction. -/
theorem kept_insert (h : HcfLedger s) {i : ℕ} {b : HcfBuild} (hb : s.builds[i]? = some b)
    (hkeep : ∀ c ∈ s.mem, c ∉ footprint s.mem b.new_tree → m'.lookup c = s.mem.lookup c) :
    HcfKept s m' (s.builds.eraseIdx i) s.syncs := by
  have hbuild : ∀ c, c ∈ footprint s.mem b.new_tree → 0 < s.building.count c := fun c hc =>
    Multiset.count_pos.2 (mem_building (List.mem_of_getElem? hb) hc)
  refine h.kept hkeep (fun c hc hin => ?_)
    (fun y hy => ⟨List.mem_of_mem_eraseIdx hy, fun c hc => ?_⟩)
    fun o ho => ⟨ho, fun c hc hin => ?_⟩
  · have h1 := Multiset.count_pos.2 hc
    have h2 := hbuild c hin
    have h3 := h.count_le_one c
    omega
  · exact disjoint_of_eraseIdx (f := fun b : HcfBuild => footprint s.mem b.new_tree) hb
      h.nodup_building hy hc
  · have h1 := Multiset.count_pos.2 (mem_replaced ho hc)
    have h2 := hbuild c hin
    have h3 := h.count_le_one c
    omega

/-- An event that frees a node whose callback waits. -/
theorem kept_callback (h : HcfLedger s) {c : HcfCallback} (hc : c ∈ s.rcu) :
    HcfKept s (s.mem.erase c.node) s.builds s.syncs := by
  have hq := Multiset.count_pos.2 (mem_queued hc)
  have hone := h.count_le_one c.node
  have hout : ∀ d, 0 < s.live.count d + s.building.count d + s.replaced.count d →
      d ∉ ({c.node} : Multiset Addr) := by
    intro d hd hin
    obtain rfl := Multiset.mem_singleton.1 hin
    omega
  refine h.kept (F := {c.node})
    (fun d _ hd => Mem.lookup_erase_ne (mt Multiset.mem_singleton.2 hd))
    (fun d hd => hout d ?_) (fun b hb => ⟨hb, fun d hd => hout d ?_⟩)
    fun o ho => ⟨ho, fun d hd => hout d ?_⟩
  · have := Multiset.count_pos.2 hd
    omega
  · have := Multiset.count_pos.2 (mem_building hb hd)
    omega
  · have := Multiset.count_pos.2 (mem_replaced ho hd)
    omega

/-- An event that frees a replaced tree. -/
theorem kept_sync (h : HcfLedger s) {i : ℕ} {o : HcfSync} (ho : s.syncs[i]? = some o)
    (hkeep : ∀ c, c ∉ footprint s.mem o.old_root → m'.lookup c = s.mem.lookup c) :
    HcfKept s m' s.builds (s.syncs.eraseIdx i) := by
  have hrep : ∀ c, c ∈ footprint s.mem o.old_root → 0 < s.replaced.count c := fun c hc =>
    Multiset.count_pos.2 (mem_replaced (List.mem_of_getElem? ho) hc)
  refine h.kept (fun c _ => hkeep c) (fun c hc hin => ?_) (fun b hb => ⟨hb, fun c hc hin => ?_⟩)
    fun y hy => ⟨List.mem_of_mem_eraseIdx hy, fun c hc => ?_⟩
  · have h1 := Multiset.count_pos.2 hc
    have h2 := hrep c hin
    have h3 := h.count_le_one c
    omega
  · have h1 := Multiset.count_pos.2 (mem_building hb hc)
    have h2 := hrep c hin
    have h3 := h.count_le_one c
    omega
  · exact disjoint_of_eraseIdx (f := fun o : HcfSync => footprint s.mem o.old_root) ho
      h.nodup_replaced hy hc

end HcfLedger

/-! ## The ledger is kept -/

namespace HcfLedger

theorem register (h : HcfLedger s) {task : HcfAddNodeTask} {pub : HcfPublished}
    {t t' : PtrTrie HcfMeta} (hroot : root t = s.tree) (hs : Stored s.mem t)
    (hreg : HcfRegistered task s.mem t pub.new_root pub.new_runner pub.nodes_created
      pub.nodes_to_free m' t') :
    HcfLedger { s with
      mem := m'
      tree := pub.new_root
      works := s.works ++ [⟨task, pub, false, pub.nodes_to_free⟩] } := by
  have hk := h.kept_all hreg.lookup_eq
  have hlive : s.live = addrs t := hs.footprint_eq hroot
  have hlive' : footprint m' pub.new_root = addrs t' := hreg.stored.footprint_eq hreg.root_eq
  refine ⟨⟨t', hreg.root_eq, hreg.stored⟩, fun b hb => (hk.builds b hb).1, h.builds_ne,
    fun o ho => (hk.syncs o ho).1, ?_, fun w hw => ?_⟩
  · -- the nodes that were copied go from the published tree to the work
    have hacc := hreg.account
    rw [h.account, hlive] at hacc
    simp only [HcfSys.live, HcfSys.building, HcfSys.replaced, HcfSys.retained, HcfSys.queued]
      at hacc ⊢
    rw [hlive', held_congr fun b hb => (hk.builds b hb).2, held_congr fun o ho => (hk.syncs o ho).2,
      held_append, held_cons, held_nil, add_zero]
    ext d
    have hd := congrArg (Multiset.count d) hacc
    simp only [Multiset.count_add] at hd ⊢
    omega
  · rcases List.mem_append.1 hw with hw | hw
    · exact h.slots w hw
    · obtain rfl := List.mem_singleton.1 hw
      have hlen := hreg.length_le
      rw [length_ipPath] at hlen
      simp only
      omega

theorem announce (h : HcfLedger s) {i : ℕ} {w : HcfWork} (hw : s.works[i]? = some w)
    (log : List HcfLogged) :
    HcfLedger { s with works := s.works.set i { w with logged := true }, log := log } := by
  refine ⟨h.live, h.builds, h.builds_ne, h.syncs, ?_, fun w' hw' => ?_⟩
  · have hret : held (fun w : HcfWork => (w.nodes_to_free : Multiset Addr))
        (s.works.set i { w with logged := true }) = s.retained := by
      rw [held_set hw, HcfSys.retained, held_eraseIdx hw]
    exact h.account.trans (by simp only [HcfSys.retained, hret]; rfl)
  · rcases List.mem_or_eq_of_mem_set hw' with hw' | rfl
    · exact h.slots w' hw'
    · exact h.slots w (List.mem_of_getElem? hw)

theorem retire (h : HcfLedger s) {i : ℕ} {w : HcfWork} {node : Addr} {rest : List Addr}
    (hw : s.works[i]? = some w) (hnodes : w.nodes_to_free = node :: rest) :
    HcfLedger { s with
      works := s.works.set i { w with nodes_to_free := rest }
      rcu := s.rcu ++ [⟨node, s.clock⟩] } := by
  refine ⟨h.live, h.builds, h.builds_ne, h.syncs, ?_, fun w' hw' => ?_⟩
  · -- the node goes from the work to the callbacks
    have hold : s.retained = (node :: rest : List Addr) + held
        (fun w : HcfWork => (w.nodes_to_free : Multiset Addr)) (s.works.eraseIdx i) := by
      rw [HcfSys.retained, held_eraseIdx hw, hnodes]
    have hacc := h.account
    rw [hold] at hacc
    simp only [HcfSys.live, HcfSys.building, HcfSys.replaced, HcfSys.retained, HcfSys.queued]
      at hacc ⊢
    rw [held_set hw, held_append, held_cons, held_nil, add_zero]
    ext d
    have hd := congrArg (Multiset.count d) hacc
    simp only [Multiset.count_add, ← Multiset.cons_coe, Multiset.count_cons,
      Multiset.count_singleton] at hd ⊢
    omega
  · rcases List.mem_or_eq_of_mem_set hw' with hw' | rfl
    · exact h.slots w' hw'
    · have hlen := h.slots w (List.mem_of_getElem? hw)
      rw [hnodes, List.length_cons] at hlen
      simp only
      omega

theorem finish (h : HcfLedger s) {i : ℕ} {w : HcfWork} (hw : s.works[i]? = some w)
    (hnodes : w.nodes_to_free = []) : HcfLedger { s with works := s.works.eraseIdx i } := by
  refine ⟨h.live, h.builds, h.builds_ne, h.syncs, ?_, fun w' hw' => ?_⟩
  · have hret : s.retained = held (fun w : HcfWork => (w.nodes_to_free : Multiset Addr))
        (s.works.eraseIdx i) := by
      rw [HcfSys.retained, held_eraseIdx hw, hnodes, Multiset.coe_nil, zero_add]
    rw [h.account, hret]
    rfl
  · exact h.slots w' (List.mem_of_mem_eraseIdx hw')

theorem callback (h : HcfLedger s) {i : ℕ} {c : HcfCallback} (hc : s.rcu[i]? = some c) :
    HcfLedger { s with mem := s.mem.erase c.node, rcu := s.rcu.eraseIdx i } := by
  have hk := h.kept_callback (List.mem_of_getElem? hc)
  have hq : s.queued = {c.node} + held (fun c : HcfCallback => {c.node}) (s.rcu.eraseIdx i) := by
    rw [HcfSys.queued, held_eraseIdx hc]
  have hmem : c.node ∈ s.mem.allocated := by
    rw [h.account]
    exact Multiset.mem_add.2 (Or.inr (mem_queued (List.mem_of_getElem? hc)))
  have hacc : {c.node} + (s.mem.erase c.node).allocated = s.mem.allocated := by
    rw [Mem.allocated_erase, Multiset.singleton_add, Multiset.cons_erase hmem]
  refine ⟨hk.live.1, fun b hb => (hk.builds b hb).1, h.builds_ne, fun o ho => (hk.syncs o ho).1, ?_,
    h.slots⟩
  rw [h.account, hq, ← hk.live.2] at hacc
  simp only [HcfSys.live, HcfSys.building, HcfSys.replaced, HcfSys.retained, HcfSys.queued]
    at hacc ⊢
  rw [held_congr fun b hb => (hk.builds b hb).2, held_congr fun o ho => (hk.syncs o ho).2]
  ext d
  have hd := congrArg (Multiset.count d) hacc
  simp only [Multiset.count_add] at hd ⊢
  omega

theorem syncDone (h : HcfLedger s) {i : ℕ} {o : HcfSync} (ho : s.syncs[i]? = some o)
    (hacc : footprint s.mem o.old_root + m'.allocated = s.mem.allocated)
    (hkeep : ∀ c, c ∉ footprint s.mem o.old_root → m'.lookup c = s.mem.lookup c) :
    HcfLedger { s with mem := m', syncs := s.syncs.eraseIdx i } := by
  have hk := h.kept_sync ho hkeep
  have hr : s.replaced = footprint s.mem o.old_root +
      held (fun o : HcfSync => footprint s.mem o.old_root) (s.syncs.eraseIdx i) := by
    rw [HcfSys.replaced, held_eraseIdx ho]
  refine ⟨hk.live.1, fun b hb => (hk.builds b hb).1, h.builds_ne, fun o ho => (hk.syncs o ho).1, ?_,
    h.slots⟩
  rw [h.account, hr, ← hk.live.2] at hacc
  simp only [HcfSys.live, HcfSys.building, HcfSys.replaced, HcfSys.retained, HcfSys.queued]
    at hacc ⊢
  rw [held_congr fun b hb => (hk.builds b hb).2, held_congr fun o ho => (hk.syncs o ho).2]
  ext d
  have hd := congrArg (Multiset.count d) hacc
  simp only [Multiset.count_add] at hd ⊢
  omega

theorem historyStart (h : HcfLedger s) {c : Addr} (entries : List HcfHistoryEntry)
    (hext : s.mem.Extends c (Cell.zero HcfMeta.zero) m') :
    HcfLedger { s with mem := m', builds := s.builds ++ [⟨some c, entries⟩] } := by
  have hk := h.kept_all fun d hd => hext.lookup_of_mem hd
  have hblank : Stored m' (hcfBlank c) := stored_hcfBlank hext.lookup_self
  have hfoot : footprint m' (some c) = {c} := hblank.footprint_eq rfl
  refine ⟨hk.live.1, fun b hb => ?_, fun b hb => ?_, fun o ho => (hk.syncs o ho).1, ?_, h.slots⟩
  · rcases List.mem_append.1 hb with hb | hb
    · exact (hk.builds b hb).1
    · obtain rfl := List.mem_singleton.1 hb
      exact hblank.isTrie
  · rcases List.mem_append.1 hb with hb | hb
    · exact h.builds_ne b hb
    · obtain rfl := List.mem_singleton.1 hb
      exact Option.some_ne_none c
  · have hacc := hext.allocated
    rw [h.account, ← hk.live.2] at hacc
    simp only [HcfSys.live, HcfSys.building, HcfSys.replaced, HcfSys.retained, HcfSys.queued]
      at hacc ⊢
    rw [held_append, held_congr fun b hb => (hk.builds b hb).2,
      held_congr fun o ho => (hk.syncs o ho).2, held_cons, held_nil, hfoot, add_zero, hacc]
    ext d
    simp only [Multiset.count_add, Multiset.count_cons, Multiset.count_singleton]
    omega

theorem historyEntry (h : HcfLedger s) {i : ℕ} {b : HcfBuild} (rest : List HcfHistoryEntry)
    {t t' : PtrTrie HcfMeta} (hb : s.builds[i]? = some b) (hroot : root t = b.new_tree)
    (hs : Stored s.mem t) (hg : Grows s.mem t m' t') :
    HcfLedger { s with mem := m', builds := s.builds.set i { b with entries := rest } } := by
  have hfoot : footprint s.mem b.new_tree = addrs t := hs.footprint_eq hroot
  have hroot' : root t' = b.new_tree := hg.root_eq.trans hroot
  have hfoot' : footprint m' b.new_tree = addrs t' := hg.stored.footprint_eq hroot'
  have hk := h.kept_insert hb (hfoot ▸ hg.lookup_eq)
  have hsplit : s.building = addrs t +
      held (fun b : HcfBuild => footprint s.mem b.new_tree) (s.builds.eraseIdx i) := by
    rw [HcfSys.building, held_eraseIdx hb, hfoot]
  have hperm := List.set_perm_cons_eraseIdx (List.getElem?_eq_some_iff.1 hb).1
    { b with entries := rest }
  refine ⟨hk.live.1, fun x hx => ?_, fun x hx => ?_, fun o ho => (hk.syncs o ho).1, ?_, h.slots⟩
  · rcases List.mem_cons.1 (hperm.mem_iff.1 hx) with rfl | hx
    · exact ⟨t', hroot', hg.stored⟩
    · exact (hk.builds x hx).1
  · rcases List.mem_or_eq_of_mem_set hx with hx | rfl
    · exact h.builds_ne x hx
    · exact h.builds_ne b (List.mem_of_getElem? hb)
  · -- what the insertion allocates is in the tree under construction
    have hacc := hg.account
    rw [h.account, hsplit, ← hk.live.2] at hacc
    simp only [HcfSys.live, HcfSys.building, HcfSys.replaced, HcfSys.retained, HcfSys.queued]
      at hacc ⊢
    rw [held_set hb, hfoot', held_congr fun b hb => (hk.builds b hb).2,
      held_congr fun o ho => (hk.syncs o ho).2]
    ext d
    have hd := congrArg (Multiset.count d) hacc
    simp only [Multiset.count_add] at hd ⊢
    omega

/-- Publishing a tree `p` that the ledger counts once more: its nodes are live
from then on, and the nodes that were wait for a grace period. -/
theorem swap {p : Ptr} (hp : IsTrie s.mem p) (hlive : IsTrie s.mem s.tree)
    (hb : ∀ b ∈ s.builds, IsTrie s.mem b.new_tree) (hbne : ∀ b ∈ s.builds, b.new_tree ≠ none)
    (ho : ∀ o ∈ s.syncs, IsTrie s.mem o.old_root)
    (hslots : ∀ w ∈ s.works, w.nodes_to_free.length ≤ 33)
    (hacc : s.mem.allocated =
      s.live + (footprint s.mem p + s.building) + s.replaced + s.retained + s.queued) :
    HcfLedger (hcfSwap p s) := by
  unfold hcfSwap
  cases htree : s.tree with
  | none =>
    refine ⟨hp, hb, hbne, ho, ?_, hslots⟩
    have hl : s.live = 0 := by rw [HcfSys.live, htree, footprint_none]
    rw [hl] at hacc
    refine hacc.trans ?_
    ext d
    simp only [HcfSys.live, HcfSys.building, HcfSys.replaced, HcfSys.retained, HcfSys.queued,
      Multiset.count_add, Multiset.count_zero]
    omega
  | some r =>
    refine ⟨hp, hb, hbne, fun o hmem => ?_, ?_, hslots⟩
    · rcases List.mem_append.1 hmem with hmem | hmem
      · exact ho o hmem
      · obtain rfl := List.mem_singleton.1 hmem
        rw [htree] at hlive
        exact hlive
    · refine hacc.trans ?_
      ext d
      simp only [HcfSys.live, HcfSys.building, HcfSys.replaced, HcfSys.retained, HcfSys.queued,
        htree, held_append, held_cons, held_nil, add_zero, Multiset.count_add]
      omega

theorem historySwap (h : HcfLedger s) {i : ℕ} {b : HcfBuild} (hb : s.builds[i]? = some b) :
    HcfLedger (hcfSwap b.new_tree { s with builds := s.builds.eraseIdx i }) := by
  refine swap (s := { s with builds := s.builds.eraseIdx i })
    (h.builds b (List.mem_of_getElem? hb)) h.live
    (fun x hx => h.builds x (List.mem_of_mem_eraseIdx hx))
    (fun x hx => h.builds_ne x (List.mem_of_mem_eraseIdx hx)) h.syncs h.slots ?_
  have hsplit : s.building = footprint s.mem b.new_tree +
      held (fun b : HcfBuild => footprint s.mem b.new_tree) (s.builds.eraseIdx i) := by
    rw [HcfSys.building, held_eraseIdx hb]
  exact h.account.trans (by rw [hsplit]; rfl)

theorem swapNull (h : HcfLedger s) : HcfLedger (hcfSwap none s) :=
  swap (isTrie_none s.mem) h.live h.builds h.builds_ne h.syncs h.slots
    (h.account.trans (by rw [footprint_none, zero_add]))

end HcfLedger

/-- **Every event keeps the ledger.** -/
theorem HcfStepCase.ledger {ev : HcfEvent} (hcase : HcfStepCase s ev s') (h : HcfLedger s) :
    HcfLedger s' := by
  cases hcase with
  | idle _ hidle => exact h
  | register hroot hs hreg => exact h.register hroot hs hreg
  | announce hw hlog => exact h.announce hw _
  | retire hw hlog hnodes => exact h.retire hw hnodes
  | finish hw hlog hnodes => exact h.finish hw hnodes
  | callback hc hgrace => exact h.callback hc
  | historyStart hext => exact h.historyStart _ hext
  | historyEntry hb hx hroot hs hg => exact h.historyEntry _ hb hroot hs hg
  | historySwap hb hx => exact h.historySwap hb
  | swapNull => exact h.swapNull
  | syncDone ho hgrace hacc hkeep => exact h.syncDone ho hacc hkeep
  | reader _ hev readers clock answers =>
    exact ⟨h.live, h.builds, h.builds_ne, h.syncs, h.account, h.slots⟩

/-- The component starts with its ledger in order. -/
theorem hcfSysInit_ledger (A : Supply) :
    ∃ s, hcfSysInit A.toAllocator = .ok s ∧ HcfLedger s ∧ s.readers = [] ∧ s.answers = [] := by
  obtain ⟨a, s, hinit, hinv⟩ := hcfInitState_spec A
  obtain ⟨hroot, -, hs, hacc⟩ := hinv
  have hrcu : s.rcu = [] := by
    unfold hcfInitState at hinit
    split at hinit
    · cases hinit
    · cases hinit
      rfl
  refine ⟨⟨s.mem, s.tree, [], [], [], [], 0, [], [], []⟩, ?_, ⟨⟨_, hroot, hs⟩, ?_, ?_, ?_, ?_, ?_⟩,
    rfl, rfl⟩
  · rw [hcfSysInit, hinit]
    rfl
  · intro b hb
    cases hb
  · intro b hb
    cases hb
  · intro o ho
    cases ho
  · rw [hacc, hrcu]
    simp only [HcfSys.live, HcfSys.building, HcfSys.replaced, HcfSys.retained, HcfSys.queued,
      held_nil, hs.footprint_eq hroot, Multiset.coe_nil, add_zero]
  · intro w hw
    cases hw

end Librefw
