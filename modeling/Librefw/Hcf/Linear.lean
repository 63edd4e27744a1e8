import Librefw.Common.Moments
import Librefw.Hcf.Announce
import Librefw.Hcf.Refinement

/-!
# Lookups answer as at one moment

What the component is for while everything is in flight: one map that is
looked up, and the maps of the history messages that are being written
(`HcfSpec`). A register work changes the one in a single step, at its
critical section; a history message replaces it in a single step, at its
swap; nothing else a client can see changes it. `HcfSys.spec` reads this
off the store, and every event is a step of it (`hcfSysStep_spec`).

A lookup loads the root in one step and answers many steps later, from
nodes that works and histories have long replaced. Its answer is still the
one of the map at a single moment of its call: `hcfLookup_linearizable`.
-/

namespace Librefw

open PtrTrie

/-! ## The map and its drafts -/

/-- A history message being written: its map so far, and what is to come. -/
structure HcfDraft where
  map : HcfMap
  entries : List HcfHistoryEntry

/-- The component without its store: what is looked up, if anything is, and the
drafts. -/
structure HcfSpec where
  map : Option HcfMap
  drafts : List HcfDraft

namespace HcfSpec

/-- The component after initialisation. -/
def init : HcfSpec := ⟨some HcfMap.empty, []⟩

/-- A lookup. -/
def lookup (t : HcfSpec) (source_ip : U32) (ttl : U8) : ℤ :=
  match t.map with
  | none => -1
  | some M => M.lookup source_ip ttl

/-- The next entry of the `i`-th draft. -/
def write (t : HcfSpec) (i : ℕ) : HcfSpec :=
  match t.drafts[i]? with
  | none => t
  | some d =>
    match d.entries with
    | [] => t
    | x :: rest => { t with drafts := t.drafts.set i ⟨d.map.write x.ip_addr ⟨x.hc.toNat, x.ttl⟩, rest⟩ }

/-- The `i`-th draft, once it is written, is what is looked up. -/
def publish (t : HcfSpec) (i : ℕ) : HcfSpec :=
  match t.drafts[i]? with
  | none => t
  | some d =>
    match d.entries with
    | [] => ⟨some d.map, t.drafts.eraseIdx i⟩
    | _ :: _ => t

/-- What an event does to the map and the drafts. -/
def step (t : HcfSpec) : HcfEvent → HcfSpec
  | .register _ task => { t with map := t.map.map fun M => M.register task }
  | .historyStart _ entries => { t with drafts := t.drafts ++ [⟨HcfMap.empty, entries⟩] }
  | .historyEntry _ i => t.write i
  | .historySwap i => t.publish i
  | .swapNull => { t with map := none }
  | _ => t

end HcfSpec

/-! ## What the store means -/

variable {s s' : HcfSys} {t : HcfSpec} {ev : HcfEvent} {a : Addr} {p : Ptr}
variable {m m' : Mem HcfNode} {u : PtrTrie HcfMeta}

/-- The map of a tree. -/
def hcfMapOf (u : BitTrie HcfMeta) : HcfMap := fun k =>
  (u.find (ipPath (k ++ 0#8) 24)).map HcfMeta.entry

theorem top24_append (k : BitVec 24) : top24 (k ++ 0#8) = k := by
  apply BitVec.eq_of_getLsbD_eq
  intro i hi
  rw [top24, BitVec.getLsbD_extractLsb', BitVec.getLsbD_append]
  simp [hi]

/-- A tree stands for one map. -/
theorem mapsTo_iff {u : BitTrie HcfMeta} {M : HcfMap} : MapsTo u M ↔ hcfMapOf u = M := by
  constructor
  · intro h
    funext k
    rw [hcfMapOf, h, top24_append]
  · rintro rfl ip
    rw [hcfMapOf, top24_eq_iff.1 (top24_append (top24 ip))]

open Classical in
/-- The map of the tree at a pointer, if there is one. -/
noncomputable def hcfMapAt (m : Mem HcfNode) (p : Ptr) : Option HcfMap :=
  if h : ∃ u, root u = p ∧ Stored m u ∧ u ≠ .nil then some (hcfMapOf (vals h.choose)) else none

theorem hcfMapAt_eq (hroot : root u = p) (hs : Stored m u) (hne : u ≠ .nil) :
    hcfMapAt m p = some (hcfMapOf (vals u)) := by
  have hex : ∃ u, root u = p ∧ Stored m u ∧ u ≠ .nil := ⟨u, hroot, hs, hne⟩
  obtain ⟨hroot', hs', -⟩ := hex.choose_spec
  rw [hcfMapAt, dif_pos hex, Stored.unique hs' hs (hroot'.trans hroot.symm)]

theorem hcfMapAt_none (m : Mem HcfNode) : hcfMapAt m none = none := by
  rw [hcfMapAt, dif_neg]
  rintro ⟨u, hroot, -, hne⟩
  exact hne (root_eq_none.1 hroot)

/-- A tree that no event touched means what it meant. -/
theorem hcfMapAt_frame (h : IsTrie m p) (heq : ∀ c ∈ footprint m p, m'.lookup c = m.lookup c) :
    hcfMapAt m' p = hcfMapAt m p := by
  obtain ⟨u, hroot, hs⟩ := h
  rw [hs.footprint_eq hroot] at heq
  by_cases hnil : u = .nil
  · rw [← hroot, hnil, root_nil, hcfMapAt_none, hcfMapAt_none]
  · rw [hcfMapAt_eq hroot hs hnil, hcfMapAt_eq hroot (hs.congr heq) hnil]

/-- The map and the drafts of a state. -/
noncomputable def HcfSys.spec (s : HcfSys) : HcfSpec where
  map := hcfMapAt s.mem s.tree
  drafts := s.builds.map fun b => ⟨(hcfMapAt s.mem b.new_tree).getD HcfMap.empty, b.entries⟩

/-- **The published tree answers as the map.** -/
theorem HcfLedger.lookup (h : HcfLedger s) (source_ip : U32) (ttl : U8) :
    hcfLookupTree s.tree s.mem source_ip ttl = .ok (s.spec.lookup source_ip ttl) := by
  obtain ⟨u, hroot, hs, -, -⟩ := h.exists_live
  rw [← hroot, hcfLookupTree_spec hs, HcfSpec.lookup, HcfSys.spec]
  by_cases hnil : u = .nil
  · rw [← hroot, hnil, root_nil, hcfMapAt_none, hcfVerdict, vals_nil, BitTrie.find_nil]
    rfl
  · have hmap : MapsTo (vals u) (hcfMapOf (vals u)) := mapsTo_iff.2 rfl
    rw [hcfMapAt_eq hroot hs hnil, hcfVerdict, hcfAnswer_eq, hmap]
    rfl

/-! ## What an event touches -/

/-- The old nodes an event writes or frees. -/
def HcfSys.Touches (s : HcfSys) (ev : HcfEvent) (a : Addr) : Prop :=
  s.Frees ev a ∨
    ∃ A i b, ev = .historyEntry A i ∧ s.builds[i]? = some b ∧ a ∈ footprint s.mem b.new_tree

/-- An event touches nothing else. -/
theorem HcfStepCase.untouched (hcase : HcfStepCase s ev s') (h : HcfLedger s) (ha : a ∈ s.mem)
    (hnot : ¬ s.Touches ev a) : s'.mem.lookup a = s.mem.lookup a := by
  cases hcase with
  | register hroot hs hreg => exact hreg.lookup_eq a ha
  | callback hc hgrace =>
    exact Mem.lookup_erase_ne fun heq => hnot (Or.inl ⟨_, hc, hgrace, heq.symm⟩)
  | historyStart hext => exact hext.lookup_of_mem ha
  | historyEntry hb hx hroot hs hg =>
    refine hg.lookup_eq a ha fun hin => hnot (Or.inr ⟨_, _, _, rfl, hb, ?_⟩)
    rw [hs.footprint_eq hroot]
    exact hin
  | historySwap hb hx =>
    obtain ⟨-, -, -, hmem, -⟩ := hcfSwap_readers _ { s with builds := _ }
    rw [hmem]
  | swapNull =>
    obtain ⟨-, -, -, hmem, -⟩ := hcfSwap_readers none s
    rw [hmem]
  | syncDone ho hgrace hacc hkeep =>
    refine hkeep a fun hin => hnot (Or.inl ⟨_, ho, hgrace, ?_⟩)
    exact (h.syncs _ (List.mem_of_getElem? ho)).mem_footprint.1 hin
  | _ => rfl

/-- The published tree and the trees under construction are freed by no event. -/
theorem HcfLedger.not_frees (h : HcfLedger s) (ha : a ∈ s.live ∨ a ∈ s.building) :
    ¬ s.Frees ev a := by
  have hone := h.count_le_one a
  have hpos : 0 < s.live.count a + s.building.count a := by
    rcases ha with ha | ha
    · have := Multiset.count_pos.2 ha
      omega
    · have := Multiset.count_pos.2 ha
      omega
  intro hfree
  cases ev with
  | callback i =>
    obtain ⟨c, hc, -, rfl⟩ := hfree
    have := Multiset.count_pos.2 (HcfLedger.mem_queued (List.mem_of_getElem? hc))
    omega
  | syncDone i =>
    obtain ⟨o, ho, -, hreach⟩ := hfree
    have hmem : o ∈ s.syncs := List.mem_of_getElem? ho
    have hin := (h.syncs o hmem).mem_footprint.2 hreach
    have := Multiset.count_pos.2 (HcfLedger.mem_replaced hmem hin)
    omega
  | _ => exact hfree

/-- **The published tree** means after an event what it meant. -/
theorem HcfStepCase.mapAt_live (hcase : HcfStepCase s ev s') (h : HcfLedger s) :
    hcfMapAt s'.mem s.tree = hcfMapAt s.mem s.tree := by
  refine hcfMapAt_frame h.live fun c hc => hcase.untouched h (h.mem_of_live hc) ?_
  rintro (hfree | ⟨A, i, b, -, hb, hin⟩)
  · exact h.not_frees (Or.inl hc) hfree
  · have h1 : 0 < s.live.count c := Multiset.count_pos.2 hc
    have h2 := Multiset.count_pos.2 (HcfLedger.mem_building (List.mem_of_getElem? hb) hin)
    have h3 := h.count_le_one c
    omega

/-- **A tree under construction** means after an event what it meant, unless the
event wrote into it. -/
theorem HcfStepCase.mapAt_build (hcase : HcfStepCase s ev s') (h : HcfLedger s) {j : ℕ}
    {b : HcfBuild} (hb : s.builds[j]? = some b) (hnot : ∀ A, ev ≠ .historyEntry A j) :
    hcfMapAt s'.mem b.new_tree = hcfMapAt s.mem b.new_tree := by
  have hmem : b ∈ s.builds := List.mem_of_getElem? hb
  refine hcfMapAt_frame (h.builds b hmem) fun c hc => ?_
  have hbuild : c ∈ s.building := HcfLedger.mem_building hmem hc
  refine hcase.untouched h (h.mem_of_building hbuild) ?_
  rintro (hfree | ⟨A, i, x, rfl, hx, hin⟩)
  · exact h.not_frees (Or.inr hbuild) hfree
  · have hij : j ≠ i := fun hij => hnot A (hij ▸ rfl)
    have hrest : b ∈ s.builds.eraseIdx i := List.mem_eraseIdx_iff_getElem?.2 ⟨j, hij, hb⟩
    exact disjoint_of_eraseIdx (f := fun b : HcfBuild => footprint s.mem b.new_tree) hx
      h.nodup_building hrest hc hin

/-- The drafts of the builds that an event left alone. -/
theorem HcfStepCase.drafts (hcase : HcfStepCase s ev s') (h : HcfLedger s)
    (hnot : ∀ A i, ev ≠ .historyEntry A i) :
    (s.builds.map fun b => (⟨(hcfMapAt s'.mem b.new_tree).getD HcfMap.empty, b.entries⟩ : HcfDraft)) =
      s.spec.drafts := by
  refine List.map_congr_left fun b hb => ?_
  obtain ⟨j, hj⟩ := List.mem_iff_getElem?.1 hb
  rw [hcase.mapAt_build h hj fun A => hnot A j]

/-! ## Every event is a step of the map -/

/-- An event that changes no tree. -/
theorem HcfStepCase.spec_eq (hcase : HcfStepCase s ev s') (h : HcfLedger s)
    (hnot : ∀ A i, ev ≠ .historyEntry A i) (htree : s'.tree = s.tree)
    (hbuilds : s'.builds = s.builds) : s'.spec = s.spec := by
  rw [HcfSys.spec, htree, hbuilds, hcase.mapAt_live h, hcase.drafts h hnot]
  rfl

theorem hcfRegister_spec (h : HcfLedger s) {A : Supply} {task : HcfAddNodeTask}
    (hrun : hcfRegister A.toAllocator task s = .ok s')
    (hcase : HcfStepCase s (.register A task) s') :
    s'.spec = s.spec.step (.register A task) := by
  obtain ⟨u, hroot, hs, -, hnd⟩ := h.exists_live
  unfold hcfRegister at hrun
  by_cases hnil : u = .nil
  · have hnone : s.tree = none := by rw [← hroot, hnil, root_nil]
    rw [hnone] at hrun
    simp only [hcfRegisterIpLocked, pure_eq_ok, ok_bind, Except.ok.injEq] at hrun
    subst hrun
    simp only [HcfSpec.step, HcfSys.spec, hnone, hcfMapAt_none, Option.map_none]
  · obtain ⟨pub, m', u', hlocked, hreg⟩ := hcfRegisterIpLocked_spec A task hs hnil hnd
    rw [← hroot, hlocked] at hrun
    simp only [ok_bind, pure_eq_ok, Except.ok.injEq] at hrun
    have hmap : MapsTo (vals u) (hcfMapOf (vals u)) := mapsTo_iff.2 rfl
    have hput : hcfMapOf (vals u') = (hcfMapOf (vals u)).register task := by
      rw [← mapsTo_iff, hreg.vals_eq, HcfMap.register, ← hcfMetaOf_entry]
      exact hmap.put task.source_ip (hcfMetaOf task.ttl)
    have hnew := hcfMapAt_eq hreg.root_eq hreg.stored hreg.ne_nil
    have hold := hcfMapAt_eq hroot hs hnil
    have hdrafts := hcase.drafts h (by simp)
    subst hrun
    simp only at hdrafts
    simp only [HcfSpec.step, HcfSys.spec, hnew, hold, hput, hdrafts, Option.map_some]

theorem hcfHistoryStart_spec (h : HcfLedger s) (A : Supply) (entries : List HcfHistoryEntry) :
    (hcfHistoryStart A.toAllocator entries s).spec = s.spec.step (.historyStart A entries) := by
  have hcase := hcfHistoryStart_cases A entries s
  obtain ⟨c, m', hcreate, hext⟩ := hcfCreateNode_supply A s.mem
  unfold hcfHistoryStart at hcase ⊢
  rw [hcreate] at hcase ⊢
  have hblank : hcfMapAt m' (some c) = some HcfMap.empty := by
    have hroot : root (hcfBlank c) = some c := rfl
    rw [hcfMapAt_eq hroot (stored_hcfBlank hext.lookup_self) (by simp [hcfBlank]),
      mapsTo_iff.1 (mapsTo_blank c)]
  have hlive := hcase.mapAt_live h
  have hdrafts := hcase.drafts h (by simp)
  simp only at hlive hdrafts
  simp only [HcfSpec.step, HcfSys.spec, hlive, List.map_append, hdrafts, List.map_cons,
    List.map_nil, hblank, Option.getD_some]

theorem hcfHistoryEntry_spec (h : HcfLedger s) {A : Supply} {i : ℕ}
    (hrun : hcfHistoryEntry A.toAllocator i s = .ok s')
    (hcase : HcfStepCase s (.historyEntry A i) s') : s'.spec = s.spec.write i := by
  unfold hcfHistoryEntry at hrun
  have hdraft : s.spec.drafts[i]? = s.builds[i]?.map fun b =>
      ⟨(hcfMapAt s.mem b.new_tree).getD HcfMap.empty, b.entries⟩ := List.getElem?_map
  unfold HcfSpec.write
  cases hb : s.builds[i]? with
  | none =>
    simp only [hb, pure_eq_ok, Except.ok.injEq] at hrun
    rw [hdraft, hb, hrun]
    rfl
  | some b =>
    simp only [hb] at hrun
    rw [hdraft, hb]
    cases hx : b.entries with
    | nil =>
      simp only [hx, pure_eq_ok, Except.ok.injEq] at hrun
      simp only [Option.map_some, hx, hrun]
    | cons x rest =>
      obtain ⟨u, hroot, hs, hne, hnd⟩ := h.exists_build hb
      obtain ⟨m', u', hinsert, hg, hvals⟩ := hcfInsertEntry_spec A x hs hne hnd
      rw [hroot] at hinsert
      simp only [hx, hinsert, ok_bind, pure_eq_ok, Except.ok.injEq] at hrun
      have hmap : MapsTo (vals u) (hcfMapOf (vals u)) := mapsTo_iff.2 rfl
      have hput : hcfMapOf (vals u') =
          (hcfMapOf (vals u)).write x.ip_addr ⟨x.hc.toNat, x.ttl⟩ := by
        rw [← mapsTo_iff, hvals]
        exact hmap.put x.ip_addr ⟨x.hc, x.ttl⟩
      have hnew := hcfMapAt_eq (hg.root_eq.trans hroot) hg.stored (hg.ne_nil hne)
      have hlive := hcase.mapAt_live h
      subst hrun
      simp only at hlive
      simp only [Option.map_some, hx, HcfSys.spec, hlive, hcfMapAt_eq hroot hs hne,
        Option.getD_some, HcfSpec.mk.injEq, true_and]
      -- the other drafts are as they were
      refine List.ext_getElem? fun j => ?_
      rw [List.getElem?_map, List.getElem?_set, List.getElem?_set, List.getElem?_map,
        List.length_map]
      by_cases hij : i = j
      · subst hij
        simp only [if_true, (List.getElem?_eq_some_iff.1 hb).1, Option.map_some, hnew, hput,
          Option.getD_some]
      · simp only [if_neg hij]
        cases hj : s.builds[j]? with
        | none => rfl
        | some y =>
          have hy := hcase.mapAt_build h hj fun B heq => hij (HcfEvent.historyEntry.inj heq).2
          simp only at hy
          simp only [Option.map_some, hy]

/-- A swap publishes the tree it is given. -/
theorem hcfSwap_spec (p : Ptr) (s : HcfSys) :
    (hcfSwap p s).spec = ⟨hcfMapAt s.mem p, s.spec.drafts⟩ := by
  unfold hcfSwap
  cases s.tree <;> rfl

theorem hcfHistorySwap_spec (h : HcfLedger s) (i : ℕ) :
    (hcfHistorySwap i s).spec = s.spec.publish i := by
  have hdraft : s.spec.drafts[i]? = s.builds[i]?.map fun b =>
      ⟨(hcfMapAt s.mem b.new_tree).getD HcfMap.empty, b.entries⟩ := List.getElem?_map
  unfold hcfHistorySwap HcfSpec.publish
  rw [hdraft]
  cases hb : s.builds[i]? with
  | none => rfl
  | some b =>
    cases hx : b.entries with
    | cons x rest => simp only [Option.map_some, hx]
    | nil =>
      obtain ⟨u, hroot, hs, hne, -⟩ := h.exists_build hb
      have herase : s.spec.drafts.eraseIdx i = (s.builds.eraseIdx i).map fun b =>
          ⟨(hcfMapAt s.mem b.new_tree).getD HcfMap.empty, b.entries⟩ := List.eraseIdx_map ..
      simp only [Option.map_some, hx, hcfSwap_spec, hcfMapAt_eq hroot hs hne, Option.getD_some,
        herase]
      rfl

/-- **Every event is a step of the map**, whatever works, histories, grace
periods and lookups it falls between. -/
theorem hcfSysStep_spec (h : HcfSafe s) (ev : HcfEvent) :
    ∃ s', hcfSysStep s ev = .ok s' ∧ HcfSafe s' ∧ s'.spec = s.spec.step ev := by
  obtain ⟨s', hrun, hsafe, hcase⟩ := hcfSysStep_safe h ev
  refine ⟨s', hrun, hsafe, ?_⟩
  have hled := h.ledger
  cases ev with
  | register A task => exact hcfRegister_spec hled hrun hcase
  | historyStart A entries =>
    exact Except.ok.inj hrun ▸ hcfHistoryStart_spec hled A entries
  | historyEntry A i => exact hcfHistoryEntry_spec hled hrun hcase
  | historySwap i => exact Except.ok.inj hrun ▸ hcfHistorySwap_spec hled i
  | swapNull =>
    rw [← Except.ok.inj hrun, hcfSwap_spec, hcfMapAt_none]
    rfl
  | announce i =>
    refine hcase.spec_eq hled (by simp) ?_ ?_ <;> cases hcase <;> rfl
  | callRcu i =>
    refine hcase.spec_eq hled (by simp) ?_ ?_ <;> cases hcase <;> rfl
  | callback i =>
    refine hcase.spec_eq hled (by simp) ?_ ?_ <;> cases hcase <;> rfl
  | syncDone i =>
    refine hcase.spec_eq hled (by simp) ?_ ?_ <;> cases hcase <;> rfl
  | readerEnter source_ip ttl =>
    refine hcase.spec_eq hled (by simp) ?_ ?_ <;> cases hcase <;> rfl
  | readerStep i =>
    refine hcase.spec_eq hled (by simp) ?_ ?_ <;> cases hcase <;> rfl

/-! ## Lookups -/

/-- What a lookup has loaded. -/
def HcfReaderPc.seen : HcfReaderPc → List HcfTree
  | .entered => []
  | .descending loaded _ _ => [loaded]
  | .done loaded _ => [loaded]

/-- The lookups after an event: old ones, the one that went on, and the one that
began. -/
theorem hcfSysStep_readers (hrun : hcfSysStep s ev = .ok s') (hcase : HcfStepCase s ev s')
    {r : HcfReader} (hr : r ∈ s'.readers) :
    r ∈ s.readers ∨
    (∃ r₀ ∈ s.readers, ∃ pc, hcfLoad s.mem s.tree r₀ = .ok pc ∧ r = { r₀ with pc := pc }) ∨
    ∃ source_ip ttl, ev = .readerEnter source_ip ttl ∧ r = ⟨s.clock, source_ip, ttl, .entered⟩ := by
  cases hcase with
  | @historySwap i b hb hx =>
    obtain ⟨h1, -⟩ := hcfSwap_readers b.new_tree { s with builds := s.builds.eraseIdx i }
    exact Or.inl (h1 ▸ hr)
  | swapNull =>
    obtain ⟨h1, -⟩ := hcfSwap_readers none s
    exact Or.inl (h1 ▸ hr)
  | reader _ hev readers clock answers =>
    cases ev with
    | readerEnter source_ip ttl =>
      have hs' := Except.ok.inj hrun
      rw [← hs'] at hr
      rcases List.mem_append.1 hr with hr | hr
      · exact Or.inl hr
      · exact Or.inr (Or.inr ⟨source_ip, ttl, rfl, List.mem_singleton.1 hr⟩)
    | readerStep i =>
      have hrun' : hcfReaderStep i s = .ok _ := hrun
      unfold hcfReaderStep at hrun'
      cases hi : s.readers[i]? with
      | none =>
        simp only [hi, pure_eq_ok, Except.ok.injEq] at hrun'
        rw [hrun']
        exact Or.inl hr
      | some r₀ =>
        have hmem : r₀ ∈ s.readers := List.mem_of_getElem? hi
        simp only [hi] at hrun'
        split at hrun'
        · rw [← Except.ok.inj hrun'] at hr
          exact Or.inl (List.mem_of_mem_eraseIdx hr)
        · obtain ⟨pc, hload, hrun'⟩ := bind_eq_ok.1 hrun'
          rw [← Except.ok.inj hrun'] at hr
          rcases List.mem_or_eq_of_mem_set hr with hr | rfl
          · exact Or.inl hr
          · exact Or.inr (Or.inl ⟨r₀, hmem, pc, hload, rfl⟩)
    | _ => exact absurd hev id
  | _ => exact Or.inl hr

/-- A load sees nothing new, or the state it is made on. -/
theorem hcfLoad_seen {r : HcfReader} {pc : HcfReaderPc} (hload : hcfLoad m p r = .ok pc) :
    pc.seen = r.pc.seen ∨ r.pc.seen = [] ∧ pc.seen = [⟨m, p⟩] := by
  unfold hcfLoad at hload
  split at hload
  · next hpc =>
    right
    rw [hpc]
    split at hload <;> obtain rfl := Except.ok.inj hload <;> exact ⟨rfl, rfl⟩
  · next hpc =>
    obtain ⟨n, -, hload⟩ := bind_eq_ok.1 hload
    obtain rfl := Except.ok.inj hload
    rw [hpc]
    exact Or.inl rfl
  · next hpc =>
    obtain ⟨n, -, hload⟩ := bind_eq_ok.1 hload
    rw [hpc]
    left
    split at hload <;> obtain rfl := Except.ok.inj hload <;> rfl
  · next hpc =>
    obtain rfl := Except.ok.inj hload
    rw [hpc]
    exact Or.inl rfl

/-- Sections are numbered as they begin. -/
theorem HcfStepCase.clock_le (hcase : HcfStepCase s ev s') (hrun : hcfSysStep s ev = .ok s') :
    s.clock ≤ s'.clock := by
  cases hcase with
  | @historySwap i b hb hx =>
    obtain ⟨-, h2, -⟩ := hcfSwap_readers b.new_tree { s with builds := s.builds.eraseIdx i }
    exact h2.ge
  | swapNull =>
    obtain ⟨-, h2, -⟩ := hcfSwap_readers none s
    exact h2.ge
  | reader _ hev readers clock answers =>
    cases ev with
    | readerEnter source_ip ttl =>
      rw [← Except.ok.inj hrun]
      exact Nat.le_succ s.clock
    | readerStep i =>
      have hrun' : hcfReaderStep i s = .ok _ := hrun
      unfold hcfReaderStep at hrun'
      split at hrun'
      · rw [← Except.ok.inj hrun']
      · split at hrun'
        · rw [← Except.ok.inj hrun']
        · obtain ⟨pc, -, hrun'⟩ := bind_eq_ok.1 hrun'
          rw [← Except.ok.inj hrun']
    | _ => exact absurd hev id
  | _ => exact le_refl _

/-- A call of a lookup under way in a state that stands for `t`: it has a number
no later section gets, and its own address and time-to-live. -/
structure HcfCalling (n : ℕ) (source_ip : U32) (ttl : U8) (s : HcfSys) (t : HcfSpec) : Prop where
  safe : HcfSafe s
  spec : s.spec = t
  begun : n < s.clock
  own : ∀ r ∈ s.readers, r.id = n → r.source_ip = source_ip ∧ r.ttl = ttl

/-- What the call with a number has loaded. -/
def HcfSys.Seen (n : ℕ) (s : HcfSys) (xs : List HcfTree) : Prop :=
  ∃ r ∈ s.readers, r.id = n ∧ r.pc.seen = xs

/-- A tree that answers as the map. -/
def HcfTree.Answers (x : HcfTree) (t : HcfSpec) : Prop :=
  ∀ source_ip ttl, hcfLookupTree x.tree x.mem source_ip ttl = .ok (t.lookup source_ip ttl)

/-- A call goes on through any event, and loads no more than the tree the event met. -/
theorem HcfCalling.step {n : ℕ} {source_ip : U32} {ttl : U8} (h : HcfCalling n source_ip ttl s t)
    (ev : HcfEvent) :
    ∃ s', hcfSysStep s ev = .ok s' ∧ HcfCalling n source_ip ttl s' (t.step ev) ∧
      ∀ xs, s'.Seen n xs → s.Seen n xs ∨
        ∃ xs₀ x, xs = xs₀ ++ [x] ∧ s.Seen n xs₀ ∧ x.Answers t := by
  obtain ⟨s', hrun, hsafe, hspec⟩ := hcfSysStep_spec h.safe ev
  obtain ⟨s₁, hrun₁, -, hcase⟩ := hcfSysStep_safe h.safe ev
  obtain rfl := Except.ok.inj (hrun₁.symm.trans hrun)
  refine ⟨s₁, hrun, ⟨hsafe, h.spec ▸ hspec, lt_of_lt_of_le h.begun (hcase.clock_le hrun), ?_⟩, ?_⟩
  · intro r hr hid
    rcases hcfSysStep_readers hrun hcase hr with hr | ⟨r₀, hr₀, pc, -, rfl⟩ | ⟨ip, ttl', -, rfl⟩
    · exact h.own r hr hid
    · exact h.own r₀ hr₀ hid
    · exact absurd hid (ne_of_gt h.begun)
  · rintro xs ⟨r, hr, hid, rfl⟩
    rcases hcfSysStep_readers hrun hcase hr with hr | ⟨r₀, hr₀, pc, hload, rfl⟩ | ⟨ip, ttl', -, rfl⟩
    · exact Or.inl ⟨r, hr, hid, rfl⟩
    · rcases hcfLoad_seen hload with hsame | ⟨hnone, hone⟩
      · exact Or.inl ⟨r₀, hr₀, hid, hsame.symm⟩
      · refine Or.inr ⟨[], ⟨s.mem, s.tree⟩, hone, ⟨r₀, hr₀, hid, hnone⟩, fun ip ttl' => ?_⟩
        rw [h.safe.ledger.lookup, h.spec]
    · exact absurd hid (ne_of_gt h.begun)

theorem hcfSysInit_spec (A : Supply) :
    ∃ s, hcfSysInit A.toAllocator = .ok s ∧ HcfSafe s ∧ s.spec = HcfSpec.init := by
  obtain ⟨s, hinit, hsafe⟩ := hcfSysInit_safe A
  refine ⟨s, hinit, hsafe, ?_⟩
  obtain ⟨a, s₀, hinit₀, hinv⟩ := hcfInitState_spec A
  rw [hcfSysInit, hinit₀] at hinit
  obtain rfl := Except.ok.inj hinit
  rw [HcfSys.spec, hcfMapAt_eq hinv.root_eq hinv.stored hinv.ne_nil, mapsTo_iff.1 (mapsTo_blank a)]
  rfl

/-- Every run is a run of the map. -/
theorem hcfSysRun_spec (h : HcfSafe s) (evs : List HcfEvent) :
    ∃ s', run hcfSysStep s evs = .ok s' ∧ HcfSafe s' ∧ s'.spec = evs.foldl HcfSpec.step s.spec := by
  refine run_simulation (R := fun s t => HcfSafe s ∧ s.spec = t) (P := fun _ => True) ?_ ⟨h, rfl⟩
    fun _ _ => trivial
  rintro s t ev ⟨hs, rfl⟩ -
  obtain ⟨s', hrun, hs', hspec⟩ := hcfSysStep_spec hs ev
  exact ⟨s', hrun, hs', hspec⟩

/-- **Lookups are linearizable.** In every run, whatever happens between the
first step of a lookup and its last, its answer is the one of the map at some
moment in between: a register work counts from its critical section on, a
history message from its swap on, and nothing by halves. -/
theorem hcfLookup_linearizable (A : Supply) (pre mid : List HcfEvent) (source_ip : U32) (ttl : U8) :
    ∃ s₀ s₁ s₂, hcfSysInit A.toAllocator = .ok s₀ ∧ run hcfSysStep s₀ pre = .ok s₁ ∧
      run hcfSysStep s₁ (.readerEnter source_ip ttl :: mid) = .ok s₂ ∧
      (∀ ip ttl', hcfLookupTree s₁.tree s₁.mem ip ttl' =
        .ok ((pre.foldl HcfSpec.step HcfSpec.init).lookup ip ttl')) ∧
      ∀ r ∈ s₂.readers, r.id = s₁.clock → ∀ loaded result, r.pc = .done loaded result →
        ∃ t ∈ met HcfSpec.step (pre.foldl HcfSpec.step HcfSpec.init) mid,
          result = t.lookup source_ip ttl := by
  obtain ⟨s₀, hinit, hsafe₀, hspec₀⟩ := hcfSysInit_spec A
  obtain ⟨s₁, hrun₁, hsafe₁, hspec₁⟩ := hcfSysRun_spec hsafe₀ pre
  rw [hspec₀] at hspec₁
  -- the call begins: its number is new, so it is the only one with it
  have hcall : HcfCalling s₁.clock source_ip ttl (hcfReaderEnter source_ip ttl s₁)
      (pre.foldl HcfSpec.step HcfSpec.init) := by
    refine ⟨hsafe₁.readerEnter source_ip ttl, hspec₁, Nat.lt_succ_self _, fun r hr hid => ?_⟩
    rcases List.mem_append.1 hr with hr | hr
    · exact absurd hid (ne_of_lt (hsafe₁.readers r hr).1)
    · obtain rfl := List.mem_singleton.1 hr
      exact ⟨rfl, rfl⟩
  have hnew : ∀ xs, (hcfReaderEnter source_ip ttl s₁).Seen s₁.clock xs → xs = [] := by
    rintro xs ⟨r, hr, hid, rfl⟩
    rcases List.mem_append.1 hr with hr | hr
    · exact absurd hid (ne_of_lt (hsafe₁.readers r hr).1)
    · obtain rfl := List.mem_singleton.1 hr
      rfl
  obtain ⟨s₂, hrun₂, hcall₂, hseen⟩ := run_observes (P := fun _ => True)
    (fun s t ev h _ => h.step ev) hcall fun ev (_ : ev ∈ mid) => trivial
  refine ⟨s₀, s₁, s₂, hinit, hrun₁, ?_, fun ip ttl' => ?_, fun r hr hid loaded result hpc => ?_⟩
  · rw [run_cons]
    exact hrun₂
  · rw [hsafe₁.ledger.lookup, hspec₁]
  · obtain ⟨xs₀, ys, hsplit, hxs₀, hmet⟩ := hseen [loaded] ⟨r, hr, hid, by rw [hpc]; rfl⟩
    obtain rfl := hnew xs₀ hxs₀
    obtain rfl : [loaded] = ys := hsplit
    obtain ⟨t, ht, hans⟩ := sublistForall₂_singleton hmet
    have hgood := (hcall₂.safe.readers r hr).2
    rw [hpc] at hgood
    obtain ⟨hip, httl⟩ := hcall₂.own r hr hid
    have heq : hcfLookupTree loaded.tree loaded.mem r.source_ip r.ttl = .ok result := hgood
    rw [hip, httl, hans] at heq
    exact ⟨t, ht, (Except.ok.inj heq).symm⟩

end Librefw
