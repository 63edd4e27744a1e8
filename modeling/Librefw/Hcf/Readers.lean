import Librefw.Hcf.Ledger

/-!
# Lookups among updates

Two invariants carry the lookups across any interleaving. A node outside
the trees under construction is never written again
(`HcfStepCase.published`), and a node a section may still visit
(`HcfSys.Visible`: live, retained, or waiting for a grace period that
counts the section) stays one while the section lasts
(`HcfStepCase.visible`). So what is left of the tree a lookup loaded is
stored as it was when the root was loaded, and the answer is the one of
that tree.

With the ledger they make up `HcfSafe`, which every event keeps and none
faults under. Exact reclamation (`hcfNodes_reclaimed`) and the snapshot
isolation of lookups (`hcfLookup_snapshot`) are read off it.
-/

namespace Librefw

open PtrTrie

variable {s s' : HcfSys} {ev : HcfEvent} {a : Addr} {n : ℕ} {m' : Mem HcfNode}

/-- A node the read section `n` may still come to. -/
def HcfSys.Visible (s : HcfSys) (n : ℕ) (a : Addr) : Prop :=
  a ∈ s.live ∨ a ∈ s.retained ∨ (∃ c ∈ s.rcu, n < c.stamp ∧ c.node = a) ∨
    ∃ o ∈ s.syncs, n < o.stamp ∧ a ∈ footprint s.mem o.old_root

theorem HcfSys.Visible.mem (h : HcfLedger s) (hv : s.Visible n a) : a ∈ s.mem ∧ a ∉ s.building := by
  have hone := h.count_le_one a
  have hpos : 0 < s.live.count a + s.replaced.count a + s.retained.count a + s.queued.count a := by
    rcases hv with hv | hv | ⟨c, hc, -, rfl⟩ | ⟨o, ho, -, hv⟩
    · have := Multiset.count_pos.2 hv
      omega
    · have := Multiset.count_pos.2 hv
      omega
    · have : c.node ∈ s.queued := mem_held.2 ⟨c, hc, Multiset.mem_singleton_self _⟩
      have := Multiset.count_pos.2 this
      omega
    · have : a ∈ s.replaced := mem_held.2 ⟨o, ho, hv⟩
      have := Multiset.count_pos.2 this
      omega
  constructor
  · rw [← Mem.mem_allocated, ← Multiset.count_pos, h.account]
    simp only [Multiset.count_add]
    omega
  · intro hb
    have := Multiset.count_pos.2 hb
    omega

/-! ## Published nodes are never written -/

/-- **A node outside the trees under construction stays as it is**, until it is
freed, and is never taken into one. -/
theorem HcfStepCase.published (hcase : HcfStepCase s ev s') (h : HcfLedger s) (ha : a ∈ s.mem)
    (hnot : a ∉ s.building) (ha' : a ∈ s'.mem) :
    s'.mem.lookup a = s.mem.lookup a ∧ a ∉ s'.building := by
  have hbuild : ∀ b ∈ s.builds, a ∉ footprint s.mem b.new_tree := fun b hb hin =>
    hnot (HcfLedger.mem_building hb hin)
  -- where the trees under construction are kept, the node is in none of them
  have hkept : ∀ {m' bs os}, (∀ b ∈ bs, b ∈ s.builds) → HcfKept s m' bs os →
      a ∉ held (fun b : HcfBuild => footprint m' b.new_tree) bs := by
    intro m' bs os hsub hk hin
    obtain ⟨b, hb, hab⟩ := mem_held.1 hin
    rw [(hk.builds b hb).2] at hab
    exact hbuild b (hsub b hb) hab
  cases hcase with
  | idle _ hidle => exact ⟨rfl, hnot⟩
  | register hroot hs hreg =>
    exact ⟨hreg.lookup_eq a ha, hkept (fun _ hb => hb) (h.kept_all hreg.lookup_eq)⟩
  | announce hw hlog => exact ⟨rfl, hnot⟩
  | retire hw hlog hnodes => exact ⟨rfl, hnot⟩
  | finish hw hlog hnodes => exact ⟨rfl, hnot⟩
  | callback hc hgrace =>
    exact ⟨Mem.lookup_erase_ne (Mem.mem_erase.1 ha').1,
      hkept (fun _ hb => hb) (h.kept_callback (List.mem_of_getElem? hc))⟩
  | @historyStart A entries c m' hext =>
    have hfoot : footprint m' (some c) = {c} := (stored_hcfBlank hext.lookup_self).footprint_eq rfl
    have hk := h.kept_all fun d hd => hext.lookup_of_mem hd
    refine ⟨hext.lookup_of_mem ha, ?_⟩
    unfold HcfSys.building
    rw [held_append, held_cons, held_nil, add_zero, hfoot, Multiset.mem_add,
      Multiset.mem_singleton, not_or]
    exact ⟨hkept (fun _ hb => hb) hk, hext.ne_of_mem ha⟩
  | @historyEntry A i b x rest t t' m' hb hx hroot hs hg =>
    have hfoot : footprint s.mem b.new_tree = addrs t := hs.footprint_eq hroot
    have hfoot' : footprint m' b.new_tree = addrs t' :=
      hg.stored.footprint_eq (hg.root_eq.trans hroot)
    have hat : a ∉ addrs t := hfoot ▸ hbuild b (List.mem_of_getElem? hb)
    refine ⟨hg.lookup_eq a ha hat, ?_⟩
    unfold HcfSys.building
    rw [held_set hb, hfoot', Multiset.mem_add, not_or]
    exact ⟨(hg.outside ha hat).2,
      hkept (fun _ hb => List.mem_of_mem_eraseIdx hb) (h.kept_insert hb (hfoot ▸ hg.lookup_eq))⟩
  | @historySwap i b hb hx =>
    have hsub : a ∉ held (fun b : HcfBuild => footprint s.mem b.new_tree) (s.builds.eraseIdx i) := by
      intro hin
      obtain ⟨y, hy, hay⟩ := mem_held.1 hin
      exact hbuild y (List.mem_of_mem_eraseIdx hy) hay
    unfold hcfSwap
    cases htree : s.tree with
    | none => exact ⟨rfl, hsub⟩
    | some r => exact ⟨rfl, hsub⟩
  | swapNull =>
    unfold hcfSwap
    cases htree : s.tree with
    | none => exact ⟨rfl, hnot⟩
    | some r => exact ⟨rfl, hnot⟩
  | @syncDone i o m' ho hgrace hacc hkeep =>
    refine ⟨hkeep a fun hin => ?_, hkept (fun _ hb => hb) (h.kept_sync ho hkeep)⟩
    have h1 := Multiset.count_pos.2 hin
    have h2 := congrArg (Multiset.count a) hacc
    have h3 := Multiset.nodup_iff_count_le_one.1 s.mem.nodup_allocated a
    have h4 : 0 < m'.allocated.count a := Multiset.count_pos.2 (Mem.mem_allocated.2 ha')
    simp only [Multiset.count_add] at h2
    omega
  | reader _ hev readers clock answers => exact ⟨rfl, hnot⟩

/-! ## What a section may visit stays -/

/-- What a register work takes out of the tree it retains. -/
theorem HcfLedger.live_or_freed {task : HcfAddNodeTask} {pub : HcfPublished}
    {t t' : PtrTrie HcfMeta} (h : HcfLedger s) (hroot : root t = s.tree) (hs : Stored s.mem t)
    (hreg : HcfRegistered task s.mem t pub.new_root pub.new_runner pub.nodes_created
      pub.nodes_to_free m' t') (ha : a ∈ addrs t) :
    (a ∈ pub.nodes_to_free ↔ a ∉ addrs t') := by
  have hmem : a ∈ s.mem := hs.mem_of_addrs ha
  have hmem' : a ∈ m' := by
    obtain ⟨c, hc⟩ := Mem.mem_iff_lookup.1 hmem
    exact Mem.mem_of_lookup ((hreg.lookup_eq a hmem).trans hc)
  have hlive : s.live = addrs t := hs.footprint_eq hroot
  have hacc := congrArg (Multiset.count a) hreg.account
  have h1 := Multiset.count_eq_one_of_mem s.mem.nodup_allocated (Mem.mem_allocated.2 hmem)
  have h2 := Multiset.count_eq_one_of_mem m'.nodup_allocated (Mem.mem_allocated.2 hmem')
  have h3 := h.count_le_one a
  have h4 := Multiset.count_pos.2 ha
  rw [hlive] at h3
  simp only [Multiset.count_add] at hacc
  rw [← Multiset.mem_coe, ← Multiset.count_pos, ← Multiset.count_eq_zero]
  omega

/-- A tree that is replaced waits for the sections that may be in it. -/
theorem HcfSys.Visible.swap {p : Ptr} (hn : n < s.clock) (hv : s.Visible n a) :
    (hcfSwap p s).Visible n a := by
  unfold hcfSwap
  rcases hv with hv | hv | hv | ⟨o, ho, hlt, hv⟩
  · cases htree : s.tree with
    | none =>
      rw [HcfSys.live, htree, footprint_none] at hv
      exact absurd hv (Multiset.notMem_zero a)
    | some r =>
      rw [HcfSys.live, htree] at hv
      exact Or.inr (Or.inr (Or.inr
        ⟨⟨some r, s.clock⟩, List.mem_append_right _ (List.mem_singleton_self _), hn, hv⟩))
  · cases htree : s.tree with
    | none => exact Or.inr (Or.inl hv)
    | some r => exact Or.inr (Or.inl hv)
  · cases htree : s.tree with
    | none => exact Or.inr (Or.inr (Or.inl hv))
    | some r => exact Or.inr (Or.inr (Or.inl hv))
  · cases htree : s.tree with
    | none => exact Or.inr (Or.inr (Or.inr ⟨o, ho, hlt, hv⟩))
    | some r => exact Or.inr (Or.inr (Or.inr ⟨o, List.mem_append_left _ ho, hlt, hv⟩))

/-- An event that leaves the trees alone, and drops no callback and no replaced tree that
waits for the section. -/
theorem HcfSys.Visible.kept {bs bs' : List HcfBuild} {os : List HcfSync} {rcu : List HcfCallback}
    (hk : HcfKept s m' bs os) (hrcu : ∀ c ∈ s.rcu, n < c.stamp → c ∈ rcu)
    (hsyncs : ∀ o ∈ s.syncs, n < o.stamp → o ∈ os) (hv : s.Visible n a) :
    ({ s with mem := m', builds := bs', rcu := rcu, syncs := os } : HcfSys).Visible n a := by
  rcases hv with hv | hv | ⟨c, hc, hlt, hv⟩ | ⟨o, ho, hlt, hv⟩
  · have hlive : a ∈ footprint m' s.tree := hk.live.2.symm ▸ hv
    exact Or.inl hlive
  · exact Or.inr (Or.inl hv)
  · exact Or.inr (Or.inr (Or.inl ⟨c, hrcu c hc hlt, hlt, hv⟩))
  · have hold : a ∈ footprint m' o.old_root := (hk.syncs o (hsyncs o ho hlt)).2.symm ▸ hv
    exact Or.inr (Or.inr (Or.inr ⟨o, hsyncs o ho hlt, hlt, hold⟩))

/-- **What a section may visit, it may visit after any event**, as long as it
lasts. -/
theorem HcfStepCase.visible (hcase : HcfStepCase s ev s') (h : HcfLedger s)
    (hn : n < s.clock) (hact : ∃ r ∈ s.readers, r.id = n) (hv : s.Visible n a) :
    s'.Visible n a := by
  obtain ⟨r, hr, rfl⟩ := hact
  cases hcase with
  | idle _ hidle => exact hv
  | @register A task pub m' t t' hroot hs hreg =>
    have hk := h.kept_all hreg.lookup_eq
    have hlive : s.live = addrs t := hs.footprint_eq hroot
    have hfoot' : footprint m' pub.new_root = addrs t' := hreg.stored.footprint_eq hreg.root_eq
    have hret : ∀ {x}, x ∈ s.retained ∨ x ∈ pub.nodes_to_free →
        x ∈ held (fun w : HcfWork => (w.nodes_to_free : Multiset Addr))
          (s.works ++ [⟨task, pub, false, pub.nodes_to_free⟩]) := by
      intro x hx
      rw [held_append, held_cons, held_nil, add_zero, Multiset.mem_add, Multiset.mem_coe]
      exact hx
    rcases hv with hv | hv | hv | ⟨o, ho, hlt, hv⟩
    · -- copied nodes leave the published tree for the account of the work
      rw [hlive] at hv
      by_cases hin : a ∈ addrs t'
      · have hin' : a ∈ footprint m' pub.new_root := hfoot' ▸ hin
        exact Or.inl hin'
      · exact Or.inr (Or.inl (hret (Or.inr ((h.live_or_freed hroot hs hreg hv).2 hin))))
    · exact Or.inr (Or.inl (hret (Or.inl hv)))
    · exact Or.inr (Or.inr (Or.inl hv))
    · have hold : a ∈ footprint m' o.old_root := (hk.syncs o ho).2.symm ▸ hv
      exact Or.inr (Or.inr (Or.inr ⟨o, ho, hlt, hold⟩))
  | @announce i w hw hlog =>
    have hret : held (fun w : HcfWork => (w.nodes_to_free : Multiset Addr))
        (s.works.set i { w with logged := true }) = s.retained := by
      rw [held_set hw, HcfSys.retained, held_eraseIdx hw]
    rcases hv with hv | hv | hv
    · exact Or.inl hv
    · refine Or.inr (Or.inl ?_)
      unfold HcfSys.retained
      rw [hret]
      exact hv
    · exact Or.inr (Or.inr hv)
  | @retire i w node rest hw hlog hnodes =>
    rcases hv with hv | hv | ⟨c, hc, hv⟩ | hv
    · exact Or.inl hv
    · rw [HcfSys.retained, held_eraseIdx hw, hnodes, Multiset.mem_add, Multiset.mem_coe,
        List.mem_cons, or_assoc] at hv
      rcases hv with rfl | hv
      · -- its callback is stamped after the section began
        exact Or.inr (Or.inr (Or.inl
          ⟨⟨a, s.clock⟩, List.mem_append_right _ (List.mem_singleton_self _), hn, rfl⟩))
      · refine Or.inr (Or.inl ?_)
        unfold HcfSys.retained
        rw [held_set hw, Multiset.mem_add, Multiset.mem_coe]
        exact hv
    · exact Or.inr (Or.inr (Or.inl ⟨c, List.mem_append_left _ hc, hv⟩))
    · exact Or.inr (Or.inr (Or.inr hv))
  | @finish i w hw hlog hnodes =>
    rcases hv with hv | hv | hv
    · exact Or.inl hv
    · rw [HcfSys.retained, held_eraseIdx hw, hnodes, Multiset.coe_nil, zero_add] at hv
      exact Or.inr (Or.inl hv)
    · exact Or.inr (Or.inr hv)
  | @callback i c hc hgrace =>
    refine hv.kept (h.kept_callback (List.mem_of_getElem? hc)) (fun d hd hlt => ?_)
      fun o ho _ => ho
    -- the callback that runs counts no section that lasts
    have hne : d ≠ c := by
      rintro rfl
      exact absurd (hgrace r hr) (not_le.2 hlt)
    exact mem_eraseIdx_of_ne hc hd hne
  | @historyStart A entries c m' hext =>
    exact hv.kept (h.kept_all fun d hd => hext.lookup_of_mem hd) (fun d hd _ => hd)
      fun o ho _ => ho
  | @historyEntry A i b x rest t t' m' hb hx hroot hs hg =>
    have hfoot : footprint s.mem b.new_tree = addrs t := hs.footprint_eq hroot
    exact hv.kept (h.kept_insert hb (hfoot ▸ hg.lookup_eq)) (fun d hd _ => hd) fun o ho _ => ho
  | @historySwap i b hb hx => exact HcfSys.Visible.swap (s := { s with builds := _ }) hn hv
  | swapNull => exact HcfSys.Visible.swap hn hv
  | @syncDone i o m' ho hgrace hacc hkeep =>
    refine hv.kept (h.kept_sync ho hkeep) (fun d hd _ => hd) fun d hd hlt => ?_
    -- nor does the grace period that ends
    have hne : d ≠ o := by
      rintro rfl
      exact absurd (hgrace r hr) (not_le.2 hlt)
    exact mem_eraseIdx_of_ne ho hd hne
  | reader _ hev readers clock answers => exact hv

/-! ## Lookups -/

/-- What holds of a lookup: the rest of the tree it loaded is stored, as it was
then, it may visit all of it, and its answer decides the lookup's. -/
def HcfReaderPc.Good (s : HcfSys) (r : HcfReader) : HcfReaderPc → Prop
  | .entered => True
  | .descending loaded k runner => k ≤ 24 ∧ ∃ u : PtrTrie HcfMeta, root u = some runner ∧
      Stored s.mem u ∧ Stored loaded.mem u ∧
      (∀ a ∈ addrs u, s.Visible r.id a ∧ Reach loaded.mem loaded.tree a) ∧
      hcfLookupTree loaded.tree loaded.mem r.source_ip r.ttl =
        .ok (hcfAnswer r.ttl ((vals u).find (hcfBits r.source_ip k)))
  | .done loaded result =>
      hcfLookupTree loaded.tree loaded.mem r.source_ip r.ttl = .ok result

/-- Everything that holds between two events. -/
structure HcfSafe (s : HcfSys) : Prop where
  ledger : HcfLedger s
  readers : ∀ r ∈ s.readers, r.id < s.clock ∧ r.pc.Good s r
  answers : ∀ x ∈ s.answers,
    hcfLookupTree x.loaded.tree x.loaded.mem x.source_ip x.ttl = .ok x.result

/-- A lookup is as it was where its store and what it may visit are. -/
theorem HcfReaderPc.Good.mono {r : HcfReader} {pc : HcfReaderPc} (hg : pc.Good s r)
    (hkeep : ∀ a, s.Visible r.id a → s'.Visible r.id a ∧ s'.mem.lookup a = s.mem.lookup a) :
    pc.Good s' r := by
  cases pc with
  | entered => trivial
  | descending loaded k runner =>
    obtain ⟨hk, u, hroot, hs, hl, hvis, hans⟩ := hg
    refine ⟨hk, u, hroot, hs.congr fun c hc => (hkeep c (hvis c hc).1).2, hl, fun c hc => ?_, hans⟩
    exact ⟨(hkeep c (hvis c hc).1).1, (hvis c hc).2⟩
  | done loaded result => exact hg

/-- **A load of a lookup succeeds**, and the lookup is nearer to its answer. -/
theorem hcfLoad_good {r : HcfReader} (h : HcfLedger s) (hg : r.pc.Good s r) :
    ∃ pc, hcfLoad s.mem s.tree r = .ok pc ∧ pc.Good s r := by
  unfold hcfLoad
  cases hpc : r.pc with
  | entered =>
    obtain ⟨t, hroot, hs, hlive, -⟩ := h.exists_live
    cases htree : s.tree with
    | none => exact ⟨_, rfl, rfl⟩
    | some a =>
      refine ⟨_, rfl, le_refl _, t, hroot.trans htree, hs, hs, fun c hc => ?_, ?_⟩
      · refine ⟨Or.inl (hlive ▸ hc), ?_⟩
        simp only [← htree, ← hroot]
        exact hs.reach_iff.2 hc
      · simp only [← htree, ← hroot]
        rw [hcfLookupTree_spec hs, hcfVerdict, hcfBits_24]
  | descending loaded k runner =>
    rw [hpc] at hg
    obtain ⟨hk, u, hroot, hs, hl, hvis, hans⟩ := hg
    obtain ⟨v, kids, rfl⟩ := root_eq_some.1 hroot
    have hload : s.mem.load (some runner) = .ok ⟨fun b => root (kids b), v⟩ :=
      Mem.load_of_lookup hs.1
    cases k with
    | zero =>
      refine ⟨.done loaded (hcfCompare r.ttl v.hc), ?_, hans⟩
      simp only [hload, ok_bind, pure_eq_ok]
    | succ k =>
      have hbits : hcfBits r.source_ip (k + 1) =
          hcfBit r.source_ip (k + 8) :: hcfBits r.source_ip k := hcfBits_succ _ (by omega)
      have hfind : (vals (.node (runner, v) kids)).find (hcfBits r.source_ip (k + 1)) =
          (vals (kids (hcfBit r.source_ip (k + 8)))).find (hcfBits r.source_ip k) := by
        rw [hbits]
        rfl
      rw [hfind] at hans
      cases hc : root (kids (hcfBit r.source_ip (k + 8))) with
      | none =>
        refine ⟨.done loaded (-1), ?_, ?_⟩
        · simp only [hload, ok_bind, hc, pure_eq_ok]
        · rw [root_eq_none.1 hc, vals_nil, BitTrie.find_nil] at hans
          exact hans
      | some c =>
        refine ⟨.descending loaded k c, ?_, by omega, _, hc, hs.2 _, hl.2 _, fun d hd => ?_, hans⟩
        · simp only [hload, ok_bind, hc, pure_eq_ok]
        · exact hvis d (Multiset.mem_of_le (addrs_kid_le _ kids _) hd)
  | done loaded result =>
    rw [hpc] at hg
    exact ⟨_, rfl, hg⟩

/-- The lookups that were there before an event of another kind. -/
theorem HcfSafe.step_other (h : HcfSafe s) (hcase : HcfStepCase s ev s')
    (hreaders : s'.readers = s.readers) (hclock : s'.clock = s.clock)
    (hanswers : s'.answers = s.answers) : HcfSafe s' := by
  have hled := hcase.ledger h.ledger
  refine ⟨hled, fun r hr => ?_, fun x hx => h.answers x (hanswers ▸ hx)⟩
  rw [hreaders] at hr
  obtain ⟨hid, hg⟩ := h.readers r hr
  refine ⟨hclock ▸ hid, hg.mono fun a ha => ?_⟩
  have hv := hcase.visible h.ledger hid ⟨r, hr, rfl⟩ ha
  obtain ⟨hm, hnot⟩ := ha.mem h.ledger
  exact ⟨hv, (hcase.published h.ledger hm hnot (hv.mem hled).1).1⟩

theorem HcfSafe.readerEnter (h : HcfSafe s) (source_ip : U32) (ttl : U8) :
    HcfSafe (hcfReaderEnter source_ip ttl s) := by
  refine ⟨(HcfStepCase.reader (.readerEnter source_ip ttl) trivial _ _ _).ledger h.ledger,
    fun r hr => ?_, h.answers⟩
  rcases List.mem_append.1 hr with hr | hr
  · obtain ⟨hid, hg⟩ := h.readers r hr
    exact ⟨Nat.lt_succ_of_lt hid, hg.mono fun a ha => ⟨ha, rfl⟩⟩
  · obtain rfl := List.mem_singleton.1 hr
    exact ⟨Nat.lt_succ_self _, trivial⟩

/-- A lookup that returns has the answer of the tree it loaded. -/
theorem HcfSafe.answered (h : HcfSafe s) {i : ℕ} {r : HcfReader} {loaded : HcfTree} {result : ℤ}
    (hr : s.readers[i]? = some r) (hpc : r.pc = .done loaded result) :
    HcfSafe { s with
      readers := s.readers.eraseIdx i
      answers := s.answers ++ [⟨loaded, r.source_ip, r.ttl, result⟩] } := by
  refine ⟨(HcfStepCase.reader (.readerStep i) trivial _ _ _).ledger h.ledger, fun x hx => ?_,
    fun x hx => ?_⟩
  · obtain ⟨hid, hg⟩ := h.readers x (List.mem_of_mem_eraseIdx hx)
    exact ⟨hid, hg.mono fun a ha => ⟨ha, rfl⟩⟩
  · rcases List.mem_append.1 hx with hx | hx
    · exact h.answers x hx
    · obtain rfl := List.mem_singleton.1 hx
      have hg := (h.readers r (List.mem_of_getElem? hr)).2
      rw [hpc] at hg
      exact hg

/-- A lookup that goes on. -/
theorem HcfSafe.loaded (h : HcfSafe s) {i : ℕ} {r : HcfReader} {pc : HcfReaderPc}
    (hr : s.readers[i]? = some r) (hg : pc.Good s r) :
    HcfSafe { s with readers := s.readers.set i { r with pc := pc } } := by
  refine ⟨(HcfStepCase.reader (.readerStep i) trivial _ s.clock s.answers).ledger h.ledger,
    fun x hx => ?_, h.answers⟩
  rcases List.mem_or_eq_of_mem_set hx with hx | rfl
  · obtain ⟨hid, hgx⟩ := h.readers x hx
    exact ⟨hid, hgx.mono fun a ha => ⟨ha, rfl⟩⟩
  · refine ⟨(h.readers r (List.mem_of_getElem? hr)).1, ?_⟩
    have hgood : pc.Good s { r with pc := pc } := by cases pc <;> exact hg
    exact hgood.mono fun a ha => ⟨ha, rfl⟩

theorem HcfSafe.readerStep (h : HcfSafe s) (i : ℕ) :
    ∃ s', hcfReaderStep i s = .ok s' ∧ HcfSafe s' := by
  unfold hcfReaderStep
  cases hr : s.readers[i]? with
  | none => exact ⟨s, rfl, h⟩
  | some r =>
    obtain ⟨pc, hload, hpc⟩ := hcfLoad_good h.ledger (h.readers r (List.mem_of_getElem? hr)).2
    cases hrpc : r.pc with
    | done loaded result =>
      exact ⟨_, by simp only [hrpc, pure_eq_ok], h.answered hr hrpc⟩
    | entered => exact ⟨_, by simp only [hrpc, hload, ok_bind, pure_eq_ok], h.loaded hr hpc⟩
    | descending loaded k runner =>
      exact ⟨_, by simp only [hrpc, hload, ok_bind, pure_eq_ok], h.loaded hr hpc⟩

/-- An event other than a lookup's leaves the lookups alone. -/
theorem hcfSwap_readers (p : Ptr) (s : HcfSys) : (hcfSwap p s).readers = s.readers ∧
    (hcfSwap p s).clock = s.clock ∧ (hcfSwap p s).answers = s.answers ∧
      (hcfSwap p s).mem = s.mem ∧ (hcfSwap p s).works = s.works ∧ (hcfSwap p s).log = s.log := by
  unfold hcfSwap
  cases s.tree <;> exact ⟨rfl, rfl, rfl, rfl, rfl, rfl⟩

/-- **Every event keeps the component safe**, and none faults. -/
theorem hcfSysStep_safe (h : HcfSafe s) (ev : HcfEvent) :
    ∃ s', hcfSysStep s ev = .ok s' ∧ HcfSafe s' ∧ HcfStepCase s ev s' := by
  obtain ⟨s', hrun, hcase⟩ := hcfSysStep_cases h.ledger ev fun i _ =>
    let ⟨s', hs', _⟩ := h.readerStep i
    ⟨s', hs'⟩
  refine ⟨s', hrun, ?_, hcase⟩
  have hcase' := hcase
  cases hcase with
  | idle _ hidle => exact h
  | register hroot hs hreg => exact h.step_other hcase' rfl rfl rfl
  | announce hw hlog => exact h.step_other hcase' rfl rfl rfl
  | retire hw hlog hnodes => exact h.step_other hcase' rfl rfl rfl
  | finish hw hlog hnodes => exact h.step_other hcase' rfl rfl rfl
  | callback hc hgrace => exact h.step_other hcase' rfl rfl rfl
  | historyStart hext => exact h.step_other hcase' rfl rfl rfl
  | historyEntry hb hx hroot hs hg => exact h.step_other hcase' rfl rfl rfl
  | historySwap hb hx =>
    obtain ⟨h1, h2, h3, -⟩ := hcfSwap_readers _ { s with builds := _ }
    exact h.step_other hcase' h1 h2 h3
  | swapNull =>
    obtain ⟨h1, h2, h3, -⟩ := hcfSwap_readers none s
    exact h.step_other hcase' h1 h2 h3
  | syncDone ho hgrace hacc hkeep => exact h.step_other hcase' rfl rfl rfl
  | reader _ hev readers clock answers =>
    -- the event is a lookup's own
    cases ev with
    | readerEnter source_ip ttl =>
      exact Except.ok.inj hrun ▸ h.readerEnter source_ip ttl
    | readerStep i =>
      obtain ⟨s₁, hs₁, hsafe⟩ := h.readerStep i
      exact Except.ok.inj (hs₁.symm.trans hrun) ▸ hsafe
    | _ => exact absurd hev id

/-! ## Runs -/

theorem hcfSysInit_safe (A : Supply) :
    ∃ s, hcfSysInit A.toAllocator = .ok s ∧ HcfSafe s := by
  obtain ⟨s, hinit, hled, hreaders, hanswers⟩ := hcfSysInit_ledger A
  refine ⟨s, hinit, hled, ?_, ?_⟩
  · intro r hr
    rw [hreaders] at hr
    cases hr
  · intro x hx
    rw [hanswers] at hx
    cases hx

/-- **No run faults**, whatever the order of its events. -/
theorem hcfSysRun_safe (h : HcfSafe s) (evs : List HcfEvent) :
    ∃ s', run hcfSysStep s evs = .ok s' ∧ HcfSafe s' := by
  refine run_invariant (P := fun _ _ => True) (fun s ev hs _ => ?_) h
    (along_of_forall (P := fun _ => True) fun _ _ => trivial)
  obtain ⟨s', hrun, hs', -⟩ := hcfSysStep_safe hs ev
  exact ⟨s', hrun, hs'⟩

/-- What a published node is, it is until it is freed. -/
theorem hcfSysRun_published {evs : List HcfEvent} (h : HcfSafe s) (ha : a ∈ s.mem)
    (hnot : a ∉ s.building) (hrun : run hcfSysStep s evs = .ok s')
    (hthere : Along hcfSysStep (fun s₁ ev => ∀ s₂, hcfSysStep s₁ ev = .ok s₂ → a ∈ s₂.mem) s evs) :
    s'.mem.lookup a = s.mem.lookup a := by
  induction evs generalizing s with
  | nil =>
    obtain rfl := Except.ok.inj hrun
    rfl
  | cons ev evs ih =>
    obtain ⟨s₁, hstep, hsafe, hcase⟩ := hcfSysStep_safe h ev
    rw [run_cons, hstep, ok_bind] at hrun
    have ha₁ := hthere.1 s₁ hstep
    obtain ⟨hsame, hnot₁⟩ := hcase.published h.ledger ha hnot ha₁
    rw [ih hsafe ha₁ hnot₁ hrun (hthere.2 s₁ hstep), hsame]

/-- What a register work queues is what the new tree does not share. -/
theorem hcfRegister_frees (h : HcfLedger s) {B : Supply} {task : HcfAddNodeTask}
    (hstep : hcfSysStep s (.register B task) = .ok s') (htree : s.tree ≠ none) :
    ∃ w, s'.works = s.works ++ [w] ∧ w.nodes_to_free.Nodup ∧
      ∀ a, a ∈ w.nodes_to_free ↔ Reach s.mem s.tree a ∧ ¬ Reach s'.mem s'.tree a := by
  obtain ⟨t, hroot, hs, hlive, hnd⟩ := h.exists_live
  have hne : t ≠ .nil := fun hnil => htree (by rw [← hroot, hnil, root_nil])
  obtain ⟨pub, m', t', hrun, hreg⟩ := hcfRegisterIpLocked_spec B task hs hne hnd
  have hs' : s' = { s with
      mem := m'
      tree := pub.new_root
      works := s.works ++ [⟨task, pub, false, pub.nodes_to_free⟩] } := by
    have hstep' : hcfRegister B.toAllocator task s = .ok s' := hstep
    rw [hcfRegister, ← hroot, hrun, ok_bind] at hstep'
    exact (Except.ok.inj hstep').symm
  subst hs'
  refine ⟨_, rfl, Multiset.coe_nodup.1 (Multiset.nodup_of_le hreg.olds_le hnd), fun c => ?_⟩
  have hold : Reach s.mem s.tree c ↔ c ∈ addrs t := hroot ▸ hs.reach_iff
  have hnew : Reach m' pub.new_root c ↔ c ∈ addrs t' := hreg.root_eq ▸ hreg.stored.reach_iff
  simp only [hold, hnew]
  constructor
  · intro hc
    have hct : c ∈ addrs t := Multiset.mem_of_le hreg.olds_le (Multiset.mem_coe.2 hc)
    exact ⟨hct, (h.live_or_freed hroot hs hreg hct).1 hc⟩
  · rintro ⟨hct, hct'⟩
    exact (h.live_or_freed hroot hs hreg hct).2 hct'

/-- **Reclamation is exact.** In every state any run reaches, the published tree
is stored without sharing and none of its nodes is on its way to be freed; the
five accounts are what is allocated, each node once; no work retains more nodes
than it has slots for; and the nodes of the next register work are those of the
old tree that its new one does not share. That the run does not fault says that
nothing was freed twice. -/
theorem hcfNodes_reclaimed (A : Supply) (evs : List HcfEvent) :
    ∃ s₀ s, hcfSysInit A.toAllocator = .ok s₀ ∧ run hcfSysStep s₀ evs = .ok s ∧
      (∃ t, root t = s.tree ∧ Stored s.mem t ∧ s.live = addrs t ∧ (addrs t).Nodup ∧
        ∀ a, a ∈ addrs t ↔ Reach s.mem s.tree a) ∧
      (∀ a, Reach s.mem s.tree a →
        a ∈ s.mem ∧ a ∉ s.replaced ∧ a ∉ s.retained ∧ a ∉ s.queued) ∧
      ((∀ b ∈ s.builds, IsTrie s.mem b.new_tree) ∧ ∀ o ∈ s.syncs, IsTrie s.mem o.old_root) ∧
      s.mem.allocated = s.live + s.building + s.replaced + s.retained + s.queued ∧
      s.mem.allocated.Nodup ∧
      (∀ w ∈ s.works, w.nodes_to_free.length ≤ 33) ∧
      ∀ B task s', hcfSysStep s (.register B task) = .ok s' → s.tree ≠ none →
        ∃ w, s'.works = s.works ++ [w] ∧ w.nodes_to_free.Nodup ∧
          ∀ a, a ∈ w.nodes_to_free ↔ Reach s.mem s.tree a ∧ ¬ Reach s'.mem s'.tree a := by
  obtain ⟨s₀, hinit, hsafe₀⟩ := hcfSysInit_safe A
  obtain ⟨s, hrun, hsafe⟩ := hcfSysRun_safe hsafe₀ evs
  have h := hsafe.ledger
  obtain ⟨t, hroot, hs, hlive, hnd⟩ := h.exists_live
  have hreach : ∀ a, a ∈ addrs t ↔ Reach s.mem s.tree a := fun a => (hroot ▸ hs.reach_iff).symm
  refine ⟨s₀, s, hinit, hrun, ⟨t, hroot, hs, hlive, hnd, hreach⟩, fun a ha => ?_,
    ⟨h.builds, h.syncs⟩, h.account, s.mem.nodup_allocated, h.slots, fun B task s' hstep htree =>
    hcfRegister_frees h hstep htree⟩
  have hin : a ∈ s.live := hlive ▸ (hreach a).2 ha
  have hone := h.count_le_one a
  have hpos := Multiset.count_pos.2 hin
  refine ⟨h.mem_of_live hin, fun hx => ?_, fun hx => ?_, fun hx => ?_⟩
  all_goals
    have := Multiset.count_pos.2 hx
    omega

/-- **Lookups are isolated.** In every run, however its events interleave with
the loads of lookups, no load faults; a lookup under way is at a node of the
tree it loaded, which is as it was; each lookup returned what it returns alone
on that tree; and a node of a published tree stays as it is until it is freed. -/
theorem hcfLookup_snapshot (A : Supply) (evs : List HcfEvent) :
    ∃ s₀ s, hcfSysInit A.toAllocator = .ok s₀ ∧ run hcfSysStep s₀ evs = .ok s ∧
      (∀ x ∈ s.answers,
        hcfLookupTree x.loaded.tree x.loaded.mem x.source_ip x.ttl = .ok x.result) ∧
      (∀ r ∈ s.readers, ∀ loaded k runner, r.pc = .descending loaded k runner →
        Reach loaded.mem loaded.tree runner ∧ runner ∈ s.mem ∧
          s.mem.lookup runner = loaded.mem.lookup runner) ∧
      ∀ a, Reach s.mem s.tree a → ∀ evs₁ s₁, run hcfSysStep s evs₁ = .ok s₁ →
        Along hcfSysStep (fun s₂ ev => ∀ s₃, hcfSysStep s₂ ev = .ok s₃ → a ∈ s₃.mem) s evs₁ →
        s₁.mem.lookup a = s.mem.lookup a := by
  obtain ⟨s₀, hinit, hsafe₀⟩ := hcfSysInit_safe A
  obtain ⟨s, hrun, hsafe⟩ := hcfSysRun_safe hsafe₀ evs
  have h := hsafe.ledger
  refine ⟨s₀, s, hinit, hrun, hsafe.answers, fun r hr loaded k runner hpc => ?_,
    fun a ha evs₁ s₁ hrun₁ hthere => ?_⟩
  · have hg := (hsafe.readers r hr).2
    rw [hpc] at hg
    obtain ⟨-, u, hroot, hs, hl, hvis, -⟩ := hg
    have hmem : runner ∈ addrs u := root_mem_addrs hroot
    obtain ⟨v, kids, rfl⟩ := root_eq_some.1 hroot
    exact ⟨(hvis runner hmem).2, hs.mem_of_addrs hmem, hs.1.trans hl.1.symm⟩
  · have hin : a ∈ s.live := h.live.mem_footprint.2 ha
    have hnot : a ∉ s.building := by
      intro hb
      have h1 := Multiset.count_pos.2 hin
      have h2 := Multiset.count_pos.2 hb
      have h3 := h.count_le_one a
      omega
    exact hcfSysRun_published hsafe (h.mem_of_live hin) hnot hrun₁ hthere

end Librefw
