import Librefw.Filter.Progress

/-!
# The module comes to rest

What is in flight goes on without new packets and requests: loads insert
and swap, works announce and retire, callbacks run, calls look up. Each
such step does nothing or lowers one measure (`LfwConc.pending`), so what
goes on without idling stops, and where it has stopped nothing is left in
flight and what is allocated is what is published: `lfwConc_drains`.
-/

namespace Librefw

open PtrTrie

variable {s s' : LfwConc} {e : Endian} {t t' : LfwConcSpec} {ev : LfwConcEvent} {c c' : LfwCall}
variable {p : LfwPart} {i j k n : ℕ}

/-! ## What goes on -/

/-- Everything but requests: what was begun goes on. -/
def LfwBgEvent.Continues : LfwBgEvent → Prop
  | .loadStart _ _ => False
  | _ => True

def LfwStateEvent.Continues : LfwStateEvent → Prop
  | .swap _ _ => False
  | _ => True

def HcfEvent.Continues : HcfEvent → Prop
  | .register _ _ | .historyStart _ _ | .swapNull => False
  | _ => True

def LfwConcEvent.Continues : LfwConcEvent → Prop
  | .bg ev => ev.Continues
  | .state ev => ev.Continues
  | .hcf ev => ev.Continues
  | .ingress _ => False
  | .filter _ => True

theorem LfwConcEvent.Continues.short (h : ev.Continues) : ev.Short := by
  cases ev with
  | bg ev =>
    cases ev with
    | loadStart A prefixes => exact h.elim
    | _ => trivial
  | _ => trivial

/-! ## What is left to do -/

/-- A load inserts, swaps, and its old tree is queued and freed. -/
def LfwBgSys.pending (s : LfwBgSys) : ℕ :=
  (s.builds.map fun b => b.prefixes.length + 3).sum + 2 * s.swapped.length + s.stamps.length

def LfwStateSys.pending (s : LfwStateSys) : ℕ := 2 * s.swapped.length + s.stamps.length

/-- A work announces, queues its nodes and ends; each node is freed. -/
def HcfWork.pending (w : HcfWork) : ℕ :=
  (if w.logged then 1 else 2) + 2 * w.nodes_to_free.length

def HcfSys.pending (s : HcfSys) : ℕ :=
  (s.works.map HcfWork.pending).sum + (s.builds.map fun b => b.entries.length + 2).sum +
    s.syncs.length + s.rcu.length

/-- What calls have left to do. -/
def LfwConc.callsPending (s : LfwConc) : ℕ :=
  (s.sections .bogon).load LfwPart.bogon.later + (s.sections .flag).load LfwPart.flag.later +
    (s.sections .hop).load LfwPart.hop.later

def LfwConc.pending (s : LfwConc) : ℕ :=
  s.callsPending + s.bg.pending + s.state.pending + s.hcf.pending

/-! ## Every step of it lowers what is left -/

theorem LfwBgStepCase.settles {s s' : LfwBgSys} {ev : LfwBgEvent} (hcase : LfwBgStepCase e s ev s')
    (hcont : ev.Continues) (hev : ¬ ev.isLookup = true) : s' = s ∨ s'.pending < s.pending := by
  cases hcase with
  | start hexta hextc => exact hcont.elim
  | @insert A i b x rest line nodes t t' hb hx hroot hst hg hvals =>
    have hsum := sum_set (f := fun b : LfwBgBuild => b.prefixes.length + 3)
      (y := { b with prefixes := rest }) hb
    simp only [hx, List.length_cons] at hsum
    refine Or.inr ?_
    simp only [LfwBgSys.pending]
    omega
  | inserted h => exact Or.inl rfl
  | @swap i b hb hx =>
    have hsum := sum_eraseIdx (f := fun b : LfwBgBuild => b.prefixes.length + 3) hb
    simp only [hx, List.length_nil] at hsum
    refine Or.inr ?_
    simp only [LfwBgSys.pending, List.length_append, List.length_singleton]
    omega
  | early h => exact Or.inl rfl
  | @callRcu i old_tree hi =>
    have hlen := List.length_eraseIdx_add_one (List.getElem?_eq_some_iff.1 hi).1
    refine Or.inr ?_
    simp only [LfwBgSys.pending, List.length_append, List.length_singleton]
    omega
  | @callback i stamp a nodes hi hstamp hgrace hstore hkeep =>
    have hlen := List.length_eraseIdx_add_one (List.getElem?_eq_some_iff.1 hstamp).1
    refine Or.inr ?_
    simp only [LfwBgSys.pending]
    omega
  | idleRcu i => exact Or.inl rfl
  | idleCallback i => exact Or.inl rfl
  | enter ip => exact absurd rfl hev
  | load hr hload hgood hnext => exact absurd rfl hev
  | leave => exact absurd rfl hev

theorem lfwStateSysStep_settles {s s' : LfwStateSys} {ev : LfwStateEvent}
    (hrun : lfwStateSysStep s ev = .ok s') (hcont : ev.Continues) (hev : ¬ ev.isLookup = true) :
    s' = s ∨ s'.pending < s.pending := by
  cases ev with
  | swap A new_value => exact hcont.elim
  | queue i =>
    obtain rfl := Except.ok.inj hrun
    unfold lfwStateQueue
    cases hi : s.swapped[i]? with
    | none => exact Or.inl rfl
    | some old_state =>
      have hlen := List.length_eraseIdx_add_one (List.getElem?_eq_some_iff.1 hi).1
      refine Or.inr ?_
      simp only [LfwStateSys.pending, List.length_append, List.length_singleton]
      omega
  | callback i =>
    unfold lfwStateSysStep lfwStateCallback at hrun
    simp only at hrun
    cases hstamp : s.stamps[i]? with
    | none =>
      simp only [hstamp, pure_eq_ok, Except.ok.injEq] at hrun
      exact Or.inl hrun.symm
    | some stamp =>
      simp only [hstamp] at hrun
      split at hrun
      · obtain ⟨cell, -, hrun⟩ := bind_eq_ok.1 hrun
        obtain rfl := Except.ok.inj hrun
        have hlen := List.length_eraseIdx_add_one (List.getElem?_eq_some_iff.1 hstamp).1
        refine Or.inr ?_
        simp only [LfwStateSys.pending]
        omega
      · exact Or.inl (Except.ok.inj hrun).symm
  | readerEnter => exact absurd rfl hev
  | readerStep i => exact absurd rfl hev

theorem hcfSwap_pending (p : Ptr) (s : HcfSys) : (hcfSwap p s).pending ≤ s.pending + 1 := by
  unfold hcfSwap
  cases s.tree with
  | none => exact Nat.le_succ _
  | some old_root =>
    simp only [HcfSys.pending, List.length_append, List.length_singleton]
    omega

theorem HcfStepCase.settles {s s' : HcfSys} {ev : HcfEvent} (hcase : HcfStepCase s ev s')
    (hcont : ev.Continues) (hev : ¬ ev.isLookup = true) : s' = s ∨ s'.pending < s.pending := by
  cases hcase with
  | idle _ hidle => exact Or.inl rfl
  | register hroot hs hreg => exact hcont.elim
  | @announce i w hw hlog =>
    have hsum := sum_set (f := HcfWork.pending) (y := { w with logged := true }) hw
    have hold : w.pending = 2 + 2 * w.nodes_to_free.length := by
      rw [HcfWork.pending, hlog]
      rfl
    have hnew : HcfWork.pending { w with logged := true } = 1 + 2 * w.nodes_to_free.length := rfl
    refine Or.inr ?_
    simp only [HcfSys.pending]
    omega
  | @retire i w node rest hw hlog hnodes =>
    have hsum := sum_set (f := HcfWork.pending) (y := { w with nodes_to_free := rest }) hw
    have hold : w.pending = 1 + 2 * (rest.length + 1) := by
      rw [HcfWork.pending, hlog, hnodes]
      rfl
    have hnew : HcfWork.pending { w with nodes_to_free := rest } = 1 + 2 * rest.length := by
      show (if w.logged then 1 else 2) + _ = _
      rw [hlog]
      rfl
    refine Or.inr ?_
    simp only [HcfSys.pending, List.length_append, List.length_singleton]
    omega
  | @finish i w hw hlog hnodes =>
    have hsum := sum_eraseIdx (f := HcfWork.pending) hw
    have hold : 0 < w.pending := by
      rw [HcfWork.pending, hlog]
      exact Nat.lt_add_right _ Nat.one_pos
    refine Or.inr ?_
    simp only [HcfSys.pending]
    omega
  | @callback i c hc hgrace =>
    have hlen := List.length_eraseIdx_add_one (List.getElem?_eq_some_iff.1 hc).1
    refine Or.inr ?_
    simp only [HcfSys.pending]
    omega
  | historyStart hext => exact hcont.elim
  | @historyEntry A i b x rest t t' m' hb hx hroot hs hg =>
    have hsum := sum_set (f := fun b : HcfBuild => b.entries.length + 2)
      (y := { b with entries := rest }) hb
    simp only [hx, List.length_cons] at hsum
    refine Or.inr ?_
    simp only [HcfSys.pending]
    omega
  | @historySwap i b hb hx =>
    have hswap := hcfSwap_pending b.new_tree { s with builds := s.builds.eraseIdx i }
    have hsum := sum_eraseIdx (f := fun b : HcfBuild => b.entries.length + 2) hb
    simp only [hx, List.length_nil] at hsum
    refine Or.inr (lt_of_le_of_lt hswap ?_)
    simp only [HcfSys.pending]
    omega
  | swapNull => exact hcont.elim
  | @syncDone i o m' ho hgrace hacc hkeep =>
    have hlen := List.length_eraseIdx_add_one (List.getElem?_eq_some_iff.1 ho).1
    refine Or.inr ?_
    simp only [HcfSys.pending]
    omega
  | reader _ hlookup readers clock answers =>
    cases ev with
    | readerEnter source_ip ttl => exact absurd rfl hev
    | readerStep i => exact absurd rfl hev
    | _ => exact hlookup.elim

/-- A call that is not back lowers it with each turn. -/
theorem LfwTurnCase.callsPending_lt (hcase : LfwTurnCase s s' (.filter j))
    (hj : s.calls[j]? = some c) (hnot : ∀ v, c.pc ≠ .returned v) :
    s'.callsPending < s.callsPending := by
  cases hcase with
  | none hcalls hsame hidle =>
    obtain ⟨v, hv⟩ := hidle j c rfl hj
    exact absurd hv (hnot v)
  | @turn j c₀ c' hj' hcalls hon hturn =>
    obtain rfl := Option.some.inj (hj.symm.trans hj')
    have hb := hturn .bogon
    have hf := hturn .flag
    have hh := hturn .hop
    unfold LfwConc.callsPending
    generalize c'.pc = pc' at hon hb hf hh
    cases hpc : c.pc with
    | bogon n =>
      rw [hpc] at hon hb hf hh
      have hlt := hb.load_lt LfwPart.bogon.later
      cases hon with
      | inside pc =>
        have hstay := hf.load_stay LfwPart.flag.later
        have hstay' := hh.load_stay LfwPart.hop.later
        omega
      | flag n m =>
        have hleft := hb.load_left LfwPart.bogon.later
        have hin := hf.load_entered LfwPart.flag.later
        have hstay := hh.load_stay LfwPart.hop.later
        simp only [LfwPart.full, LfwPart.later] at *
        omega
      | returned pc v =>
        have hstay := hf.load_stay LfwPart.flag.later
        have hstay' := hh.load_stay LfwPart.hop.later
        omega
    | flag n =>
      rw [hpc] at hon hb hf hh
      have hlt := hf.load_lt LfwPart.flag.later
      cases hon with
      | inside pc =>
        have hstay := hb.load_stay LfwPart.bogon.later
        have hstay' := hh.load_stay LfwPart.hop.later
        omega
      | hop n m =>
        have hstay := hb.load_stay LfwPart.bogon.later
        have hleft := hf.load_left LfwPart.flag.later
        have hin := hh.load_entered LfwPart.hop.later
        simp only [LfwPart.full, LfwPart.later] at *
        omega
      | returned pc v =>
        have hstay := hb.load_stay LfwPart.bogon.later
        have hstay' := hh.load_stay LfwPart.hop.later
        omega
    | hop n =>
      rw [hpc] at hon hb hf hh
      have hlt := hh.load_lt LfwPart.hop.later
      cases hon with
      | inside pc =>
        have hstay := hb.load_stay LfwPart.bogon.later
        have hstay' := hf.load_stay LfwPart.flag.later
        omega
      | returned pc v =>
        have hstay := hb.load_stay LfwPart.bogon.later
        have hstay' := hf.load_stay LfwPart.flag.later
        omega
    | returned v => exact absurd hpc (hnot v)

/-! ## A step of a call is none of a writer -/

theorem lfwBgReaderStep_pending {s s' : LfwBgSys} (hrun : lfwBgReaderStep i s = .ok s') :
    s'.pending = s.pending := by
  unfold lfwBgReaderStep at hrun
  split at hrun
  · exact congrArg _ (Except.ok.inj hrun).symm
  · split at hrun
    · obtain rfl := Except.ok.inj hrun
      rfl
    · obtain ⟨pc, -, hrun⟩ := bind_eq_ok.1 hrun
      obtain rfl := Except.ok.inj hrun
      rfl

theorem lfwStateReaderStep_pending {s s' : LfwStateSys} (hrun : lfwStateReaderStep i s = .ok s') :
    s'.pending = s.pending := by
  unfold lfwStateReaderStep at hrun
  split at hrun
  · exact congrArg _ (Except.ok.inj hrun).symm
  · split at hrun
    · obtain rfl := Except.ok.inj hrun
      rfl
    · obtain ⟨pc, -, hrun⟩ := bind_eq_ok.1 hrun
      obtain rfl := Except.ok.inj hrun
      rfl

theorem hcfReaderStep_pending {s s' : HcfSys} (hrun : hcfReaderStep i s = .ok s') :
    s'.pending = s.pending := by
  unfold hcfReaderStep at hrun
  split at hrun
  · exact congrArg _ (Except.ok.inj hrun).symm
  · split at hrun
    · obtain rfl := Except.ok.inj hrun
      rfl
    · obtain ⟨pc, -, hrun⟩ := bind_eq_ok.1 hrun
      obtain rfl := Except.ok.inj hrun
      rfl

theorem lfwFilterStep_pending (hrun : lfwFilterStep j s = .ok s') :
    s'.bg.pending = s.bg.pending ∧ s'.state.pending = s.state.pending ∧
      s'.hcf.pending = s.hcf.pending := by
  unfold lfwFilterStep at hrun
  split at hrun
  · obtain rfl := Except.ok.inj hrun
    exact ⟨rfl, rfl, rfl⟩
  · split at hrun
    · obtain ⟨bg, hbg, hrun⟩ := bind_eq_ok.1 hrun
      have hsame := lfwBgReaderStep_pending hbg
      split at hrun
      · simp only at hrun
        split at hrun
        · obtain rfl := Except.ok.inj hrun
          exact ⟨hsame, rfl, rfl⟩
        · obtain rfl := Except.ok.inj hrun
          exact ⟨hsame, rfl, rfl⟩
      · obtain rfl := Except.ok.inj hrun
        exact ⟨hsame, rfl, rfl⟩
    · obtain ⟨state, hstate, hrun⟩ := bind_eq_ok.1 hrun
      have hsame := lfwStateReaderStep_pending hstate
      split at hrun
      · simp only at hrun
        split at hrun
        · obtain rfl := Except.ok.inj hrun
          exact ⟨rfl, hsame, rfl⟩
        · obtain rfl := Except.ok.inj hrun
          exact ⟨rfl, hsame, rfl⟩
      · obtain rfl := Except.ok.inj hrun
        exact ⟨rfl, hsame, rfl⟩
    · obtain ⟨hcf, hhcf, hrun⟩ := bind_eq_ok.1 hrun
      have hsame := hcfReaderStep_pending hhcf
      split at hrun
      · obtain rfl := Except.ok.inj hrun
        exact ⟨rfl, rfl, hsame⟩
      · obtain rfl := Except.ok.inj hrun
        exact ⟨rfl, rfl, hsame⟩
    · obtain rfl := Except.ok.inj hrun
      exact ⟨rfl, rfl, rfl⟩

/-- **What goes on does nothing or lowers what is left.** -/
theorem LfwConcMeans.settles (h : LfwConcMeans e s t) (ho : LfwOwned s) (hcont : ev.Continues)
    (hrun : lfwConcStep e s ev = .ok s') : s' = s ∨ s'.pending < s.pending := by
  have hturn := lfwConcStep_turn h ho hrun
  cases lfwConcStep_case h hrun with
  | lookup hev => exact Or.inl rfl
  | bg hev hcase =>
    rcases hcase.settles hcont hev with rfl | hlt
    · exact Or.inl rfl
    · refine Or.inr ?_
      unfold LfwConc.pending LfwConc.callsPending
      simp only [LfwConc.sections, hcase.same hev]
      omega
  | state hev hstate =>
    rcases lfwStateSysStep_settles hstate hcont hev with rfl | hlt
    · exact Or.inl rfl
    · refine Or.inr ?_
      unfold LfwConc.pending LfwConc.callsPending
      simp only [LfwConc.sections, h.state.same hstate hev]
      omega
  | hcf hev hcase =>
    rcases hcase.settles hcont hev with rfl | hlt
    · exact Or.inl rfl
    · refine Or.inr ?_
      unfold LfwConc.pending LfwConc.callsPending
      simp only [LfwConc.sections, hcase.same hev]
      omega
  | ingress skb => exact hcont.elim
  | @filter j _ hstep =>
    cases hj : s.calls[j]? with
    | none =>
      unfold lfwFilterStep at hstep
      simp only [hj, pure_eq_ok, Except.ok.injEq] at hstep
      exact Or.inl hstep.symm
    | some c =>
      by_cases hback : ∃ v, c.pc = .returned v
      · obtain ⟨v, hv⟩ := hback
        unfold lfwFilterStep at hstep
        simp only [hj, hv, pure_eq_ok, Except.ok.injEq] at hstep
        exact Or.inl hstep.symm
      · have hlt := hturn.callsPending_lt hj fun v hv => hback ⟨v, hv⟩
        obtain ⟨hbg, hstate, hhcf⟩ := lfwFilterStep_pending hstep
        refine Or.inr ?_
        unfold LfwConc.pending
        omega

/-! ## At rest -/

/-- A list that is the same without its first entry has none. -/
theorem eq_nil_of_eraseIdx {α : Type} {l : List α} (h : ∀ x, l[0]? = some x → l.eraseIdx 0 = l) :
    l = [] := by
  cases l with
  | nil => rfl
  | cons x l => exact absurd (congrArg List.length (h x rfl)) (by simp)

/-- The list at rest: no load is under way, and nothing waits. -/
theorem LfwBgSafe.rest {s : LfwBgSys} (h : LfwBgSafe s) (hreaders : s.readers = [])
    (hrest : ∀ ev, ev.Continues → ¬ ev.isLookup = true → lfwBgSysStep e s ev = .ok s) :
    s.builds = [] ∧ s.swapped = [] ∧ s.bg.rcu = [] := by
  have hgrace : ∀ stamp, s.graceOver stamp := by
    intro stamp r hr
    rw [hreaders] at hr
    exact absurd hr List.not_mem_nil
  refine ⟨eq_nil_of_eraseIdx fun b hb => ?_, eq_nil_of_eraseIdx fun old_tree hi => ?_, ?_⟩
  · cases hx : b.prefixes with
    | nil =>
      have heq := Except.ok.inj (hrest (.loadSwap 0) trivial nofun)
      have hbuilds := congrArg LfwBgSys.builds heq
      unfold lfwLoadSwap at hbuilds
      simp only [hb, hx] at hbuilds
      exact hbuilds
    | cons x rest =>
      -- a turn of the loop would leave one prefix less
      have heq := hrest (.loadPrefix .next 0) trivial nofun
      unfold lfwBgSysStep lfwLoadPrefix at heq
      simp only [hb, hx] at heq
      obtain ⟨tree, -, heq⟩ := bind_eq_ok.1 heq
      obtain ⟨line, -, heq⟩ := bind_eq_ok.1 heq
      have hbuilds := congrArg LfwBgSys.builds (Except.ok.inj heq)
      have hget := congrArg (fun l : List LfwBgBuild => l[0]?) hbuilds
      simp only [List.getElem?_set_self (List.getElem?_eq_some_iff.1 hb).1, hb,
        Option.some.injEq] at hget
      have hlen := congrArg (fun b : LfwBgBuild => b.prefixes.length) hget
      simp only [hx, List.length_cons] at hlen
      omega
  · have heq := Except.ok.inj (hrest (.callRcu 0) trivial nofun)
    have hswapped := congrArg LfwBgSys.swapped heq
    unfold lfwLoadCallRcu at hswapped
    simp only [hi] at hswapped
    exact hswapped
  · have hstamps : s.stamps = [] := by
      refine eq_nil_of_eraseIdx fun stamp hi => ?_
      have heq := hrest (.callback 0) trivial nofun
      unfold lfwBgSysStep lfwBgCallback at heq
      simp only [hi, hgrace stamp, if_true] at heq
      obtain ⟨bg, -, heq⟩ := bind_eq_ok.1 heq
      exact congrArg LfwBgSys.stamps (Except.ok.inj heq)
    have hlen := h.stamps
    rw [hstamps, List.length_nil] at hlen
    exact List.eq_nil_of_length_eq_zero hlen.symm

/-- The flag at rest. -/
theorem LfwStateMeans.rest {s : LfwStateSys} {flag : Bool} (h : LfwStateMeans s flag)
    (hreaders : s.readers = [])
    (hrest : ∀ ev, ev.Continues → ¬ ev.isLookup = true → lfwStateSysStep s ev = .ok s) :
    s.swapped = [] ∧ s.cell.rcu = [] := by
  refine ⟨eq_nil_of_eraseIdx fun old_state hi => ?_, ?_⟩
  · have heq := Except.ok.inj (hrest (.queue 0) trivial nofun)
    have hswapped := congrArg LfwStateSys.swapped heq
    unfold lfwStateQueue at hswapped
    simp only [hi] at hswapped
    exact hswapped
  · have hstamps : s.stamps = [] := by
      refine eq_nil_of_eraseIdx fun stamp hi => ?_
      have hgrace : s.graceOver stamp := by
        intro r hr
        rw [hreaders] at hr
        exact absurd hr List.not_mem_nil
      have heq := hrest (.callback 0) trivial nofun
      unfold lfwStateSysStep lfwStateCallback at heq
      simp only [hi, hgrace, if_true] at heq
      obtain ⟨cell, -, heq⟩ := bind_eq_ok.1 heq
      exact congrArg LfwStateSys.stamps (Except.ok.inj heq)
    have hlen := h.stamps
    rw [hstamps, List.length_nil] at hlen
    exact List.eq_nil_of_length_eq_zero hlen.symm

/-- The filter at rest: no work or message is under way, and nothing waits. -/
theorem hcfRest {s : HcfSys} (hreaders : s.readers = [])
    (hrest : ∀ ev, ev.Continues → ¬ ev.isLookup = true → hcfSysStep s ev = .ok s) :
    s.works = [] ∧ s.builds = [] ∧ s.syncs = [] ∧ s.rcu = [] := by
  have hgrace : ∀ stamp, s.graceOver stamp := by
    intro stamp r hr
    rw [hreaders] at hr
    exact absurd hr List.not_mem_nil
  refine ⟨eq_nil_of_eraseIdx fun w hw => ?_, eq_nil_of_eraseIdx fun b hb => ?_,
    eq_nil_of_eraseIdx fun o ho => ?_, eq_nil_of_eraseIdx fun c hc => ?_⟩
  · have hlt := (List.getElem?_eq_some_iff.1 hw).1
    cases hlog : w.logged with
    | false =>
      have hworks := congrArg HcfSys.works (Except.ok.inj (hrest (.announce 0) trivial nofun))
      unfold hcfAnnounce at hworks
      simp only [hw, hlog, Bool.false_eq_true, if_false] at hworks
      have hget := congrArg (fun l : List HcfWork => l[0]?) hworks
      simp only [List.getElem?_set_self hlt, hw, Option.some.injEq] at hget
      have hflag := congrArg HcfWork.logged hget
      rw [hlog] at hflag
      cases hflag
    | true =>
      have hworks := congrArg HcfSys.works (Except.ok.inj (hrest (.callRcu 0) trivial nofun))
      unfold hcfCallRcu at hworks
      simp only [hw, hlog, if_true] at hworks
      cases hnodes : w.nodes_to_free with
      | nil =>
        simp only [hnodes] at hworks
        exact hworks
      | cons node rest =>
        simp only [hnodes] at hworks
        have hget := congrArg (fun l : List HcfWork => l[0]?) hworks
        simp only [List.getElem?_set_self hlt, hw, Option.some.injEq] at hget
        have hlen := congrArg (fun w : HcfWork => w.nodes_to_free.length) hget
        simp only [hnodes, List.length_cons] at hlen
        omega
  · have hlt := (List.getElem?_eq_some_iff.1 hb).1
    cases hx : b.entries with
    | nil =>
      have heq := Except.ok.inj (hrest (.historySwap 0) trivial nofun)
      have hbuilds := congrArg HcfSys.builds heq
      unfold hcfHistorySwap hcfSwap at hbuilds
      simp only [hb, hx] at hbuilds
      cases htree : s.tree <;> simp only [htree] at hbuilds <;> exact hbuilds
    | cons x rest =>
      have heq := hrest (.historyEntry .next 0) trivial nofun
      unfold hcfSysStep hcfHistoryEntry at heq
      simp only [hb, hx] at heq
      obtain ⟨m, -, heq⟩ := bind_eq_ok.1 heq
      have hbuilds := congrArg HcfSys.builds (Except.ok.inj heq)
      have hget := congrArg (fun l : List HcfBuild => l[0]?) hbuilds
      simp only [List.getElem?_set_self hlt, hb, Option.some.injEq] at hget
      have hlen := congrArg (fun b : HcfBuild => b.entries.length) hget
      simp only [hx, List.length_cons] at hlen
      omega
  · have heq := hrest (.syncDone 0) trivial nofun
    unfold hcfSysStep hcfSyncDone at heq
    simp only [ho, hgrace o.stamp, if_true] at heq
    obtain ⟨m, -, heq⟩ := bind_eq_ok.1 heq
    exact congrArg HcfSys.syncs (Except.ok.inj heq)
  · have heq := hrest (.callback 0) trivial nofun
    unfold hcfSysStep hcfCallback at heq
    simp only [hc, hgrace c.stamp, if_true] at heq
    obtain ⟨m, -, heq⟩ := bind_eq_ok.1 heq
    exact congrArg HcfSys.rcu (Except.ok.inj heq)

/-- Nothing is in flight, and what is allocated is what is published. -/
structure LfwQuiet (s : LfwConc) : Prop where
  calls : ∀ c ∈ s.calls, ∃ v, c.pc = .returned v
  headers : s.bg.bg.trees.allocated.map some = {s.bg.bg.tree}
  nodes : s.bg.bg.nodes.allocated =
    footprint s.bg.bg.nodes (lfwRootAt s.bg.bg.trees s.bg.bg.tree)
  flag : s.state.cell.mem.allocated.map some = {s.state.cell.state}
  hop : s.hcf.mem.allocated = footprint s.hcf.mem s.hcf.tree

/-- **At rest, nothing is left over.** -/
theorem LfwConcMeans.quiet (h : LfwConcMeans e s t) (ho : LfwOwned s)
    (hrest : AtRest (lfwConcStep e) LfwConcEvent.Continues s) : LfwQuiet s := by
  have hcalls : ∀ c ∈ s.calls, ∃ v, c.pc = .returned v := by
    intro c hc
    obtain ⟨j, hj⟩ := List.mem_iff_getElem?.1 hc
    by_contra hnot
    have hcase := lfwConcStep_turn h ho (hrest (.filter j) trivial)
    exact lt_irrefl _ (hcase.callsPending_lt hj fun v hv => hnot ⟨v, hv⟩)
  -- so no section is left
  have hnone : ∀ p, (s.sections p).numbers = [] := by
    intro p
    refine List.eq_nil_iff_forall_not_mem.2 fun n hn => ?_
    obtain ⟨j, c, hj, hnum⟩ := ho.owner hn
    obtain ⟨v, hv⟩ := hcalls c (List.mem_of_getElem? hj)
    rw [hv] at hnum
    cases hnum
  have hbgnone : s.bg.readers = [] := List.map_eq_nil_iff.1 (numbers_bogon ▸ hnone .bogon)
  have hflagnone : s.state.readers = [] := List.map_eq_nil_iff.1 (numbers_flag ▸ hnone .flag)
  have hhopnone : s.hcf.readers = [] := List.map_eq_nil_iff.1 (numbers_hop ▸ hnone .hop)
  -- and each part is at rest
  obtain ⟨hbuilds, hswapped, hrcu⟩ := h.bg.safe.rest hbgnone fun ev hcont hev => by
    have heq := hrest (.bg ev) hcont
    unfold lfwConcStep at heq
    simp only [if_neg hev] at heq
    obtain ⟨bg, hbg, heq⟩ := bind_eq_ok.1 heq
    rw [hbg, ← congrArg LfwConc.bg (Except.ok.inj heq)]
  obtain ⟨hflagswapped, hflagrcu⟩ := h.state.rest hflagnone fun ev hcont hev => by
    have heq := hrest (.state ev) hcont
    unfold lfwConcStep at heq
    simp only [if_neg hev] at heq
    obtain ⟨state, hstate, heq⟩ := bind_eq_ok.1 heq
    rw [hstate, ← congrArg LfwConc.state (Except.ok.inj heq)]
  obtain ⟨hworks, hbuilds', hsyncs, hrcu'⟩ := hcfRest hhopnone fun ev hcont hev => by
    have heq := hrest (.hcf ev) hcont
    unfold lfwConcStep at heq
    simp only [if_neg hev] at heq
    obtain ⟨hcf, hhcf, heq⟩ := bind_eq_ok.1 heq
    rw [hhcf, ← congrArg LfwConc.hcf (Except.ok.inj heq)]
  have hone : s.bg.shared + s.bg.building = {s.bg.bg.tree} := by
    rw [LfwBgSys.shared, LfwBgSys.building, hbuilds, hswapped, hrcu]
    rfl
  refine ⟨hcalls, ?_, ?_, ?_, ?_⟩
  · rw [← h.bg.safe.store.trees_eq, hone]
  · rw [h.bg.safe.store.nodes_eq, hone, Multiset.singleton_bind]
  · rw [← h.state.allocated, LfwStateSys.objects, hflagswapped, hflagrcu]
    rfl
  · rw [h.safe.ledger.account, HcfSys.building, HcfSys.replaced, HcfSys.retained, HcfSys.queued,
      hworks, hbuilds', hsyncs, hrcu']
    simp only [held_nil, add_zero]
    rfl

/-- **The module comes to rest.** From every state that a run without overlong prefixes
reaches, what goes on without new packets and requests is bounded: a run of it in which every
event does something is no longer than what was pending. Some run of it comes to rest, and
wherever one does, every call is back, and the trees, nodes and objects that are allocated are
those of the published list, flag and filter and no others. -/
theorem lfwConc_drains (e : Endian) (A : Supply) (pre : List LfwConcEvent)
    (hpre : ∀ ev ∈ pre, ev.Short) :
    ∃ s₀ s₁, lfwConcInit A.toAllocator = .ok s₀ ∧ run (lfwConcStep e) s₀ pre = .ok s₁ ∧
      (∀ evs s₂, (∀ ev ∈ evs, ev.Continues) → Busy (lfwConcStep e) s₁ evs →
        run (lfwConcStep e) s₁ evs = .ok s₂ → evs.length + s₂.pending ≤ s₁.pending) ∧
      (∃ evs s₂, (∀ ev ∈ evs, ev.Continues) ∧ run (lfwConcStep e) s₁ evs = .ok s₂ ∧
        AtRest (lfwConcStep e) LfwConcEvent.Continues s₂) ∧
      ∀ evs s₂, (∀ ev ∈ evs, ev.Continues) → run (lfwConcStep e) s₁ evs = .ok s₂ →
        AtRest (lfwConcStep e) LfwConcEvent.Continues s₂ → LfwQuiet s₂ := by
  obtain ⟨s₀, hinit, hmeans₀, -⟩ := lfwConcInit_means e A
  obtain ⟨s₁, hrun₁, hmeans₁, howned₁⟩ := lfwConcRun_owned hmeans₀ (lfwConcInit_owned hinit) hpre
  have hstep : ∀ s ev, (∃ t, LfwConcMeans e s t ∧ LfwOwned s) → LfwConcEvent.Continues ev →
      ∃ s', lfwConcStep e s ev = .ok s' ∧ (∃ t, LfwConcMeans e s' t ∧ LfwOwned s') ∧
        (s' = s ∨ s'.pending < s.pending) := by
    rintro s ev ⟨t, hs, ho⟩ hcont
    obtain ⟨s', hrun, hmeans, howned, -⟩ := hs.turn ho hcont.short
    exact ⟨s', hrun, ⟨_, hmeans, howned⟩, hs.settles ho hcont hrun⟩
  refine ⟨s₀, s₁, hinit, hrun₁, ?_, exists_atRest hstep ⟨_, hmeans₁, howned₁⟩, ?_⟩
  · intro evs s₂ hcont hbusy hrun₂
    exact busy_length hstep ⟨_, hmeans₁, howned₁⟩ hcont hbusy hrun₂
  · intro evs s₂ hcont hrun₂ hrest
    obtain ⟨s₂', hrun₂', hmeans₂, howned₂⟩ :=
      lfwConcRun_owned hmeans₁ howned₁ fun ev hev => (hcont ev hev).short
    obtain rfl := Except.ok.inj (hrun₂'.symm.trans hrun₂)
    exact hmeans₂.quiet howned₂ hrest

/-- A call, a load and a history message, all half way. -/
def lfwDrainPre : List LfwConcEvent :=
  [.ingress (lfwSampleSkb [10, 1, 2, 3] 60), .filter 0,
    .bg (.loadStart .next [⟨0x0000000A#32, 8⟩]), .bg (.loadPrefix .next 0), .bg (.loadSwap 0),
    .hcf (.historyStart .next [⟨0x0A010203#32, 64, 4⟩])]

theorem lfwConc_drains_sample :
    ∃ s₀ s₁, lfwConcInit Supply.next.toAllocator = .ok s₀ ∧
      run (lfwConcStep .little) s₀ lfwDrainPre = .ok s₁ ∧
      ∃ evs s₂, run (lfwConcStep .little) s₁ evs = .ok s₂ ∧ LfwQuiet s₂ := by
  obtain ⟨s₀, s₁, hinit, hrun₁, -, ⟨evs, s₂, hcont, hrun₂, hrest⟩, hquiet⟩ :=
    lfwConc_drains .little .next lfwDrainPre
      (by simp [lfwDrainPre, LfwConcEvent.Short, LfwBgEvent.Short])
  exact ⟨s₀, s₁, hinit, hrun₁, evs, s₂, hrun₂, hquiet evs s₂ hcont hrun₂ hrest⟩

end Librefw
