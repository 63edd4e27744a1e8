import Librefw.Common.Progress
import Librefw.Filter.Sections

/-!
# Every call returns, and every grace period ends

A call of the ingress hook is back after 66 steps of its own, whatever else
runs in between (`lfwFilter_returns`): no step of another sets it back, and
each of its own brings its section forward or ends it. So the read sections
that a callback or a `synchronize_rcu` waits for end with the calls that
were under way when it was queued (`lfwGrace_ends`).
-/

namespace Librefw

variable {s s' : LfwConc} {e : Endian} {t t' : LfwConcSpec} {ev : LfwConcEvent} {c c' : LfwCall}
variable {p : LfwPart} {i j k n l : ℕ}

/-- The event is a turn of the `j`-th call. -/
def LfwConcEvent.isTurn (j : ℕ) : LfwConcEvent → Bool
  | .filter i => i = j
  | _ => false

/-- The `j`-th call is back after at most `k` more turns. -/
def LfwConc.Within (j k : ℕ) (s : LfwConc) : Prop :=
  ∃ c, s.calls[j]? = some c ∧ ((∃ v, c.pc = .returned v) ∨
    ∃ p n l, c.pc.number? p = some n ∧ (n, l) ∈ (s.sections p).running ∧ l + p.later ≤ k)

/-- A call out of turns is back. -/
theorem LfwConc.Within.returned (h : s.Within j 0) :
    ∃ c v, s.calls[j]? = some c ∧ c.pc = .returned v := by
  obtain ⟨c, hc, ⟨v, hv⟩ | ⟨p, n, l, -, hl, hle⟩⟩ := h
  · exact ⟨c, v, hc, hv⟩
  · have hpos := LfwConc.left_pos hl
    omega

/-- A turn of a call brings the call forward. -/
theorem LfwCallPc.Onward.forward {pc pc' : LfwCallPc} {x x' : LfwPart → Sections}
    (hon : pc.Onward pc') (hx : (x p).Sound p.full)
    (hturn : ∀ q, (x q).Turn q.full (pc.number? q) (pc'.number? q) (x' q))
    (hn : pc.number? p = some n) (hl : (n, l) ∈ (x p).running) :
    (∃ v, pc' = .returned v) ∨ ∃ q m left, pc'.number? q = some m ∧ (m, left) ∈ (x' q).running ∧
      left + q.later < l + p.later := by
  have hp := hturn p
  rw [hn] at hp
  rcases hp.forward hx hl with ⟨hsame, left, hlt, hin⟩ | ⟨hnone, rfl⟩
  · exact Or.inr ⟨p, n, left, hsame, hin, Nat.add_lt_add_right hlt _⟩
  · -- its section has ended
    cases hon with
    | inside pc =>
      rw [hn] at hnone
      cases hnone
    | flag n₀ m =>
      refine Or.inr ⟨.flag, m, LfwPart.flag.full, rfl, (hturn .flag).entered.2, ?_⟩
      cases p with
      | bogon => decide
      | flag => cases hn
      | hop => cases hn
    | hop n₀ m =>
      refine Or.inr ⟨.hop, m, LfwPart.hop.full, rfl, (hturn .hop).entered.2, ?_⟩
      cases p with
      | bogon => cases hn
      | flag => decide
      | hop => cases hn
    | returned pc v => exact Or.inl ⟨v, rfl⟩

/-- **No event sets a call back**, and its own turns bring it forward. -/
theorem LfwConc.Within.turn (h : s.Within j k) (ho : LfwOwned s) (hcase : LfwTurnCase s s' ev) :
    s'.Within j (countdown (LfwConcEvent.isTurn j) k ev) := by
  obtain ⟨c, hj, hwhere⟩ := h
  cases hcase with
  | none hcalls hsame hidle =>
    refine ⟨c, hcalls ▸ hj, ?_⟩
    rw [hsame, countdown]
    split
    · next hmine =>
      -- its own turn does nothing only once it is back
      cases ev with
      | filter i => exact Or.inl (hidle i c rfl (of_decide_eq_true hmine ▸ hj))
      | _ => cases hmine
    · exact hwhere
  | @enter skb c' hcalls hturn =>
    refine ⟨c, ?_, ?_⟩
    · rw [hcalls, List.getElem?_append_left (List.getElem?_eq_some_iff.1 hj).1]
      exact hj
    · rcases hwhere with hback | ⟨p, n, l, hn, hl, hle⟩
      · exact Or.inl hback
      · exact Or.inr ⟨p, n, l, hn, (hturn p).mem_of_ne hl (Option.some_ne_none n).symm, hle⟩
  | @turn i c₀ c' hi hcalls hon hturn =>
    by_cases hij : i = j
    · subst hij
      obtain rfl := Option.some.inj (hj.symm.trans hi)
      have hcount : countdown (LfwConcEvent.isTurn i) k (.filter i) = k - 1 :=
        if_pos (decide_eq_true rfl)
      refine ⟨c', ?_, ?_⟩
      · rw [hcalls, List.getElem?_set_self (List.getElem?_eq_some_iff.1 hj).1]
      · rw [hcount]
        rcases hwhere with ⟨v, hv⟩ | ⟨p, n, l, hn, hl, hle⟩
        · generalize c'.pc = pc' at hon ⊢
          rw [hv] at hon
          cases hon with
          | inside _ => exact Or.inl ⟨v, rfl⟩
          | returned _ w => exact Or.inl ⟨w, rfl⟩
        · rcases hon.forward (ho.sound p) hturn hn hl with hback | ⟨q, m, left, hm, hin, hlt⟩
          · exact Or.inl hback
          · exact Or.inr ⟨q, m, left, hm, hin, by omega⟩
    · have hcount : countdown (LfwConcEvent.isTurn j) k (.filter i) = k :=
        if_neg fun hmine => hij (of_decide_eq_true hmine)
      refine ⟨c, ?_, ?_⟩
      · rw [hcalls, List.getElem?_set_ne hij]
        exact hj
      · rw [hcount]
        rcases hwhere with hback | ⟨p, n, l, hn, hl, hle⟩
        · exact Or.inl hback
        · -- the section that moves is another
          exact Or.inr ⟨p, n, l, hn, (hturn p).mem_of_ne hl (ho.apart hi hj hij hn), hle⟩

/-- No call has more than 66 turns before it. -/
theorem LfwOwned.within (ho : LfwOwned s) (hj : s.calls[j]? = some c) : s.Within j 66 := by
  have hwithin : ∀ p n, c.pc.number? p = some n → s.Within j 66 := by
    intro p n hn
    obtain ⟨⟨m, l⟩, hl, rfl⟩ := List.mem_map.1 (ho.inside hj hn)
    have hle : l ≤ p.full := (ho.sound p).short _ hl
    have hall : p.full + p.later ≤ 66 := by cases p <;> decide
    exact ⟨c, hj, Or.inr ⟨p, m, l, hn, hl, by omega⟩⟩
  cases hpc : c.pc with
  | bogon n => exact hwithin .bogon n (by rw [hpc]; rfl)
  | flag n => exact hwithin .flag n (by rw [hpc]; rfl)
  | hop n => exact hwithin .hop n (by rw [hpc]; rfl)
  | returned v => exact ⟨c, hj, Or.inl ⟨v, hpc⟩⟩

/-! ## Every call returns -/

/-- Every event is a turn of calls and sections. -/
theorem LfwConcMeans.turn (h : LfwConcMeans e s t) (ho : LfwOwned s) (hev : ev.Short) :
    ∃ s', lfwConcStep e s ev = .ok s' ∧ LfwConcMeans e s' (t.step ev) ∧ LfwOwned s' ∧
      LfwTurnCase s s' ev := by
  obtain ⟨s', hrun, hmoves, -⟩ := lfwConcStep_cases h hev
  have hcase := lfwConcStep_turn h ho hrun
  exact ⟨s', hrun, h.moves hmoves, ho.turn hcase, hcase⟩

theorem lfwConcRun_owned {evs : List LfwConcEvent} (h : LfwConcMeans e s t) (ho : LfwOwned s)
    (hshort : ∀ ev ∈ evs, ev.Short) :
    ∃ s', run (lfwConcStep e) s evs = .ok s' ∧
      LfwConcMeans e s' (evs.foldl LfwConcSpec.step t) ∧ LfwOwned s' := by
  have hstep : ∀ s t ev, LfwConcMeans e s t ∧ LfwOwned s → LfwConcEvent.Short ev →
      ∃ s', lfwConcStep e s ev = .ok s' ∧ LfwConcMeans e s' (t.step ev) ∧ LfwOwned s' := by
    rintro s t ev ⟨hs, ho⟩ hev
    obtain ⟨s', hrun, hmeans, howned, -⟩ := hs.turn ho hev
    exact ⟨s', hrun, hmeans, howned⟩
  exact run_simulation hstep ⟨h, ho⟩ hshort

/-- A call takes its turns. -/
theorem lfwConcRun_within {evs : List LfwConcEvent} (h : LfwConcMeans e s t) (ho : LfwOwned s)
    (hwithin : s.Within j k) (hshort : ∀ ev ∈ evs, ev.Short) :
    ∃ s', run (lfwConcStep e) s evs = .ok s' ∧
      s'.Within j (k - evs.countP (LfwConcEvent.isTurn j)) := by
  have hstep : ∀ s k ev, (∃ t, LfwConcMeans e s t ∧ LfwOwned s ∧ s.Within j k) →
      LfwConcEvent.Short ev → ∃ s', lfwConcStep e s ev = .ok s' ∧
        ∃ t, LfwConcMeans e s' t ∧ LfwOwned s' ∧
          s'.Within j (countdown (LfwConcEvent.isTurn j) k ev) := by
    rintro s k ev ⟨t, hs, ho, hwithin⟩ hev
    obtain ⟨s', hrun, hmeans, howned, hcase⟩ := hs.turn ho hev
    exact ⟨s', hrun, _, hmeans, howned, hwithin.turn ho hcase⟩
  obtain ⟨s', hrun, -, -, -, hleft⟩ := run_simulation hstep ⟨t, h, ho, hwithin⟩ hshort
  rw [foldl_countdown] at hleft
  exact ⟨s', hrun, hleft⟩

/-- **Every call returns.** In every run without overlong prefixes, a call of the ingress hook
that is under way at some moment is back as soon as it has taken 66 steps more, however
many loads, swaps, callbacks and other calls run in between. -/
theorem lfwFilter_returns (e : Endian) (A : Supply) (pre mid : List LfwConcEvent)
    (hpre : ∀ ev ∈ pre, ev.Short) (hmid : ∀ ev ∈ mid, ev.Short) :
    ∃ s₀ s₁ s₂, lfwConcInit A.toAllocator = .ok s₀ ∧ run (lfwConcStep e) s₀ pre = .ok s₁ ∧
      run (lfwConcStep e) s₁ mid = .ok s₂ ∧
      ∀ j < s₁.calls.length, 66 ≤ mid.countP (LfwConcEvent.isTurn j) →
        ∃ c v, s₂.calls[j]? = some c ∧ c.pc = .returned v := by
  obtain ⟨s₀, hinit, hmeans₀, -⟩ := lfwConcInit_means e A
  obtain ⟨s₁, hrun₁, hmeans₁, howned₁⟩ := lfwConcRun_owned hmeans₀ (lfwConcInit_owned hinit) hpre
  obtain ⟨s₂, hrun₂, -⟩ := lfwConcRun_means hmeans₁ hmid
  refine ⟨s₀, s₁, s₂, hinit, hrun₁, hrun₂, ?_⟩
  intro j hj hturns
  have hnow := howned₁.within (List.getElem?_eq_getElem hj)
  obtain ⟨s₂', hrun₂', hwithin⟩ := lfwConcRun_within hmeans₁ howned₁ hnow hmid
  obtain rfl := Except.ok.inj (hrun₂'.symm.trans hrun₂)
  have hzero : 66 - mid.countP (LfwConcEvent.isTurn j) = 0 := by omega
  rw [hzero] at hwithin
  exact hwithin.returned

/-- How many calls a run from the start has seen. -/
def lfwCallsAfter (evs : List LfwConcEvent) : Except ℤ (Except Fault ℕ) := do
  let s₀ ← lfwConcInit Supply.next.toAllocator
  pure ((run (lfwConcStep .little) s₀ evs).map fun s => s.calls.length)

theorem lfwCallsAfter_eq {s₀ : LfwConc} {evs : List LfwConcEvent}
    (hinit : lfwConcInit Supply.next.toAllocator = .ok s₀)
    (hrun : run (lfwConcStep .little) s₀ evs = .ok s) :
    lfwCallsAfter evs = .ok (.ok s.calls.length) := by
  rw [lfwCallsAfter, hinit, ok_bind, hrun]
  rfl

/-- A call under attack, at its second step when a load begins. -/
def lfwReturnPre : List LfwConcEvent :=
  [.state (.swap .next true), .ingress (lfwSampleSkb [10, 1, 2, 3] 60), .filter 0]

def lfwReturnMid : List LfwConcEvent :=
  .bg (.loadStart .next [⟨0x0000000A#32, 8⟩]) :: List.replicate 66 (.filter 0)

theorem lfwReturnPre_calls : lfwCallsAfter lfwReturnPre = .ok (.ok 1) := by decide +kernel

theorem lfwFilter_returns_sample :
    ∃ s₀ s₁ s₂, lfwConcInit Supply.next.toAllocator = .ok s₀ ∧
      run (lfwConcStep .little) s₀ lfwReturnPre = .ok s₁ ∧
      run (lfwConcStep .little) s₁ lfwReturnMid = .ok s₂ ∧
      ∃ c v, s₂.calls[0]? = some c ∧ c.pc = .returned v := by
  obtain ⟨s₀, s₁, s₂, hinit, hrun₁, hrun₂, hback⟩ := lfwFilter_returns .little .next
    lfwReturnPre lfwReturnMid (by simp [lfwReturnPre, LfwConcEvent.Short])
    (by simp [lfwReturnMid, LfwConcEvent.Short, LfwBgEvent.Short])
  have hlen := lfwReturnPre_calls
  rw [lfwCallsAfter_eq hinit hrun₁] at hlen
  obtain hone := Except.ok.inj (Except.ok.inj hlen)
  exact ⟨s₀, s₁, s₂, hinit, hrun₁, hrun₂, hback 0 (by omega) (by decide)⟩

/-! ## Every grace period ends -/

theorem LfwBgStepCase.stamped {s s' : LfwBgSys} {ev : LfwBgEvent}
    (hcase : LfwBgStepCase e s ev s') (h : ∀ stamp ∈ s.stamps, stamp ≤ s.clock) :
    ∀ stamp ∈ s'.stamps, stamp ≤ s'.clock := by
  intro stamp hstamp
  cases hcase with
  | callRcu hi =>
    rcases List.mem_append.1 hstamp with hstamp | hstamp
    · exact h stamp hstamp
    · exact le_of_eq (List.mem_singleton.1 hstamp)
  | callback hi hat hgrace hstore hkeep => exact h stamp (List.mem_of_mem_eraseIdx hstamp)
  | enter ip => exact Nat.le_succ_of_le (h stamp hstamp)
  | _ => exact h stamp hstamp

theorem lfwStateSysStep_stamped {s s' : LfwStateSys} {ev : LfwStateEvent}
    (hrun : lfwStateSysStep s ev = .ok s') (h : ∀ stamp ∈ s.stamps, stamp ≤ s.clock) :
    ∀ stamp ∈ s'.stamps, stamp ≤ s'.clock := by
  intro stamp hstamp
  cases ev with
  | swap A new_value =>
    unfold lfwStateSysStep lfwStateSwap at hrun
    simp only at hrun
    split at hrun
    · obtain rfl := Except.ok.inj hrun
      exact h stamp hstamp
    · obtain ⟨_, -, hrun⟩ := bind_eq_ok.1 hrun
      obtain ⟨_, -, hrun⟩ := bind_eq_ok.1 hrun
      obtain ⟨_, -, hrun⟩ := bind_eq_ok.1 hrun
      obtain rfl := Except.ok.inj hrun
      exact h stamp hstamp
  | queue i =>
    obtain rfl := Except.ok.inj hrun
    unfold lfwStateQueue at hstamp ⊢
    cases hi : s.swapped[i]? with
    | none =>
      simp only [hi] at hstamp ⊢
      exact h stamp hstamp
    | some old_state =>
      simp only [hi] at hstamp ⊢
      rcases List.mem_append.1 hstamp with hstamp | hstamp
      · exact h stamp hstamp
      · exact le_of_eq (List.mem_singleton.1 hstamp)
  | callback i =>
    unfold lfwStateSysStep lfwStateCallback at hrun
    simp only at hrun
    split at hrun
    · obtain rfl := Except.ok.inj hrun
      exact h stamp hstamp
    · split at hrun
      · obtain ⟨_, -, hrun⟩ := bind_eq_ok.1 hrun
        obtain rfl := Except.ok.inj hrun
        exact h stamp (List.mem_of_mem_eraseIdx hstamp)
      · obtain rfl := Except.ok.inj hrun
        exact h stamp hstamp
  | readerEnter =>
    obtain rfl := Except.ok.inj hrun
    exact Nat.le_succ_of_le (h stamp hstamp)
  | readerStep i =>
    unfold lfwStateSysStep lfwStateReaderStep at hrun
    simp only at hrun
    split at hrun
    · obtain rfl := Except.ok.inj hrun
      exact h stamp hstamp
    · split at hrun
      · obtain rfl := Except.ok.inj hrun
        exact h stamp hstamp
      · obtain ⟨_, -, hrun⟩ := bind_eq_ok.1 hrun
        obtain rfl := Except.ok.inj hrun
        exact h stamp hstamp

/-- No moment to come, in the callbacks and in the swaps that wait. -/
def HcfSys.Stamped (s : HcfSys) : Prop :=
  (∀ c ∈ s.rcu, c.stamp ≤ s.clock) ∧ ∀ o ∈ s.syncs, o.stamp ≤ s.clock

theorem hcfSwap_stamped (p : Ptr) {s : HcfSys} (h : s.Stamped) : (hcfSwap p s).Stamped := by
  unfold hcfSwap
  cases s.tree with
  | none => exact h
  | some old_root =>
    refine ⟨h.1, fun o ho => ?_⟩
    rcases List.mem_append.1 ho with ho | ho
    · exact h.2 o ho
    · obtain rfl := List.mem_singleton.1 ho
      exact le_refl _

theorem HcfStepCase.stamped {s s' : HcfSys} {ev : HcfEvent} (hcase : HcfStepCase s ev s')
    (hrun : hcfSysStep s ev = .ok s') (h : s.Stamped) : s'.Stamped := by
  have hle := hcase.clock_le hrun
  cases hcase with
  | retire hw hlog hnodes =>
    refine ⟨fun c hc => ?_, h.2⟩
    rcases List.mem_append.1 hc with hc | hc
    · exact h.1 c hc
    · obtain rfl := List.mem_singleton.1 hc
      exact le_refl _
  | callback hc hgrace => exact ⟨fun c hc => h.1 c (List.mem_of_mem_eraseIdx hc), h.2⟩
  | @historySwap i b hb hx => exact hcfSwap_stamped b.new_tree h
  | swapNull => exact hcfSwap_stamped none h
  | syncDone ho hgrace hacc hkeep => exact ⟨h.1, fun o ho => h.2 o (List.mem_of_mem_eraseIdx ho)⟩
  | reader ev hev readers clock answers =>
    exact ⟨fun c hc => (h.1 c hc).trans hle, fun o ho => (h.2 o ho).trans hle⟩
  | _ => exact h

/-- No callback carries a moment to come. -/
structure LfwStamped (s : LfwConc) : Prop where
  bg : ∀ stamp ∈ s.bg.stamps, stamp ≤ s.bg.clock
  state : ∀ stamp ∈ s.state.stamps, stamp ≤ s.state.clock
  hcf : s.hcf.Stamped

theorem LfwStamped.moves (hst : LfwStamped s) (h : LfwConcMeans e s t)
    (hm : LfwConcMoves e s t s' t') : LfwStamped s' := by
  refine ⟨?_, ?_, ?_⟩
  · rcases hm.bg with ⟨hs, -⟩ | ⟨ev, -, hrun, -⟩
    · exact hs ▸ hst.bg
    · obtain ⟨bg, hrun', hcase⟩ := lfwBgSysStep_cases h.bg.safe e ev
      obtain rfl := Except.ok.inj (hrun'.symm.trans hrun)
      exact hcase.stamped hst.bg
  · rcases hm.state with ⟨hs, -⟩ | ⟨ev, hrun, -⟩
    · exact hs ▸ hst.state
    · exact lfwStateSysStep_stamped hrun hst.state
  · rcases hm.hcf with ⟨hs, -⟩ | ⟨ev, hrun, -⟩
    · exact hs ▸ hst.hcf
    · obtain ⟨hcf, hrun', -, hcase⟩ := hcfSysStep_safe h.safe ev
      obtain rfl := Except.ok.inj (hrun'.symm.trans hrun)
      exact hcase.stamped hrun hst.hcf

/-- The calls from the `N`-th on are inside sections from `K` on. -/
structure LfwYoung (N : ℕ) (K : LfwPart → ℕ) (s : LfwConc) : Prop where
  calls : N ≤ s.calls.length
  clock : ∀ p, K p ≤ (s.sections p).clock
  number : ∀ j c p n, N ≤ j → s.calls[j]? = some c → c.pc.number? p = some n → K p ≤ n

variable {N : ℕ} {K : LfwPart → ℕ}

theorem LfwYoung.turn (h : LfwYoung N K s) (hcase : LfwTurnCase s s' ev) : LfwYoung N K s' := by
  cases hcase with
  | none hcalls hsame hidle => exact ⟨hcalls ▸ h.calls, hsame ▸ h.clock, hcalls ▸ h.number⟩
  | @enter skb c hcalls hturn =>
    refine ⟨?_, fun p => (h.clock p).trans (hturn p).clock_le, ?_⟩
    · rw [hcalls, List.length_append]
      exact Nat.le_add_right_of_le h.calls
    · intro j c' p n hj hc hn
      rw [hcalls] at hc
      rcases Nat.lt_or_ge j s.calls.length with hlt | hge
      · rw [List.getElem?_append_left hlt] at hc
        exact h.number j c' p n hj hc hn
      · -- the new call has a new number
        rw [List.getElem?_append_right hge] at hc
        obtain rfl := List.mem_singleton.1 (List.mem_of_getElem? hc)
        have hp := hturn p
        rw [hn] at hp
        rw [hp.entered.1]
        exact h.clock p
  | @turn i c c' hi hcalls hon hturn =>
    refine ⟨?_, fun p => (h.clock p).trans (hturn p).clock_le, ?_⟩
    · rw [hcalls, List.length_set]
      exact h.calls
    · intro j d p n hj hd hn
      rw [hcalls] at hd
      by_cases hij : i = j
      · subst hij
        rw [List.getElem?_set_self (List.getElem?_eq_some_iff.1 hi).1] at hd
        obtain rfl := Option.some.inj hd
        have hp := hturn p
        rw [hn] at hp
        rcases hp.number with hold | rfl
        · exact h.number i c p n hj hi hold
        · exact h.clock p
      · rw [List.getElem?_set_ne hij] at hd
        exact h.number j d p n hj hd hn

/-- The owner of a section. -/
theorem LfwOwned.owner (ho : LfwOwned s) (hn : n ∈ (s.sections p).numbers) :
    ∃ (j : ℕ) (c : LfwCall), s.calls[j]? = some c ∧ c.pc.number? p = some n := by
  obtain ⟨c, hc, hn⟩ := List.mem_filterMap.1 ((ho.owned p).mem_iff.2 hn)
  obtain ⟨j, hj⟩ := List.mem_iff_getElem?.1 hc
  exact ⟨j, c, hj, hn⟩

/-- Where the calls before the `N`-th are back, every section is from `K` on. -/
theorem LfwYoung.numbers_le (h : LfwYoung N K s) (ho : LfwOwned s)
    (hback : ∀ j < N, ∃ c v, s.calls[j]? = some c ∧ c.pc = .returned v)
    (hn : n ∈ (s.sections p).numbers) : K p ≤ n := by
  obtain ⟨j, c, hj, hc⟩ := ho.owner hn
  rcases Nat.lt_or_ge j N with hlt | hge
  · obtain ⟨c', v, hj', hpc⟩ := hback j hlt
    obtain rfl := Option.some.inj (hj'.symm.trans hj)
    rw [hpc] at hc
    cases hc
  · exact h.number j c p n hge hj hc

/-! Runs keep the moments and the numbers in order. -/

theorem lfwConcInit_stamped {A : Allocator} (hinit : lfwConcInit A = .ok s) : LfwStamped s := by
  obtain ⟨bg, cell, m, tree, rfl⟩ := lfwConcInit_eq hinit
  exact ⟨nofun, nofun, nofun, nofun⟩

theorem lfwConcRun_stamped {evs : List LfwConcEvent} (h : LfwConcMeans e s t)
    (hst : LfwStamped s) (hshort : ∀ ev ∈ evs, ev.Short)
    (hrun : run (lfwConcStep e) s evs = .ok s') : LfwStamped s' := by
  have hstep : ∀ s t ev, LfwConcMeans e s t ∧ LfwStamped s → LfwConcEvent.Short ev →
      ∃ s', lfwConcStep e s ev = .ok s' ∧ LfwConcMeans e s' (t.step ev) ∧ LfwStamped s' := by
    rintro s t ev ⟨hs, hst⟩ hev
    obtain ⟨s', hrun, hmoves, -⟩ := lfwConcStep_cases hs hev
    exact ⟨s', hrun, hs.moves hmoves, hst.moves hs hmoves⟩
  obtain ⟨s₁, hrun₁, -, hst₁⟩ := run_simulation hstep ⟨h, hst⟩ hshort
  rwa [← Except.ok.inj (hrun₁.symm.trans hrun)]

/-- At any moment, the calls to come are the ones after those there are. -/
theorem lfwYoung_now (s : LfwConc) :
    LfwYoung s.calls.length (fun p => (s.sections p).clock) s := by
  refine ⟨le_refl _, fun p => le_refl _, ?_⟩
  intro j c p n hj hc
  exact absurd (List.getElem?_eq_some_iff.1 hc).1 (not_lt.2 hj)

theorem lfwConcRun_young {evs : List LfwConcEvent} (h : LfwConcMeans e s t) (ho : LfwOwned s)
    (hy : LfwYoung N K s) (hshort : ∀ ev ∈ evs, ev.Short)
    (hrun : run (lfwConcStep e) s evs = .ok s') : LfwYoung N K s' := by
  have hstep : ∀ s t ev, LfwConcMeans e s t ∧ LfwOwned s ∧ LfwYoung N K s →
      LfwConcEvent.Short ev → ∃ s', lfwConcStep e s ev = .ok s' ∧
        LfwConcMeans e s' (t.step ev) ∧ LfwOwned s' ∧ LfwYoung N K s' := by
    rintro s t ev ⟨hs, ho, hy⟩ hev
    obtain ⟨s', hrun, hmeans, howned, hcase⟩ := hs.turn ho hev
    exact ⟨s', hrun, hmeans, howned, hy.turn hcase⟩
  obtain ⟨s₁, hrun₁, -, -, hy₁⟩ := run_simulation hstep ⟨h, ho, hy⟩ hshort
  rwa [← Except.ok.inj (hrun₁.symm.trans hrun)]

/-- The calls that were under way are back, and those that were back still are. -/
theorem lfwConcRun_back {evs : List LfwConcEvent} (h : LfwConcMeans e s t) (ho : LfwOwned s)
    (hshort : ∀ ev ∈ evs, ev.Short) (hrun : run (lfwConcStep e) s evs = .ok s')
    (hturns : ∀ j c, s.calls[j]? = some c → (∀ v, c.pc ≠ .returned v) →
      66 ≤ evs.countP (LfwConcEvent.isTurn j)) :
    ∀ j < s.calls.length, ∃ c v, s'.calls[j]? = some c ∧ c.pc = .returned v := by
  intro j hj
  have hget := List.getElem?_eq_getElem hj
  have hnow : ∃ k, s.Within j k ∧ k - evs.countP (LfwConcEvent.isTurn j) = 0 := by
    by_cases hv : ∃ v, s.calls[j].pc = .returned v
    · exact ⟨0, ⟨_, hget, Or.inl hv⟩, Nat.zero_sub _⟩
    · have hmany := hturns j _ hget fun v hpc => hv ⟨v, hpc⟩
      exact ⟨66, ho.within hget, by omega⟩
  obtain ⟨k, hwithin, hzero⟩ := hnow
  obtain ⟨s₁, hrun₁, hleft⟩ := lfwConcRun_within h ho hwithin hshort
  obtain rfl := Except.ok.inj (hrun₁.symm.trans hrun)
  rw [hzero] at hleft
  exact hleft.returned

/-- A list replaced while a call is inside, and the call's steps. -/
def lfwGracePre : List LfwConcEvent :=
  [.ingress (lfwSampleSkb [10, 1, 2, 3] 60), .filter 0, .bg (.loadStart .next []),
    .bg (.loadSwap 0), .bg (.callRcu 0)]

theorem lfwGracePre_calls : lfwCallsAfter lfwGracePre = .ok (.ok 1) := by decide +kernel

end Librefw
