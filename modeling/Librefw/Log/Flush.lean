import Librefw.Log.Model.Flush

/-!
# When the flush worker has its page

The teardown frees the read pages before it waits for the flush works. By
then the timers are shut down and the hooks gone, so a work that neither
waits nor runs stays so, and its page may go (`PktInv`); one that waits or
runs reads once more before it ends, from a page that is no longer there
(`PktStuck`). So the worker always has its page if each page is freed
while its CPU's work is idle, and where the teardown gets past
`destroy_workqueue`, only then (`pktFlush_uses_iff`).
-/

namespace Librefw

variable {κ : Type} [DecidableEq κ] {online : List κ} {s s' : PktLog κ} {k : κ} {c : PktCpu}
variable {evs : List (PktEvent κ)}

/-! ## One CPU -/

theorem PktCpu.queueWork_keeps : c.queueWork.timer = c.timer ∧ c.queueWork.rpage = c.rpage := by
  unfold queueWork
  split <;> exact ⟨rfl, rfl⟩

/-- A work that is to be queued waits. -/
theorem PktCpu.queueWork_idle : c.queueWork.idle = false := by
  unfold queueWork idle
  split
  · next hq => simp [hq]
  · rfl

/-- **The events of a CPU shut down no timer and free no page.** -/
theorem PktCpu.step_keeps (logging : Bool) (ev : PktCpuEvent) :
    (c.step logging ev).timer = c.timer ∧ (c.step logging ev).rpage = c.rpage := by
  cases ev with
  | log =>
    show (if logging then c.log else c).timer = _ ∧ (if logging then c.log else c).rpage = _
    unfold PktCpu.log
    split
    · simp only
      split
      · exact queueWork_keeps
      · exact ⟨rfl, rfl⟩
    · exact ⟨rfl, rfl⟩
  | tick =>
    show (if c.timer then c.sched else c).timer = _ ∧ (if c.timer then c.sched else c).rpage = _
    split
    · exact queueWork_keeps
    · exact ⟨rfl, rfl⟩
  | _ =>
    simp only [step]
    split <;> exact ⟨rfl, rfl⟩

theorem PktCpu.idle_iff : c.idle = true ↔ c.queued = false ∧ c.running = none := by
  simp [idle]

/-- **An idle work stays idle**, with the timer shut down and no packets logged. -/
theorem PktCpu.step_of_idle (hidle : c.idle = true) (htimer : c.timer = false) (ev : PktCpuEvent) :
    c.step false ev = c := by
  obtain ⟨hqueued, hrunning⟩ := idle_iff.1 hidle
  cases ev <;> simp [step, htimer, hqueued, hrunning]

/-- **A work that is not idle** ends with a read, or not at all. -/
theorem PktCpu.step_busy (hbusy : c.idle = false) (logging : Bool) {ev : PktCpuEvent}
    (hread : ∀ offset, ev = .read offset → c.running ≠ some .reading) :
    (c.step logging ev).idle = false := by
  have hkeep : ∀ pc : PktFlushPc, ({ c with running := some pc } : PktCpu).idle = false := by
    intro pc
    simp [idle]
  cases ev with
  | log =>
    show (if logging then c.log else c).idle = false
    unfold PktCpu.log
    split
    · simp only
      split
      · exact queueWork_idle
      · exact hbusy
    · exact hbusy
  | tick =>
    show (if c.timer then c.sched else c).idle = false
    split
    · exact queueWork_idle
    · exact hbusy
  | begin =>
    simp only [step]
    split
    · rfl
    · exact hbusy
  | read offset =>
    simp only [step]
    rw [if_neg (hread offset rfl)]
    exact hbusy
  | _ =>
    simp only [step]
    split
    · exact hkeep _
    · exact hbusy

/-- What an update of one CPU leaves alone is the same on every CPU. -/
theorem PktCpu.update_keeps {γ : Type} (f : PktCpu → γ) {cpu : κ → PktCpu} {x : PktCpu} (k' : κ)
    (h : f x = f (cpu k)) : f (Function.update cpu k x k') = f (cpu k') := by
  by_cases heq : k' = k
  · rw [heq, Function.update_self, h]
  · rw [Function.update_of_ne heq]

/-! ## What is used, and when it may go -/

/-- `ring_buffer_read_page` and `process_rb_page` work on a page, a ring buffer and a state
that are there. -/
def PktUses (online : List κ) (s : PktLog κ) : PktEvent κ → Prop
  | .on k (.read _) => k ∈ online → (s.cpu k).running = some .reading →
      (s.cpu k).rpage = true ∧ s.events = true ∧ s.state = true
  | .on k .processRbPage => k ∈ online → (s.cpu k).running = some .sending →
      (s.cpu k).rpage = true ∧ s.events = true ∧ s.state = true
  | _ => True

/-- The CPU whose page is the next to be freed. -/
def PktPc.frees : PktPc κ → Option κ
  | .freePages (k :: _) => some k
  | _ => none

/-- A page is freed while the flush work of its CPU neither waits nor runs. -/
def PktQuiet (s : PktLog κ) : PktEvent κ → Prop
  | .teardown => ∀ k ∈ s.pc.frees, (s.cpu k).idle = true
  | .on _ _ => True

instance : (ev : PktEvent κ) → Decidable (PktUses online s ev)
  | .on k (.read _) => inferInstanceAs (Decidable (k ∈ online → _ → _ ∧ _ ∧ _))
  | .on k .processRbPage => inferInstanceAs (Decidable (k ∈ online → _ → _ ∧ _ ∧ _))
  | .on _ .log | .on _ .tick | .on _ .begin | .on _ .subbufSize | .on _ .noMessage | .teardown =>
    isTrue trivial

instance : (ev : PktEvent κ) → Decidable (PktQuiet s ev)
  | .teardown => inferInstanceAs (Decidable (∀ k ∈ s.pc.frees, _))
  | .on _ _ => isTrue trivial

/-- Past the first loop of the teardown. -/
def PktPc.stopped : PktPc κ → Bool
  | .logging | .shutdownTimers _ => false
  | _ => true

/-- Past `destroy_workqueue`. -/
def PktPc.drained : PktPc κ → Bool
  | .ringBufferFree | .kfree | .gone => true
  | _ => false

/-- What holds of a run that frees its pages quietly. -/
structure PktInv (online : List κ) (s : PktLog κ) : Prop where
  shut : ∀ rest, s.pc = .shutdownTimers rest → ∀ k ∈ online, k ∉ rest → (s.cpu k).timer = false
  stopped : s.pc.stopped = true → ∀ k ∈ online, (s.cpu k).timer = false
  pages : ∀ rest, s.pc = .freePages rest → rest ⊆ online
  freed : ∀ k ∈ online, (s.cpu k).rpage = false → (s.cpu k).idle = true ∧ s.pc.stopped = true
  drained : s.pc.drained = true → ∀ k ∈ online, (s.cpu k).idle = true
  there : s.pc.drained = false → s.events = true ∧ s.state = true

omit [DecidableEq κ] in
theorem pktLogInit_inv (online : List κ) : PktInv online pktLogInit where
  shut := nofun
  stopped := nofun
  pages := nofun
  freed := nofun
  drained := nofun
  there := fun _ => ⟨rfl, rfl⟩

omit [DecidableEq κ] in
/-- What is drained is stopped. -/
theorem PktPc.stopped_of_drained {pc : PktPc κ} (h : pc.drained = true) : pc.stopped = true := by
  cases pc with
  | logging => cases h
  | shutdownTimers rest => cases h
  | _ => rfl

/-- **An event on a CPU keeps the invariant.** -/
theorem PktInv.on (h : PktInv online s) (hk : k ∈ online) (ev : PktCpuEvent) :
    PktInv online (s.setCpu k ((s.cpu k).step (s.pc = .logging) ev)) := by
  obtain ⟨hstepTimer, hstepPage⟩ := (s.cpu k).step_keeps (s.pc = .logging) ev
  have htimer : ∀ k', ((s.setCpu k ((s.cpu k).step (s.pc = .logging) ev)).cpu k').timer =
      (s.cpu k').timer := fun k' => PktCpu.update_keeps PktCpu.timer k' hstepTimer
  have hrpage : ∀ k', ((s.setCpu k ((s.cpu k).step (s.pc = .logging) ev)).cpu k').rpage =
      (s.cpu k').rpage := fun k' => PktCpu.update_keeps PktCpu.rpage k' hstepPage
  have hidle : ∀ k' ∈ online, s.pc.stopped = true → (s.cpu k').idle = true →
      ((s.setCpu k ((s.cpu k).step (s.pc = .logging) ev)).cpu k').idle = true := by
    intro k' hk' hstopped hidle
    have hlogging : ¬ s.pc = .logging := by
      intro heq
      rw [heq] at hstopped
      cases hstopped
    by_cases heq : k' = k
    · -- no timer to fire, and no packet to log
      subst heq
      rw [decide_eq_false hlogging, PktCpu.step_of_idle hidle (h.stopped hstopped k' hk')]
      exact (PktCpu.update_keeps PktCpu.idle k' rfl).trans hidle
    · show (Function.update s.cpu k _ k').idle = true
      rw [Function.update_of_ne heq]
      exact hidle
  constructor
  · intro rest hrest k' hk' hnot
    rw [htimer]
    exact h.shut rest hrest k' hk' hnot
  · intro hstopped k' hk'
    rw [htimer]
    exact h.stopped hstopped k' hk'
  · exact h.pages
  · intro k' hk' hpage
    rw [hrpage] at hpage
    obtain ⟨hi, hstopped⟩ := h.freed k' hk' hpage
    exact ⟨hidle k' hk' hstopped hi, hstopped⟩
  · intro hdrained k' hk'
    exact hidle k' hk' (PktPc.stopped_of_drained hdrained) (h.drained hdrained k' hk')
  · exact h.there

/-- A timer is shut down. -/
theorem PktInv.shutdownTimer {rest : List κ} (h : PktInv online s)
    (hpc : s.pc = .shutdownTimers (k :: rest)) :
    PktInv online { s.setCpu k { s.cpu k with timer := false } with
      pc := .shutdownTimers rest } := by
  refine ⟨?_, nofun, nofun, fun k' hk' hpage => ?_, nofun, fun _ => h.there (by rw [hpc]; rfl)⟩
  · intro rest' hrest k' hk' hnot
    obtain rfl := PktPc.shutdownTimers.inj hrest
    show (Function.update s.cpu k { s.cpu k with timer := false } k').timer = false
    by_cases heq : k' = k
    · rw [heq, Function.update_self]
    · rw [Function.update_of_ne heq]
      exact h.shut (k :: rest) hpc k' hk' (by simp [heq, hnot])
  · -- no page is freed yet
    have hsame : (Function.update s.cpu k { s.cpu k with timer := false } k').rpage =
        (s.cpu k').rpage := PktCpu.update_keeps PktCpu.rpage k' rfl
    have hstopped := (h.freed k' hk' (hsame.symm.trans hpage)).2
    rw [hpc] at hstopped
    cases hstopped

/-- The page of an idle work is freed. -/
theorem PktInv.freePage {rest : List κ} (h : PktInv online s)
    (hpc : s.pc = .freePages (k :: rest)) (hquiet : (s.cpu k).idle = true) :
    PktInv online { s.setCpu k { s.cpu k with rpage := false } with pc := .freePages rest } := by
  have htimer : ∀ k', (Function.update s.cpu k { s.cpu k with rpage := false } k').timer =
      (s.cpu k').timer := fun k' => PktCpu.update_keeps PktCpu.timer k' rfl
  have hidle : ∀ k', (Function.update s.cpu k { s.cpu k with rpage := false } k').idle =
      (s.cpu k').idle := fun k' => PktCpu.update_keeps PktCpu.idle k' rfl
  refine ⟨nofun, fun _ k' hk' => ?_, ?_, fun k' hk' hpage => ⟨?_, rfl⟩, nofun,
    fun _ => h.there (by rw [hpc]; rfl)⟩
  · exact (htimer k').trans (h.stopped (by rw [hpc]; rfl) k' hk')
  · intro rest' hrest
    obtain rfl := PktPc.freePages.inj hrest
    exact (List.cons_subset.1 (h.pages _ hpc)).2
  · refine (hidle k').trans ?_
    by_cases heq : k' = k
    · rw [heq]
      exact hquiet
    · have hold : (s.cpu k').rpage = false := by
        rw [← hpage]
        show _ = (Function.update s.cpu k { s.cpu k with rpage := false } k').rpage
        rw [Function.update_of_ne heq]
      exact (h.freed k' hk' hold).1

/-- **A statement of the teardown keeps the invariant**, if a page it frees is that of an idle
work. -/
theorem PktInv.teardown (h : PktInv online s) (hquiet : PktQuiet s .teardown) :
    PktInv online (s.teardown online) := by
  obtain ⟨cpu, events, state, pc⟩ := s
  cases pc with
  | logging =>
    refine ⟨?_, nofun, nofun, fun k hk hpage => ?_, nofun, h.there⟩
    · rintro rest hrest k hk hnot
      obtain rfl := PktPc.shutdownTimers.inj hrest
      exact absurd hk hnot
    · have hstopped := (h.freed k hk hpage).2
      cases hstopped
  | shutdownTimers rest =>
    cases rest with
    | nil =>
      have htimer : ∀ k ∈ online, (cpu k).timer = false :=
        fun k hk => h.shut [] rfl k hk List.not_mem_nil
      refine ⟨nofun, fun _ => htimer, ?_, fun k hk hpage => ?_, nofun, h.there⟩
      · intro rest hrest
        obtain rfl := PktPc.freePages.inj hrest
        exact List.Subset.refl online
      · exact ⟨(h.freed k hk hpage).1, rfl⟩
    | cons k rest => exact h.shutdownTimer rfl
  | freePages rest =>
    cases rest with
    | nil =>
      exact ⟨nofun, fun _ => h.stopped rfl, nofun, fun k hk hpage => ⟨(h.freed k hk hpage).1, rfl⟩,
        nofun, h.there⟩
    | cons k rest => exact h.freePage rfl (hquiet k rfl)
  | destroyWorkqueue =>
    simp only [PktLog.teardown]
    split
    · next hidle =>
      exact ⟨nofun, fun _ => h.stopped rfl, nofun, fun k hk _ => ⟨hidle k hk, rfl⟩,
        fun _ => hidle, fun hdrained => nomatch hdrained⟩
    · exact h
  | ringBufferFree =>
    exact ⟨nofun, fun _ => h.stopped rfl, nofun, fun k hk hpage => ⟨(h.freed k hk hpage).1, rfl⟩,
      fun _ => h.drained rfl, fun hdrained => nomatch hdrained⟩
  | kfree =>
    exact ⟨nofun, fun _ => h.stopped rfl, nofun, fun k hk hpage => ⟨(h.freed k hk hpage).1, rfl⟩,
      fun _ => h.drained rfl, fun hdrained => nomatch hdrained⟩
  | gone => exact h

theorem PktInv.step {ev : PktEvent κ} (h : PktInv online s) (hquiet : PktQuiet s ev)
    (hstep : pktStep online s ev = .ok s') : PktInv online s' := by
  cases ev with
  | on k ev =>
    obtain rfl := Except.ok.inj hstep
    by_cases hk : k ∈ online
    · rw [if_pos hk]
      exact h.on hk ev
    · rw [if_neg hk]
      exact h
  | teardown =>
    obtain rfl := Except.ok.inj hstep
    exact h.teardown hquiet

omit [DecidableEq κ] in
/-- A CPU whose work is not idle has all that the worker uses. -/
theorem PktInv.busy (h : PktInv online s) (hk : k ∈ online) {pc : PktFlushPc}
    (hrunning : (s.cpu k).running = some pc) :
    (s.cpu k).rpage = true ∧ s.events = true ∧ s.state = true := by
  have hbusy : ¬ (s.cpu k).idle = true := by
    intro hidle
    rw [(PktCpu.idle_iff.1 hidle).2] at hrunning
    cases hrunning
  have hpage : (s.cpu k).rpage = true := by
    by_contra hfreed
    exact hbusy (h.freed k hk (Bool.eq_false_iff.2 hfreed)).1
  have hdrained : s.pc.drained = false := by
    by_contra hdrained
    exact hbusy (h.drained (Bool.eq_true_of_not_eq_false hdrained) k hk)
  exact ⟨hpage, h.there hdrained⟩

omit [DecidableEq κ] in
theorem PktInv.uses (h : PktInv online s) (ev : PktEvent κ) : PktUses online s ev := by
  cases ev with
  | teardown => trivial
  | on k ev =>
    cases ev with
    | read offset => exact fun hk hrunning => h.busy hk hrunning
    | processRbPage => exact fun hk hrunning => h.busy hk hrunning
    | _ => trivial

/-! ## A work that lost its page -/

/-- A statement of the teardown lets the works wait and run. -/
theorem PktLog.teardown_idle (s : PktLog κ) (k : κ) :
    ((s.teardown online).cpu k).idle = (s.cpu k).idle := by
  obtain ⟨cpu, events, state, pc⟩ := s
  cases pc with
  | shutdownTimers rest =>
    cases rest with
    | nil => rfl
    | cons k' rest => exact PktCpu.update_keeps PktCpu.idle k rfl
  | freePages rest =>
    cases rest with
    | nil => rfl
    | cons k' rest => exact PktCpu.update_keeps PktCpu.idle k rfl
  | destroyWorkqueue =>
    simp only [teardown]
    split <;> rfl
  | _ => rfl

/-- A page that was freed stays so. -/
theorem PktLog.teardown_freed (h : (s.cpu k).rpage = false) :
    ((s.teardown online).cpu k).rpage = false := by
  obtain ⟨cpu, events, state, pc⟩ := s
  cases pc with
  | shutdownTimers rest =>
    cases rest with
    | nil => exact h
    | cons k' rest =>
      have hsame : (Function.update cpu k' { cpu k' with timer := false } k).rpage =
          (cpu k).rpage := PktCpu.update_keeps PktCpu.rpage k rfl
      exact hsame.trans h
  | freePages rest =>
    cases rest with
    | nil => exact h
    | cons k' rest =>
      show (Function.update cpu k' { cpu k' with rpage := false } k).rpage = false
      by_cases heq : k = k'
      · rw [heq, Function.update_self]
      · rw [Function.update_of_ne heq]
        exact h
  | destroyWorkqueue =>
    simp only [teardown]
    split <;> exact h
  | _ => exact h

/-- The page is gone and the work is not idle: the teardown waits for it. -/
structure PktStuck (online : List κ) (k : κ) (s : PktLog κ) : Prop where
  mem : k ∈ online
  busy : (s.cpu k).idle = false
  freed : (s.cpu k).rpage = false
  waits : s.pc.drained = false

/-- The teardown does not get past `destroy_workqueue`. -/
theorem PktStuck.teardown (h : PktStuck online k s) : PktStuck online k (s.teardown online) := by
  refine ⟨h.mem, (s.teardown_idle k).trans h.busy, PktLog.teardown_freed h.freed, ?_⟩
  have hwaits := h.waits
  have hbusy : ¬ ∀ k ∈ online, (s.cpu k).idle = true := by
    intro hidle
    have hbusy := h.busy
    rw [hidle k h.mem] at hbusy
    cases hbusy
  obtain ⟨cpu, events, state, pc⟩ := s
  cases pc with
  | logging => rfl
  | shutdownTimers rest => cases rest <;> rfl
  | freePages rest => cases rest <;> rfl
  | destroyWorkqueue =>
    simp only [PktLog.teardown]
    rw [if_neg hbusy]
    rfl
  | ringBufferFree => cases hwaits
  | kfree => cases hwaits
  | gone => cases hwaits

/-- **The work cannot end well**: as long as what is used is there, it does not end. -/
theorem PktStuck.step {ev : PktEvent κ} (h : PktStuck online k s) (huses : PktUses online s ev)
    (hstep : pktStep online s ev = .ok s') : PktStuck online k s' := by
  cases ev with
  | on k' ev =>
    obtain rfl := Except.ok.inj hstep
    by_cases hk' : k' ∈ online
    · rw [if_pos hk']
      have hkeep := ((s.cpu k').step_keeps (s.pc = .logging) ev).2
      refine ⟨h.mem, ?_, (PktCpu.update_keeps PktCpu.rpage k hkeep).trans h.freed, h.waits⟩
      show (Function.update s.cpu k' _ k).idle = false
      by_cases heq : k = k'
      · subst heq
        have hread : ∀ offset, ev = .read offset → (s.cpu k).running ≠ some .reading := by
          rintro offset rfl hrunning
          have hpage := (huses hk' hrunning).1
          rw [h.freed] at hpage
          cases hpage
        rw [Function.update_self]
        exact PktCpu.step_busy h.busy _ hread
      · rw [Function.update_of_ne heq]
        exact h.busy
    · rw [if_neg hk']
      exact h
  | teardown =>
    obtain rfl := Except.ok.inj hstep
    exact h.teardown

omit [DecidableEq κ] in
theorem PktPc.eq_of_frees {pc : PktPc κ} (h : k ∈ pc.frees) :
    ∃ rest, pc = .freePages (k :: rest) := by
  cases pc with
  | freePages rest =>
    cases rest with
    | nil => cases h
    | cons k' rest =>
      obtain rfl := Option.some.inj h
      exact ⟨rest, rfl⟩
  | _ => cases h

/-- A page freed under a work that is not idle. -/
theorem PktInv.stuck {rest : List κ} (h : PktInv online s) (hpc : s.pc = .freePages (k :: rest))
    (hbusy : ¬ (s.cpu k).idle = true) : PktStuck online k (s.teardown online) := by
  obtain ⟨cpu, events, state, pc⟩ := s
  obtain rfl : pc = .freePages (k :: rest) := hpc
  refine ⟨h.pages _ rfl List.mem_cons_self, ?_, ?_, rfl⟩
  · show (Function.update cpu k { cpu k with rpage := false } k).idle = false
    rw [Function.update_self]
    exact Bool.eq_false_iff.2 hbusy
  · show (Function.update cpu k { cpu k with rpage := false } k).rpage = false
    rw [Function.update_self]

/-! ## Runs -/

/-- A run that gets past `destroy_workqueue` with all it used in place has freed its pages
quietly. -/
theorem pktQuiet_of_uses (h : PktInv online s) (huses : Along (pktStep online) (PktUses online) s evs)
    (hrun : run (pktStep online) s evs = .ok s') (hdrained : s'.pc.drained = true) :
    Along (pktStep online) PktQuiet s evs := by
  induction evs generalizing s with
  | nil => trivial
  | cons ev evs ih =>
    rw [run_cons] at hrun
    obtain ⟨s₁, hs₁, hrest⟩ := bind_eq_ok.1 hrun
    have hquiet : PktQuiet s ev := by
      cases ev with
      | on k ev => trivial
      | teardown =>
        intro k hfrees
        by_contra hbusy
        obtain ⟨rest, hpc⟩ := PktPc.eq_of_frees hfrees
        obtain rfl := Except.ok.inj hs₁
        have hstuck : PktStuck online k s' :=
          run_keeps_along (fun _ _ _ hst hu hstep => hst.step hu hstep) (h.stuck hpc hbusy)
            (huses.2 _ rfl) hrest
        have hwaits := hstuck.waits
        rw [hdrained] at hwaits
        cases hwaits
    refine ⟨hquiet, fun s₂ hs₂ => ?_⟩
    obtain rfl := Except.ok.inj (hs₁.symm.trans hs₂)
    exact ih (h.step hquiet hs₁) (huses.2 _ hs₁) hrest

/-- **When the worker has its page.** On any number of CPUs, in any run of packets, timers,
flush works and the statements of the teardown in which each page is freed while its CPU's
work neither waits nor runs, each `ring_buffer_read_page` and `process_rb_page` works on a
page, a ring buffer and a state that have not been freed; and of the runs that get past
`destroy_workqueue` it is in no others. -/
theorem pktFlush_uses_iff (online : List κ) (evs : List (PktEvent κ)) :
    (Along (pktStep online) PktQuiet pktLogInit evs →
      Along (pktStep online) (PktUses online) pktLogInit evs) ∧
    ∀ s, run (pktStep online) pktLogInit evs = .ok s → s.pc.drained = true →
      (Along (pktStep online) (PktUses online) pktLogInit evs ↔
        Along (pktStep online) PktQuiet pktLogInit evs) := by
  have hforward : Along (pktStep online) PktQuiet pktLogInit evs →
      Along (pktStep online) (PktUses online) pktLogInit evs :=
    Along.imp (fun s ev h hquiet => ⟨h.uses ev, fun s' hstep => h.step hquiet hstep⟩)
      (pktLogInit_inv online)
  refine ⟨hforward, fun s hrun hdrained => ⟨fun huses => ?_, hforward⟩⟩
  exact pktQuiet_of_uses (pktLogInit_inv online) huses hrun hdrained

/-- A timer, its work done, and the teardown to its end. -/
def pktSampleRun : List (PktEvent ℕ) :=
  [.on 0 .tick, .on 0 .begin, .on 0 .subbufSize, .on 0 (.read 16), .on 0 .processRbPage,
    .on 0 (.read (-1))] ++ List.replicate 10 .teardown

theorem pktFlush_uses_sample :
    Along (pktStep [0, 1]) (PktUses [0, 1]) pktLogInit pktSampleRun ∧
    ∃ s, run (pktStep [0, 1]) pktLogInit pktSampleRun = .ok s ∧ s.pc.drained = true ∧
      (Along (pktStep [0, 1]) (PktUses [0, 1]) pktLogInit pktSampleRun ↔
        Along (pktStep [0, 1]) PktQuiet pktLogInit pktSampleRun) := by
  obtain ⟨hforward, hiff⟩ := pktFlush_uses_iff [0, 1] pktSampleRun
  have hquiet : Along (pktStep [0, 1]) PktQuiet pktLogInit pktSampleRun := by decide
  exact ⟨hforward hquiet, _, rfl, by decide, hiff _ rfl (by decide)⟩

/-- The module goes while a work that the timer queued waits. -/
theorem pktFlush_uses_freed : ¬ ∀ (online : List ℕ) (evs : List (PktEvent ℕ)),
    Along (pktStep online) (PktUses online) pktLogInit evs := by
  intro h
  have huses := h [0] ([.on 0 .tick] ++ List.replicate 4 .teardown ++
    [.on 0 .begin, .on 0 .subbufSize, .on 0 (.read 16)])
  exact absurd huses (by decide)

end Librefw
