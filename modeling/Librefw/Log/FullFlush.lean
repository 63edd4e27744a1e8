import Librefw.Log.Model.FullFlush
import Librefw.Log.Flush

/-!
# What a tick asks for

A tick asks for a full flush, and `log_pkt_filter_event` takes that back
when it counts to 200, whether or not its work is queued. The flag is what
the last of them left (`PktLogCpu.run_flag`), and every event is read,
overwritten or still to be read (`PktRing.Accounts`). So the worker run
after a tick flushes in full if each such packet was followed by a tick,
and the ring buffer overwrote nothing, and only then
(`pktTick_flushes_iff`).
-/

namespace Librefw

variable {s : PktLogCpu} {r : PktRing} {evs a b : List PktLogEvent} {ev : PktLogEvent} {id : ℕ}

/-! ## The ring buffer -/

/-- How often the event is found. -/
def PktRing.places (r : PktRing) (id : ℕ) : ℕ :=
  r.read.count id + r.lost.count id + r.pages.flatten.count id + r.current.count id

/-- Every event that was committed is in one place, and in that place once. -/
def PktRing.Accounts (r : PktRing) : Prop :=
  ∀ id, (id < r.committed → r.places id = 1) ∧ (r.committed ≤ id → r.places id = 0)

/-- What an overwritten page held is what the others no longer hold. -/
theorem count_flatten_eraseIdx (id : ℕ) (pages : List (List ℕ)) (i : ℕ) :
    (pages.eraseIdx i).flatten.count id + (pages[i]?.getD []).count id =
      pages.flatten.count id := by
  induction pages generalizing i with
  | nil => rfl
  | cons page pages ih =>
    rcases i with - | i
    · simp only [List.eraseIdx_cons_zero, List.getElem?_cons_zero, Option.getD_some,
        List.flatten_cons, List.count_append]
      omega
    · have hrest := ih i
      simp only [List.eraseIdx_cons_succ, List.getElem?_cons_succ, List.flatten_cons,
        List.count_append]
      omega

theorem PktRing.places_overwrite (i : ℕ) : (r.overwrite i).places id = r.places id := by
  have hpage := count_flatten_eraseIdx id r.pages i
  simp only [PktRing.places, PktRing.overwrite, List.count_append]
  omega

theorem PktRing.places_turn : r.turn.places id = r.places id := by
  simp only [PktRing.places, PktRing.turn]
  split
  · next hempty => rw [hempty]
  · simp only [List.flatten_append, List.flatten_singleton, List.count_append, List.count_nil]
    omega

theorem PktRing.places_commit (id : ℕ) :
    r.commit.places id = r.places id + if id = r.committed then 1 else 0 := by
  simp only [PktRing.places, PktRing.commit, List.count_append]
  split
  · next hid =>
    rw [hid, List.count_singleton_self]
    omega
  · next hid =>
    have hnew : [r.committed].count id = 0 := List.count_eq_zero_of_not_mem (by simpa using hid)
    omega

theorem PktRing.places_readPage (full : Bool) : (r.readPage full).2.places id = r.places id := by
  unfold PktRing.readPage
  split
  · next page pages hpages =>
    simp only [PktRing.places, hpages, List.flatten_cons, List.count_append]
    omega
  · split
    · rfl
    · simp only [PktRing.places, List.count_append, List.count_nil]
      omega

theorem PktRing.committed_readPage (full : Bool) : (r.readPage full).2.committed = r.committed := by
  unfold PktRing.readPage
  split
  · rfl
  · split <;> rfl

theorem PktRing.Accounts.of_same {r' : PktRing} (h : r.Accounts)
    (hcommitted : r'.committed = r.committed) (hplaces : ∀ id, r'.places id = r.places id) :
    r'.Accounts := by
  intro id
  rw [hcommitted, hplaces]
  exact h id

theorem PktRing.Accounts.commit (h : r.Accounts) : r.commit.Accounts := by
  intro id
  obtain ⟨hbelow, habove⟩ := h id
  have hcommitted : r.commit.committed = r.committed + 1 := rfl
  have hplaces := PktRing.places_commit (r := r) id
  split at hplaces <;> omega

theorem PktRing.Accounts.write (h : r.Accounts) (w : PktWrite) : (r.write w).Accounts := by
  have hover : (w.overwrites.elim r r.overwrite).Accounts := by
    cases w.overwrites with
    | none => exact h
    | some i => exact h.of_same rfl fun _ => PktRing.places_overwrite i
  have hturn : (if w.turns then (w.overwrites.elim r r.overwrite).turn
      else w.overwrites.elim r r.overwrite).Accounts := by
    split
    · exact hover.of_same rfl fun _ => PktRing.places_turn
    · exact hover
  unfold PktRing.write
  simp only
  split
  · exact hturn.commit
  · exact hturn

theorem PktRing.Accounts.readPage (h : r.Accounts) (full : Bool) :
    (r.readPage full).2.Accounts :=
  h.of_same (PktRing.committed_readPage full) fun _ => PktRing.places_readPage full

/-- **Nothing is left** when a read that takes the last page too finds nothing. -/
theorem PktRing.readPage_empty (h : (r.readPage false).1 < 0) : r.pages = [] ∧ r.current = [] := by
  unfold PktRing.readPage at h
  split at h
  · exact absurd h (lt_irrefl (0 : ℤ))
  · next hpages =>
    split at h
    · next hcurrent => exact ⟨hpages, by simpa using hcurrent⟩
    · exact absurd h (lt_irrefl (0 : ℤ))

/-- Then every event was read, unless it was overwritten. -/
theorem PktRing.Accounts.mem_read_iff (hr : r.Accounts) (h : (r.readPage false).1 < 0)
    (hid : id < r.committed) : id ∈ r.read ↔ id ∉ r.lost := by
  obtain ⟨hpages, hcurrent⟩ := readPage_empty h
  have hplaces := (hr id).1 hid
  rw [PktRing.places, hpages, hcurrent, List.flatten_nil, List.count_nil] at hplaces
  rw [← List.count_pos_iff, ← List.count_pos_iff]
  omega

/-- What was read was not overwritten. -/
theorem PktRing.Accounts.not_mem_lost (hr : r.Accounts) (hread : id ∈ r.read) : id ∉ r.lost := by
  obtain ⟨hbelow, habove⟩ := hr id
  have hpos := List.count_pos_iff.2 hread
  rw [PktRing.places] at hbelow habove
  rw [← List.count_pos_iff]
  omega

theorem PktRing.committed_le_write (w : PktWrite) : r.committed ≤ (r.write w).committed := by
  have hover : (w.overwrites.elim r r.overwrite).committed = r.committed := by
    cases w.overwrites <;> rfl
  unfold PktRing.write
  simp only
  split_ifs
  · exact hover.ge.trans (Nat.le_succ _)
  · exact hover.ge.trans (Nat.le_succ _)
  · exact hover.ge
  · exact hover.ge

/-! ## The flag -/

/-- A packet that counts to 200. -/
def PktLogCpu.counts (s : PktLogCpu) : PktLogEvent → Prop
  | .log _ => 200 ≤ (s.cpu.packet_counter + 1).toNat
  | _ => False

theorem PktCpu.queueWork_flag (c : PktCpu) : c.queueWork.full_pages_only = c.full_pages_only := by
  unfold queueWork
  split <;> rfl

/-- **The flag after an event**: a tick clears it, a packet that counts to 200 sets it, and
else it is what it was. -/
theorem PktLogCpu.step_flag (htimer : s.cpu.timer = true) (ev : PktLogEvent) :
    (s.step ev).cpu.full_pages_only = false ↔
      ev = .tick ∨ (s.cpu.full_pages_only = false ∧ ¬ s.counts ev) := by
  cases ev with
  | log w =>
    show PktCpu.full_pages_only (s.cpu.log) = false ↔ _
    unfold PktCpu.log
    simp only
    split
    · next hcount =>
      rw [PktCpu.queueWork_flag]
      exact iff_of_false Bool.true_eq_false.mp fun h => h.elim nofun fun hkept => hkept.2 hcount
    · next hcount =>
      constructor
      · intro hflag
        exact .inr ⟨hflag, hcount⟩
      · rintro (htick | ⟨hflag, -⟩)
        · exact nomatch htick
        · exact hflag
  | tick =>
    show PktCpu.full_pages_only (if s.cpu.timer then s.cpu.sched else s.cpu) = false ↔ _
    rw [if_pos htimer, PktCpu.sched, PktCpu.queueWork_flag]
    simp
  | _ =>
    simp only [step, event, PktCpu.step, counts]
    split <;> simp

theorem PktLogCpu.timer_step (htimer : s.cpu.timer = true) (ev : PktLogEvent) :
    (s.step ev).cpu.timer = true :=
  (PktCpu.step_keeps true (s.event ev)).1.trans htimer

/-- Every packet that counts to 200 is followed by a tick. -/
def PktLogCpu.TicksLast (s : PktLogCpu) (evs : List PktLogEvent) : Prop :=
  ∀ a ev b, evs = a ++ ev :: b → (s.run a).counts ev → .tick ∈ b

theorem PktLogCpu.ticksLast_cons :
    s.TicksLast (ev :: evs) ↔ (s.counts ev → .tick ∈ evs) ∧ (s.step ev).TicksLast evs := by
  constructor
  · intro h
    refine ⟨fun hcounts => h [] ev evs rfl hcounts, fun a ev' b hsplit hcounts => ?_⟩
    exact h (ev :: a) ev' b (by rw [hsplit]; rfl) hcounts
  · rintro ⟨hhead, hrest⟩ a ev' b hsplit hcounts
    cases a with
    | nil =>
      obtain ⟨rfl, rfl⟩ := List.cons.inj hsplit
      exact hhead hcounts
    | cons x a =>
      obtain ⟨rfl, hevs⟩ := List.cons.inj hsplit
      exact hrest a ev' b hevs hcounts

/-- **The flag after a run.** -/
theorem PktLogCpu.run_flag (htimer : s.cpu.timer = true) (evs : List PktLogEvent) :
    (s.run evs).cpu.full_pages_only = false ↔
      (s.cpu.full_pages_only = false ∨ .tick ∈ evs) ∧ s.TicksLast evs := by
  induction evs generalizing s with
  | nil => simp [run, TicksLast]
  | cons ev evs ih =>
    have hrun : s.run (ev :: evs) = (s.step ev).run evs := rfl
    -- A tick is no packet, so the first event does not both ask and take back.
    have htick : PktLogEvent.tick = ev → ¬ s.counts ev := by
      rintro rfl
      exact not_false
    rw [hrun, ih (timer_step htimer ev), step_flag htimer, ticksLast_cons, List.mem_cons,
      eq_comm (a := ev)]
    tauto

/-! ## Runs of the worker -/

/-- No event is taken back. -/
theorem PktLogCpu.committed_le_step (s : PktLogCpu) (ev : PktLogEvent) :
    s.ring.committed ≤ (s.step ev).ring.committed := by
  cases ev with
  | log w => exact PktRing.committed_le_write w
  | read =>
    show _ ≤ PktRing.committed (if s.cpu.running = some .reading then s.readPage.2 else s.ring)
    split
    · exact (PktRing.committed_readPage _).ge
    · exact le_rfl
  | _ => exact le_rfl

/-- What holds after any events, with `n` events committed before them. -/
structure PktLogCpu.Inv (n : ℕ) (s : PktLogCpu) : Prop where
  timer : s.cpu.timer = true
  accounts : s.ring.Accounts
  committed : n ≤ s.ring.committed

theorem PktLogCpu.inv_step {n : ℕ} (h : s.Inv n) (ev : PktLogEvent) : (s.step ev).Inv n := by
  refine ⟨timer_step h.timer ev, ?_, h.committed.trans (committed_le_step s ev)⟩
  cases ev with
  | log w => exact h.accounts.write w
  | read =>
    show PktRing.Accounts (if s.cpu.running = some .reading then s.readPage.2 else s.ring)
    split
    · exact h.accounts.readPage _
    · exact h.accounts
  | _ => exact h.accounts

theorem PktLogCpu.inv_run {n : ℕ} (h : s.Inv n) (evs : List PktLogEvent) : (s.run evs).Inv n := by
  induction evs generalizing s with
  | nil => exact h
  | cons ev evs ih => exact ih (inv_step h ev)

theorem PktLogCpu.inv_init : pktLogCpuInit.Inv 0 :=
  ⟨rfl, fun _ => ⟨nofun, fun _ => rfl⟩, le_rfl⟩

/-- After `pre` the timer ticks, and the next run of the worker to start has its last read
after `mid`. -/
structure PktTicked (evs pre mid : List PktLogEvent) : Prop where
  split : pre ++ .tick :: (mid ++ [.read]) <+: evs
  next : (pktLogRun (pre ++ .tick :: mid)).started = (pktLogRun pre).started + 1
  ends : (pktLogRun (pre ++ .tick :: mid)).ends = true

/-- Its last read is for a full flush, and each event from before the tick was read. -/
def PktFlushesFull (evs : List PktLogEvent) : Prop :=
  ∀ pre mid, PktTicked evs pre mid →
    (pktLogRun (pre ++ .tick :: mid)).cpu.full_pages_only = false ∧
    ∀ id < (pktLogRun pre).ring.committed, id ∈ (pktLogRun (pre ++ .tick :: mid)).ring.read

/-- Each packet since the tick that counted to 200 was followed by another tick, and no event
from before the tick was overwritten. -/
def PktTicksKept (evs : List PktLogEvent) : Prop :=
  ∀ pre mid, PktTicked evs pre mid →
    (pktLogRun (pre ++ [.tick])).TicksLast mid ∧
    ∀ id < (pktLogRun pre).ring.committed, id ∉ (pktLogRun (pre ++ .tick :: mid)).ring.lost

theorem pktLogRun_append (pre mid : List PktLogEvent) :
    pktLogRun (pre ++ .tick :: mid) = ((pktLogRun pre).step .tick).run mid := by
  simp only [pktLogRun, PktLogCpu.run, List.foldl_append, List.foldl_cons]

/-- **A tick's flush is full** exactly if no packet takes it back. -/
theorem pktTick_flushes_iff (evs : List PktLogEvent) : PktFlushesFull evs ↔ PktTicksKept evs := by
  refine forall_congr' fun pre => forall_congr' fun mid => imp_congr_right fun hticked => ?_
  have hends := hticked.ends
  have htick : pktLogRun (pre ++ [.tick]) = (pktLogRun pre).step .tick := pktLogRun_append pre []
  rw [pktLogRun_append] at hends ⊢
  rw [htick]
  have hpre : (pktLogRun pre).Inv 0 := PktLogCpu.inv_run PktLogCpu.inv_init pre
  have hstart : ((pktLogRun pre).step .tick).Inv (pktLogRun pre).ring.committed :=
    PktLogCpu.inv_step ⟨hpre.timer, hpre.accounts, le_rfl⟩ .tick
  have hlow : ((pktLogRun pre).step .tick).cpu.full_pages_only = false :=
    (PktLogCpu.step_flag hpre.timer .tick).2 (.inl rfl)
  have hend := PktLogCpu.inv_run hstart mid
  have hflag := PktLogCpu.run_flag hstart.timer mid
  constructor
  · rintro ⟨hfull, hread⟩
    exact ⟨(hflag.1 hfull).2, fun id hid => hend.accounts.not_mem_lost (hread id hid)⟩
  · rintro ⟨hlast, hlost⟩
    have hfull := hflag.2 ⟨.inl hlow, hlast⟩
    refine ⟨hfull, fun id hid => ?_⟩
    have hempty : ((((pktLogRun pre).step .tick).run mid).ring.readPage false).1 < 0 := by
      rw [← hfull]
      exact (of_decide_eq_true hends).2
    exact (hend.accounts.mem_read_iff hempty (hid.trans_le hend.committed)).2 (hlost id hid)

/-- A packet, a tick, and 200 packets more before the worker starts: its one read finds no
page that was left, and the first packet stays where it is. -/
theorem pktTick_flushes_burst :
    ¬ PktFlushesFull ([.log ⟨none, false, true⟩] ++ .tick ::
      ((List.replicate 200 (.log ⟨none, false, true⟩) ++ [.begin, .subbufSize]) ++ [.read])) := by
  intro h
  have hread := (h _ _ ⟨List.prefix_rfl, by decide +kernel, by decide +kernel⟩).2 0 (by decide)
  revert hread
  decide +kernel

end Librefw
