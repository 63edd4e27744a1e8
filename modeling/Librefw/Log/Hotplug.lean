import Librefw.Log.Model.Hotplug
import Librefw.Log.Flush

/-!
# Which CPUs the packet log knows

The loop of `init_pkt_filter_log_state` sets up the CPUs that are online
then, and nothing sets up one that comes later. Such a CPU does no harm as
long as its own packets do not count to 200 and no timer of another CPU
comes to expire on it (`PktPlug.uses_iff`). At the end the pages that are
freed are those of the CPUs online then, so these have to be the same
again. Together this is when each tracker in use was set up, and each page
is freed once (`pktPlug_follows_iff`).
-/

namespace Librefw

variable {nr : ℕ} {online : Finset (Fin nr)} {s s' : PktPlug nr} {k : Fin nr}
variable {evs : List (PktPlugEvent nr)}

/-! ## The property -/

/-- The CPUs whose work an event queues or takes on, or whose timer or read page it uses. -/
def PktPlug.uses (s : PktPlug nr) : PktPlugEvent nr → List (Fin nr)
  | .up _ | .down _ _ => []
  | .log k =>
    if k ∈ s.cpus.online ∧ 200 ≤ ((s.cpu k).packet_counter + 1).toNat then [k] else []
  | .tick k => if (s.cpu k).timer then [k, s.cpus.base k] else []
  | .worker k _ => if (s.cpu k).idle then [] else [k]

/-- `free_pkt_filter_log_state` uses the timer and the page of the CPU, or waits for its
work. -/
def PktPlug.FreeUses (s : PktPlug nr) (k : Fin nr) : Prop :=
  k ∈ s.cpus.online ∨ (s.cpu k).idle = false

/-- What is used belongs to a CPU that was set up, and each page is freed once. -/
structure PktFollowsCpus (online : Finset (Fin nr)) (evs : List (PktPlugEvent nr)) : Prop where
  uses : Along pktPlugStep (fun s ev => ∀ k ∈ s.uses ev, (s.tracker k).IsSetUp)
    (pktPlugInit online) evs
  free_uses : ∀ s, run pktPlugStep (pktPlugInit online) evs = .ok s →
    ∀ k, s.FreeUses k → (s.tracker k).IsSetUp
  freed : ∀ s, run pktPlugStep (pktPlugInit online) evs = .ok s →
    ∃ s', s.free = .ok s' ∧ ∀ k, (s'.tracker k).rpage = true → s'.freed.count k = 1

/-- The CPUs as `init_pkt_filter_log_state` finds them. -/
def pktCpusInit (online : Finset (Fin nr)) : PktCpus nr := ⟨online, id, fun _ => 0⟩

def pktCpusStep (c : PktCpus nr) (ev : PktPlugEvent nr) : Except Fault (PktCpus nr) :=
  pure (c.step ev)

/-- A CPU that was not online at first logs fewer than 200 packets, and no timer expires
on it. -/
def PktCpus.Kept (online : Finset (Fin nr)) (c : PktCpus nr) : PktPlugEvent nr → Prop
  | .log k => k ∈ c.online → k ∉ online → c.logged k + 1 < 200
  | .tick k => k ∈ online → c.base k ∈ online
  | _ => True

/-- So it is all along, and in the end the CPUs are those of the beginning. -/
structure PktCpusKept (online : Finset (Fin nr)) (evs : List (PktPlugEvent nr)) : Prop where
  along : Along pktCpusStep (PktCpus.Kept online) (pktCpusInit online) evs
  same : (evs.foldl PktCpus.step (pktCpusInit online)).online = online

/-! ## The loops -/

@[simp] theorem PktPlug.setCpu_self (s : PktPlug nr) (k : Fin nr) (c : PktCpu) :
    (s.setCpu k c).cpu k = c := Function.update_self ..

theorem PktPlug.setCpu_ne {i : Fin nr} (h : k ≠ i) (c : PktCpu) : (s.setCpu i c).cpu k = s.cpu k :=
  Function.update_of_ne h ..

theorem mem_forEachOnlineCpu : k ∈ forEachOnlineCpu online ↔ k ∈ online := by
  simp [forEachOnlineCpu]

theorem count_forEachOnlineCpu (h : k ∈ online) : (forEachOnlineCpu online).count k = 1 :=
  List.count_eq_one_of_mem ((List.nodup_finRange nr).filter _) (mem_forEachOnlineCpu.2 h)

/-- What the loop has set up, and what it leaves as it is. -/
theorem foldl_setUp (ks : List (Fin nr)) (s : PktPlug nr) :
    (ks.foldl PktPlug.setUp s).cpus = s.cpus ∧ (ks.foldl PktPlug.setUp s).freed = s.freed ∧
      ∀ k, (ks.foldl PktPlug.setUp s).tracker k =
          (if k ∈ ks then ⟨true, true, true⟩ else s.tracker k) ∧
        (ks.foldl PktPlug.setUp s).cpu k =
          if k ∈ ks then ⟨0, true, true, true, false, none⟩ else s.cpu k := by
  induction ks generalizing s with
  | nil => exact ⟨rfl, rfl, fun k => ⟨rfl, rfl⟩⟩
  | cons x ks ih =>
    obtain ⟨hcpus, hfreed, hrest⟩ := ih (s.setUp x)
    refine ⟨hcpus, hfreed, fun k => ?_⟩
    obtain ⟨htracker, hcpu⟩ := hrest k
    rw [List.foldl_cons, htracker, hcpu]
    by_cases hks : k ∈ ks
    · simp [hks]
    by_cases hx : k = x
    · simp [hx, PktPlug.setUp, PktPlug.setCpu]
    · simp [hks, hx, PktPlug.setUp, PktPlug.setCpu]

/-- The pages that the loop of `free_pkt_filter_log_state` frees, if it comes to its end. -/
theorem foldlM_freePage {ks : List (Fin nr)} (h : ks.foldlM PktPlug.freePage s = .ok s') :
    s'.tracker = s.tracker ∧ s'.freed = s.freed ++ ks := by
  induction ks generalizing s with
  | nil =>
    obtain rfl := Except.ok.inj h
    exact ⟨rfl, (List.append_nil _).symm⟩
  | cons x ks ih =>
    rw [List.foldlM_cons] at h
    obtain ⟨s₁, hone, hrest⟩ := bind_eq_ok.1 h
    obtain ⟨htracker, hfreed⟩ := ih hrest
    unfold PktPlug.freePage at hone
    split at hone
    · obtain rfl := Except.ok.inj hone
      exact ⟨htracker, hfreed.trans (List.append_assoc _ _ _)⟩
    · cases hone

/-- It comes to its end if each CPU has a page. -/
theorem foldlM_freePage_ok {ks : List (Fin nr)} (h : ∀ k ∈ ks, (s.tracker k).rpage = true) :
    ∃ s', ks.foldlM PktPlug.freePage s = .ok s' := by
  induction ks generalizing s with
  | nil => exact ⟨s, rfl⟩
  | cons x ks ih =>
    rw [List.foldlM_cons, PktPlug.freePage, if_pos (h x (List.mem_cons_self ..)), pure_eq_ok,
      ok_bind]
    exact ih fun k hk => h k (List.mem_cons_of_mem _ hk)

theorem foldl_shutdownTimer (ks : List (Fin nr)) (s : PktPlug nr) :
    (ks.foldl PktPlug.shutdownTimer s).cpus = s.cpus ∧
      (ks.foldl PktPlug.shutdownTimer s).tracker = s.tracker ∧
      (ks.foldl PktPlug.shutdownTimer s).freed = s.freed := by
  induction ks generalizing s with
  | nil => exact ⟨rfl, rfl, rfl⟩
  | cons x ks ih => exact ih (s.shutdownTimer x)

/-- **The teardown** frees the pages of the CPUs that are online. -/
theorem PktPlug.free_eq_ok (h : s.free = .ok s') :
    s'.tracker = s.tracker ∧ s'.freed = s.freed ++ forEachOnlineCpu s.cpus.online := by
  obtain ⟨hcpus, htracker, hfreed⟩ := foldl_shutdownTimer (forEachOnlineCpu s.cpus.online) s
  obtain ⟨s₁, hloop, hdone⟩ := bind_eq_ok.1 h
  obtain rfl := Except.ok.inj hdone
  rw [hcpus] at hloop
  obtain ⟨hkeep, hpages⟩ := foldlM_freePage hloop
  rw [hfreed] at hpages
  exact ⟨hkeep.trans htracker, hpages⟩

theorem PktPlug.free_ok (h : ∀ k ∈ s.cpus.online, (s.tracker k).rpage = true) :
    ∃ s', s.free = .ok s' := by
  obtain ⟨hcpus, htracker, -⟩ := foldl_shutdownTimer (forEachOnlineCpu s.cpus.online) s
  have hpages : ∀ k ∈ forEachOnlineCpu s.cpus.online,
      (((forEachOnlineCpu s.cpus.online).foldl PktPlug.shutdownTimer s).tracker k).rpage = true := by
    intro k hk
    rw [htracker]
    exact h k (mem_forEachOnlineCpu.1 hk)
  obtain ⟨s₁, hloop⟩ := foldlM_freePage_ok hpages
  unfold PktPlug.free
  simp only [hcpus]
  rw [hloop]
  exact ⟨_, rfl⟩

/-! ## Where the timers wait -/

theorem PktCpus.step_base {c : PktCpus nr} (h : ∀ k ∈ online, c.base k ∈ c.online)
    (ev : PktPlugEvent nr) : ∀ k ∈ online, (c.step ev).base k ∈ (c.step ev).online := by
  intro k hk
  cases ev with
  | up i => exact Finset.mem_insert_of_mem (h k hk)
  | down i dest =>
    simp only [PktCpus.step]
    split
    · next hdown =>
      obtain ⟨-, hdest, hne⟩ := hdown
      show (if c.base k = i then dest else c.base k) ∈ c.online.erase i
      by_cases hbase : c.base k = i
      · rw [if_pos hbase]
        exact Finset.mem_erase.2 ⟨hne, hdest⟩
      · rw [if_neg hbase]
        exact Finset.mem_erase.2 ⟨hbase, h k hk⟩
    · exact h k hk
  | log i =>
    simp only [PktCpus.step]
    split <;> exact h k hk
  | tick i => exact h k hk
  | worker i w => exact h k hk

/-- **A timer waits on a CPU that is online**, whatever has come and gone. -/
theorem pktCpus_base_online (online : Finset (Fin nr)) (evs : List (PktPlugEvent nr)) :
    ∀ k ∈ online, (evs.foldl PktCpus.step (pktCpusInit online)).base k ∈
      (evs.foldl PktCpus.step (pktCpusInit online)).online := by
  have hrun : ∀ c : PktCpus nr, (∀ k ∈ online, c.base k ∈ c.online) →
      ∀ k ∈ online, (evs.foldl PktCpus.step c).base k ∈ (evs.foldl PktCpus.step c).online := by
    induction evs with
    | nil => exact fun c hc => hc
    | cons ev evs ih => exact fun c hc => ih _ (PktCpus.step_base hc ev)
  exact hrun (pktCpusInit online) fun k hk => hk

/-! ## What holds along the way -/

/-- What holds while the CPUs that were not online at first do no harm: the work of such a
CPU neither waits nor runs, and its counter has its packets. -/
structure PktPlugInv (online : Finset (Fin nr)) (s : PktPlug nr) : Prop where
  tracker : ∀ k, s.tracker k = if k ∈ online then ⟨true, true, true⟩ else ⟨false, false, false⟩
  timer : ∀ k, (s.cpu k).timer = decide (k ∈ online)
  idle : ∀ k, k ∉ online → (s.cpu k).idle = true
  counter : ∀ k, k ∉ online → (s.cpu k).packet_counter.toNat = s.cpus.logged k
  few : ∀ k, k ∉ online → s.cpus.logged k < 200
  freed : s.freed = []

theorem PktPlugInv.isSetUp_iff (h : PktPlugInv online s) : (s.tracker k).IsSetUp ↔ k ∈ online := by
  rw [h.tracker]
  split
  · next hk => exact iff_of_true ⟨rfl, rfl, rfl⟩ hk
  · next hk => exact iff_of_false (fun hset => Bool.false_ne_true hset.1) hk

theorem pktPlugInv_init (online : Finset (Fin nr)) : PktPlugInv online (pktPlugInit online) := by
  obtain ⟨hcpus, hfreed, hrest⟩ := foldl_setUp (forEachOnlineCpu online) (pktPlugZero online)
  simp only [mem_forEachOnlineCpu] at hrest
  refine ⟨fun k => (hrest k).1, fun k => ?_, fun k hk => ?_, fun k hk => ?_, fun k hk => ?_, hfreed⟩
  · rw [pktPlugInit, (hrest k).2]
    split
    · next hk => simp [hk]
    · next hk => simp [hk, pktPlugZero]
  · rw [pktPlugInit, (hrest k).2, if_neg hk]
    rfl
  · rw [pktPlugInit, (hrest k).2, if_neg hk, hcpus]
    rfl
  · rw [pktPlugInit, hcpus]
    exact Nat.zero_lt_succ 199

/-- One more packet, in the counter of a CPU that has had few. -/
theorem PktPlugInv.counter_succ (h : PktPlugInv online s) (hk : k ∉ online) :
    ((s.cpu k).packet_counter + 1).toNat = s.cpus.logged k + 1 := by
  have hfew := h.few k hk
  rw [← h.counter k hk] at hfew ⊢
  rw [BitVec.toNat_add]
  exact Nat.mod_eq_of_lt (by simp; omega)

/-- **What an event uses was set up** exactly if it keeps to the CPUs of the beginning. -/
theorem PktPlug.uses_iff (h : PktPlugInv online s) (ev : PktPlugEvent nr) :
    (∀ k ∈ s.uses ev, (s.tracker k).IsSetUp) ↔ s.cpus.Kept online ev := by
  simp only [h.isSetUp_iff]
  cases ev with
  | up k => exact iff_of_true (fun _ hi => nomatch hi) trivial
  | down k dest => exact iff_of_true (fun _ hi => nomatch hi) trivial
  | log k =>
    simp only [uses, PktCpus.Kept]
    constructor
    · intro huses hon hk
      by_contra hmany
      rw [if_pos ⟨hon, by rw [h.counter_succ hk]; omega⟩] at huses
      exact hk (huses k (List.mem_singleton_self k))
    · intro hkept i hi
      split at hi
      · next hlog =>
        obtain rfl := List.mem_singleton.1 hi
        by_contra hk
        have hcount := hlog.2
        rw [h.counter_succ hk] at hcount
        have := hkept hlog.1 hk
        omega
      · cases hi
  | tick k =>
    simp only [uses, PktCpus.Kept, h.timer, decide_eq_true_eq]
    constructor
    · intro huses hk
      rw [if_pos hk] at huses
      exact huses _ (by simp)
    · intro hkept i hi
      split at hi
      · next hk =>
        rcases List.mem_cons.1 hi with rfl | hi
        · exact hk
        · obtain rfl := List.mem_singleton.1 hi
          exact hkept hk
      · cases hi
  | worker k w =>
    refine iff_of_true (fun i hi => ?_) trivial
    simp only [uses] at hi
    split at hi
    · cases hi
    · next hbusy =>
      obtain rfl := List.mem_singleton.1 hi
      by_contra hk
      exact hbusy (h.idle i hk)

theorem PktPlug.step_keeps (s : PktPlug nr) (ev : PktPlugEvent nr) :
    (s.step ev).tracker = s.tracker ∧ (s.step ev).freed = s.freed := by
  unfold PktPlug.step
  cases ev with
  | up k => exact ⟨rfl, rfl⟩
  | down k dest => exact ⟨rfl, rfl⟩
  | log k => simp only [cpuStep]; split <;> exact ⟨rfl, rfl⟩
  | tick k => simp only [cpuStep]; split <;> exact ⟨rfl, rfl⟩
  | worker k w => simp only [cpuStep]; split <;> exact ⟨rfl, rfl⟩

/-- No event shuts a timer down. -/
theorem PktPlug.step_timer (s : PktPlug nr) (ev : PktPlugEvent nr) (k : Fin nr) :
    ((s.step ev).cpu k).timer = (s.cpu k).timer := by
  show ((s.cpuStep ev).cpu k).timer = _
  cases ev with
  | up i => rfl
  | down i dest => rfl
  | log i =>
    simp only [cpuStep]
    split
    · exact PktCpu.update_keeps PktCpu.timer k (PktCpu.step_keeps true .log).1
    · rfl
  | tick i =>
    simp only [cpuStep]
    split
    · exact PktCpu.update_keeps PktCpu.timer k PktCpu.queueWork_keeps.1
    · rfl
  | worker i w =>
    simp only [cpuStep]
    split
    · exact PktCpu.update_keeps PktCpu.timer k (PktCpu.step_keeps true w.event).1
    · rfl

/-- A packet that does not count to 200 is counted. -/
theorem PktCpu.log_of_lt {c : PktCpu} (h : (c.packet_counter + 1).toNat < 200) :
    c.log = { c with packet_counter := c.packet_counter + 1 } := by
  unfold PktCpu.log
  simp only
  rw [if_neg (by omega)]

/-- An event that keeps to the CPUs of the beginning does nothing to the others, but that a
packet on one is counted. -/
theorem PktPlugInv.outside (h : PktPlugInv online s) {ev : PktPlugEvent nr}
    (hkept : s.cpus.Kept online ev) (hk : k ∉ online) :
    (s.step ev).cpu k = s.cpu k ∧ (s.step ev).cpus.logged k = s.cpus.logged k ∨
      s.cpus.logged k + 1 < 200 ∧
        (s.step ev).cpu k = { s.cpu k with packet_counter := (s.cpu k).packet_counter + 1 } ∧
        (s.step ev).cpus.logged k = s.cpus.logged k + 1 := by
  show (s.cpuStep ev).cpu k = _ ∧ (s.cpus.step ev).logged k = _ ∨
    _ ∧ (s.cpuStep ev).cpu k = _ ∧ (s.cpus.step ev).logged k = _
  cases ev with
  | up i => exact Or.inl ⟨rfl, rfl⟩
  | down i dest =>
    refine Or.inl ⟨rfl, ?_⟩
    simp only [PktCpus.step]
    split <;> rfl
  | log i =>
    simp only [PktCpus.step, PktPlug.cpuStep]
    by_cases hon : i ∈ s.cpus.online
    · rw [if_pos hon, if_pos hon]
      by_cases hi : k = i
      · subst hi
        have hfew := hkept hon hk
        have hlt : ((s.cpu k).packet_counter + 1).toNat < 200 := by
          rw [h.counter_succ hk]
          exact hfew
        refine Or.inr ⟨hfew, ?_, Function.update_self ..⟩
        rw [PktPlug.setCpu_self, PktCpu.log_of_lt hlt]
      · exact Or.inl ⟨PktPlug.setCpu_ne hi _, Function.update_of_ne hi ..⟩
    · rw [if_neg hon, if_neg hon]
      exact Or.inl ⟨rfl, rfl⟩
  | tick i =>
    refine Or.inl ⟨?_, rfl⟩
    simp only [PktPlug.cpuStep, h.timer, decide_eq_true_eq]
    split
    · next hi =>
      -- the timer waits on a CPU of the beginning
      have hne : k ≠ s.cpus.base i := fun heq => hk (heq ▸ hkept hi)
      exact PktPlug.setCpu_ne hne _
    · rfl
  | worker i w =>
    refine Or.inl ⟨?_, rfl⟩
    simp only [PktPlug.cpuStep]
    split
    · next hwork =>
      have hne : k ≠ i := by
        rintro rfl
        rw [h.tracker, if_neg hk] at hwork
        cases hwork
      exact PktPlug.setCpu_ne hne _
    · rfl

/-- **A step that keeps to the CPUs of the beginning.** -/
theorem PktPlugInv.step (h : PktPlugInv online s) {ev : PktPlugEvent nr}
    (hkept : s.cpus.Kept online ev) : PktPlugInv online (s.step ev) := by
  obtain ⟨htracker, hfreed⟩ := s.step_keeps ev
  have hout := fun k (hk : k ∉ online) => h.outside hkept hk
  refine ⟨fun k => ?_, fun k => ?_, fun k hk => ?_, fun k hk => ?_, fun k hk => ?_,
    hfreed.trans h.freed⟩
  · rw [htracker, h.tracker]
  · rw [s.step_timer, h.timer]
  · have hidle := h.idle k hk
    rcases hout k hk with ⟨hcpu, -⟩ | ⟨-, hcpu, -⟩
    · rwa [hcpu]
    · rwa [hcpu]
  · rcases hout k hk with ⟨hcpu, hlogged⟩ | ⟨-, hcpu, hlogged⟩
    · rw [hcpu, hlogged, h.counter k hk]
    · rw [hcpu, hlogged]
      exact h.counter_succ hk
  · have hfew := h.few k hk
    rcases hout k hk with ⟨-, hlogged⟩ | ⟨hlt, -, hlogged⟩ <;> omega

/-! ## Runs -/

/-- **The end.** What is left is used and freed as it should be if the CPUs are those of the
beginning, and only then. -/
theorem PktPlugInv.free_iff (h : PktPlugInv online s) :
    ((∀ k, s.FreeUses k → (s.tracker k).IsSetUp) ∧
      ∃ s', s.free = .ok s' ∧ ∀ k, (s'.tracker k).rpage = true → s'.freed.count k = 1) ↔
      s.cpus.online = online := by
  have hpage : ∀ k, (s.tracker k).rpage = true ↔ k ∈ online := by
    intro k
    rw [h.tracker]
    split <;> simp [*]
  simp only [h.isSetUp_iff]
  constructor
  · rintro ⟨huses, s', hfree, hcount⟩
    obtain ⟨htracker, hfreed⟩ := PktPlug.free_eq_ok hfree
    refine Finset.Subset.antisymm (fun k hk => huses k (Or.inl hk)) fun k hk => ?_
    have hone := hcount k (by rw [htracker, hpage]; exact hk)
    rw [hfreed, h.freed, List.nil_append] at hone
    exact mem_forEachOnlineCpu.1 (List.count_pos_iff.1 (by omega))
  · intro hsame
    obtain ⟨s', hfree⟩ := PktPlug.free_ok fun k hk => (hpage k).2 (hsame ▸ hk)
    obtain ⟨htracker, hfreed⟩ := PktPlug.free_eq_ok hfree
    refine ⟨fun k huses => ?_, s', hfree, fun k hk => ?_⟩
    · rcases huses with hon | hbusy
      · exact hsame ▸ hon
      · by_contra hk
        rw [h.idle k hk] at hbusy
        cases hbusy
    · rw [htracker, hpage] at hk
      rw [hfreed, h.freed, List.nil_append, hsame]
      exact count_forEachOnlineCpu hk

/-- **Along a run** what is used was set up exactly if the events keep to the CPUs of the
beginning. -/
theorem pktPlug_along_iff (h : PktPlugInv online s) (evs : List (PktPlugEvent nr)) :
    Along pktPlugStep (fun s ev => ∀ k ∈ s.uses ev, (s.tracker k).IsSetUp) s evs ↔
      Along pktCpusStep (PktCpus.Kept online) s.cpus evs := by
  induction evs generalizing s with
  | nil => exact Iff.rfl
  | cons ev evs ih =>
    have huses := PktPlug.uses_iff h ev
    constructor
    · rintro ⟨hone, hrest⟩
      have hkept := huses.1 hone
      refine ⟨hkept, fun c hc => ?_⟩
      obtain rfl := Except.ok.inj hc
      exact (ih (h.step hkept)).1 (hrest _ rfl)
    · rintro ⟨hkept, hrest⟩
      refine ⟨huses.2 hkept, fun s' hs' => ?_⟩
      obtain rfl := Except.ok.inj hs'
      exact (ih (h.step hkept)).2 (hrest _ rfl)

/-- The CPUs after a run. -/
theorem run_pktPlugStep (s : PktPlug nr) (evs : List (PktPlugEvent nr)) :
    ∃ s', run pktPlugStep s evs = .ok s' ∧ s'.cpus = evs.foldl PktCpus.step s.cpus := by
  have hstep : ∀ (s : PktPlug nr) c ev, s.cpus = c → True →
      ∃ s', pktPlugStep s ev = .ok s' ∧ s'.cpus = PktCpus.step c ev := by
    rintro s _ ev rfl -
    exact ⟨s.step ev, rfl, rfl⟩
  exact run_simulation hstep rfl fun _ _ => trivial

end Librefw
