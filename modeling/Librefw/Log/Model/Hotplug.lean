import Librefw.Log.Model.Flush
import Mathlib.Data.List.FinRange
import Mathlib.Data.Finset.Insert

/-!
# The packet log and its CPUs

`packet_filter.c` with CPUs that go online and offline between
`init_pkt_filter_log_state` and `free_pkt_filter_log_state`. Each of them
loops over the CPUs that are online at its moment; a packet, and a tick,
take the tracker of the CPU they come to. A timer waits on the CPU it was
added on, until that goes offline: then it waits on another one, and stays
there. A work stays with its CPU, online or not.

There are `nr` CPUs, which is `nr_cpu_ids`. An event whose turn has not
come leaves the state as it is.
-/

namespace Librefw

/-- What was done to the static variables of a CPU: `INIT_WORK`, the allocation of the read
page and `timer_setup`. -/
structure PktTracker where
  real_work : Bool
  rpage : Bool
  packet_timer : Bool
  deriving DecidableEq, Repr

/-- The turn of the loop for the CPU was taken. -/
def PktTracker.IsSetUp (t : PktTracker) : Prop :=
  t.real_work = true ∧ t.rpage = true ∧ t.packet_timer = true

instance (t : PktTracker) : Decidable t.IsSetUp := inferInstanceAs (Decidable (_ ∧ _ ∧ _))

variable {nr : ℕ}

/-- The CPUs themselves: which of them are online, on which one the timer of each waits, and
how many packets were logged on each. -/
structure PktCpus (nr : ℕ) where
  online : Finset (Fin nr)
  base : Fin nr → Fin nr
  logged : Fin nr → ℕ

/-- The steps of `flush_pkt_filter_events`: see `PktCpuEvent`. -/
inductive PktWorkerStep where
  | begin
  | subbufSize
  | read (offset : ℤ)
  | processRbPage
  | noMessage
  deriving DecidableEq, Repr

def PktWorkerStep.event : PktWorkerStep → PktCpuEvent
  | .begin => .begin
  | .subbufSize => .subbufSize
  | .read offset => .read offset
  | .processRbPage => .processRbPage
  | .noMessage => .noMessage

/-- What can happen: a CPU goes online, or offline with its timers going to `dest`; a packet
is logged on a CPU; the timer of a CPU expires; the work of a CPU takes a step. -/
inductive PktPlugEvent (nr : ℕ) where
  | up (k : Fin nr)
  | down (k dest : Fin nr)
  | log (k : Fin nr)
  | tick (k : Fin nr)
  | worker (k : Fin nr) (w : PktWorkerStep)
  deriving DecidableEq, Repr

/-- What an event is to the CPUs. -/
def PktCpus.step (c : PktCpus nr) : PktPlugEvent nr → PktCpus nr
  | .up k => { c with online := insert k c.online }
  | .down k dest =>
    if k ∈ c.online ∧ dest ∈ c.online ∧ dest ≠ k then
      { c with
        online := c.online.erase k, base := fun i => if c.base i = k then dest else c.base i }
    else c
  | .log k =>
    if k ∈ c.online then { c with logged := Function.update c.logged k (c.logged k + 1) } else c
  | .tick _ | .worker _ _ => c

/-- The packet log, with the CPUs whose read pages were freed. -/
structure PktPlug (nr : ℕ) where
  cpus : PktCpus nr
  tracker : Fin nr → PktTracker
  cpu : Fin nr → PktCpu
  freed : List (Fin nr)

def PktPlug.setCpu (s : PktPlug nr) (k : Fin nr) (c : PktCpu) : PktPlug nr :=
  { s with cpu := Function.update s.cpu k c }

/-- `for_each_online_cpu`. -/
def forEachOnlineCpu (online : Finset (Fin nr)) : List (Fin nr) :=
  (List.finRange nr).filter (· ∈ online)

/-- Before `init_pkt_filter_log_state`, with these CPUs online: static variables are zero. -/
def pktPlugZero (online : Finset (Fin nr)) : PktPlug nr :=
  ⟨⟨online, id, fun _ => 0⟩, fun _ => ⟨false, false, false⟩,
    fun _ => ⟨0, false, false, false, false, none⟩, []⟩

/-- The turn of the loop in `init_pkt_filter_log_state` for a CPU. -/
def PktPlug.setUp (s : PktPlug nr) (k : Fin nr) : PktPlug nr :=
  { s.setCpu k ⟨0, true, true, true, false, none⟩ with
    tracker := Function.update s.tracker k ⟨true, true, true⟩ }

/-- After `init_pkt_filter_log_state`. -/
def pktPlugInit (online : Finset (Fin nr)) : PktPlug nr :=
  (forEachOnlineCpu online).foldl PktPlug.setUp (pktPlugZero online)

/-- What an event is to the CPUs' variables. A tick is `sched_flush_pkt_filter_events` on the
CPU the timer waits on. A work that was not initialised does not run. -/
def PktPlug.cpuStep (s : PktPlug nr) : PktPlugEvent nr → PktPlug nr
  | .up _ | .down _ _ => s
  | .log k => if k ∈ s.cpus.online then s.setCpu k (s.cpu k).log else s
  | .tick k =>
    if (s.cpu k).timer then s.setCpu (s.cpus.base k) (s.cpu (s.cpus.base k)).sched else s
  | .worker k w =>
    if (s.tracker k).real_work then s.setCpu k ((s.cpu k).step true w.event) else s

def PktPlug.step (s : PktPlug nr) (ev : PktPlugEvent nr) : PktPlug nr :=
  { s.cpuStep ev with cpus := s.cpus.step ev }

def pktPlugStep (s : PktPlug nr) (ev : PktPlugEvent nr) : Except Fault (PktPlug nr) :=
  pure (s.step ev)

/-- `timer_shutdown_sync` for a CPU. -/
def PktPlug.shutdownTimer (s : PktPlug nr) (k : Fin nr) : PktPlug nr :=
  s.setCpu k { s.cpu k with timer := false }

/-- `ring_buffer_free_read_page` for a CPU, which looks into the page it is given. -/
def PktPlug.freePage (s : PktPlug nr) (k : Fin nr) : Except Fault (PktPlug nr) :=
  if (s.tracker k).rpage then
    pure { s.setCpu k { s.cpu k with rpage := false } with freed := s.freed ++ [k] }
  else .error .nullDeref

/-- `destroy_workqueue`: no work waits or runs any more. -/
def PktPlug.destroyWorkqueue (s : PktPlug nr) : PktPlug nr :=
  { s with cpu := fun k => { s.cpu k with queued := false, running := none } }

/-- `free_pkt_filter_log_state`. -/
def PktPlug.free (s : PktPlug nr) : Except Fault (PktPlug nr) := do
  let s := (forEachOnlineCpu s.cpus.online).foldl PktPlug.shutdownTimer s
  let s ← (forEachOnlineCpu s.cpus.online).foldlM PktPlug.freePage s
  pure s.destroyWorkqueue

end Librefw
