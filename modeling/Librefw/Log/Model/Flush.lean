import Librefw.Common.Run
import Librefw.Common.Words

/-!
# Flushing the packet log

The rest of `packet_filter.c`: the counter, the timer and the flush work
of each CPU, and the teardown that runs beside them. A work waits in the
queue, or runs, or both, for it may be queued again as soon as it runs;
`destroy_workqueue` returns once no work waits or runs. What the ring
buffer answers is not its reader's choice, so a read may go either way.

An event whose turn has not come leaves the state as it is.
-/

namespace Librefw

/-- Where `flush_pkt_filter_events` is: before it asks for the page size, before a
`ring_buffer_read_page`, or with a page to be sent. -/
inductive PktFlushPc where
  | start | reading | sending
  deriving DecidableEq, Repr

/-- The per-CPU variables, with where the CPU's flush work is. `timer` is whether it is yet
to be shut down, `rpage` whether the page is yet to be freed. -/
structure PktCpu where
  packet_counter : U32
  timer : Bool
  full_pages_only : Bool
  rpage : Bool
  queued : Bool
  running : Option PktFlushPc
  deriving DecidableEq, Repr

/-- The flush work neither waits nor runs. -/
def PktCpu.idle (c : PktCpu) : Bool := !c.queued && c.running.isNone

/-- Where the module is: logging, in one of the two loops of `free_pkt_filter_log_state` with
the CPUs still to come, or before one of the statements after them. -/
inductive PktPc (κ : Type) where
  | logging
  | shutdownTimers (rest : List κ)
  | freePages (rest : List κ)
  | destroyWorkqueue
  | ringBufferFree
  | kfree
  | gone
  deriving DecidableEq, Repr

/-- The packet log: its CPUs, whether the ring buffer and the state are there, and where the
module is. -/
structure PktLog (κ : Type) where
  cpu : κ → PktCpu
  events : Bool
  state : Bool
  pc : PktPc κ

variable {κ : Type} [DecidableEq κ]

/-- After `init_pkt_filter_log_state`. -/
def pktLogInit : PktLog κ := ⟨fun _ => ⟨0, true, true, true, false, none⟩, true, true, .logging⟩

def PktLog.setCpu (s : PktLog κ) (k : κ) (c : PktCpu) : PktLog κ :=
  { s with cpu := Function.update s.cpu k c }

/-- `queue_work`, which fails where the work waits already; where it does not, the counter
starts again. -/
def PktCpu.queueWork (c : PktCpu) : PktCpu :=
  if c.queued then c else { c with queued := true, packet_counter := 0 }

/-- `log_pkt_filter_event`, up to its reservation. -/
def PktCpu.log (c : PktCpu) : PktCpu :=
  let c := { c with packet_counter := c.packet_counter + 1 }
  if 200 ≤ c.packet_counter.toNat then { c with full_pages_only := true }.queueWork else c

/-- `sched_flush_pkt_filter_events`; its `mod_timer` leaves the timer running. -/
def PktCpu.sched (c : PktCpu) : PktCpu := { c with full_pages_only := false }.queueWork

/-- What can happen on a CPU. `read` comes with what `ring_buffer_read_page` returned; a page
is sent, or there is no memory for its message. -/
inductive PktCpuEvent where
  | log
  | tick
  | begin
  | subbufSize
  | read (offset : ℤ)
  | processRbPage
  | noMessage
  deriving DecidableEq, Repr

/-- One event on a CPU. Packets are logged until the hooks are gone, which is before the
teardown. -/
def PktCpu.step (logging : Bool) (c : PktCpu) : PktCpuEvent → PktCpu
  | .log => if logging then c.log else c
  | .tick => if c.timer then c.sched else c
  | .begin => if c.queued ∧ c.running = none then { c with queued := false, running := some .start }
    else c
  | .subbufSize => if c.running = some .start then { c with running := some .reading } else c
  | .read offset =>
    if c.running = some .reading then
      { c with running := if offset < 0 then none else some .sending }
    else c
  | .processRbPage | .noMessage =>
    if c.running = some .sending then { c with running := some .reading } else c

/-- The next statement of `free_pkt_filter_log_state`. -/
def PktLog.teardown (online : List κ) (s : PktLog κ) : PktLog κ :=
  match s.pc with
  | .logging => { s with pc := .shutdownTimers online }
  | .shutdownTimers (k :: rest) =>
    { s.setCpu k { s.cpu k with timer := false } with pc := .shutdownTimers rest }
  | .shutdownTimers [] => { s with pc := .freePages online }
  | .freePages (k :: rest) => { s.setCpu k { s.cpu k with rpage := false } with pc := .freePages rest }
  | .freePages [] => { s with pc := .destroyWorkqueue }
  | .destroyWorkqueue =>
    if ∀ k ∈ online, (s.cpu k).idle = true then { s with pc := .ringBufferFree } else s
  | .ringBufferFree => { s with pc := .kfree, events := false }
  | .kfree => { s with pc := .gone, state := false }
  | .gone => s

inductive PktEvent (κ : Type) where
  | on (k : κ) (ev : PktCpuEvent)
  | teardown
  deriving DecidableEq, Repr

/-- One event, with these CPUs online. -/
def pktStep (online : List κ) (s : PktLog κ) : PktEvent κ → Except Fault (PktLog κ)
  | .on k ev =>
    pure (if k ∈ online then s.setCpu k ((s.cpu k).step (s.pc = .logging) ev) else s)
  | .teardown => pure (s.teardown online)

end Librefw
