import Librefw.Log.Model.Flush

/-!
# A CPU and its ring buffer

One CPU of `packet_filter.c` again, with what `ring_buffer_read_page`
finds. Packets and ticks come in softirqs of the CPU, so each is one event
to the worker, which they may interrupt between any two of its steps.
Which page an event goes to, and what it overwrites there, is up to the
ring buffer; the events are numbered as they are committed.
-/

namespace Librefw

/-- The events that are unread, in the pages that were left and in the one that is written;
and those that were read, and overwritten before that. -/
structure PktRing where
  pages : List (List ℕ)
  current : List ℕ
  committed : ℕ
  read : List ℕ
  lost : List ℕ
  deriving DecidableEq, Repr

def pktRingInit : PktRing := ⟨[], [], 0, [], []⟩

/-- What `ring_buffer_lock_reserve` and `ring_buffer_unlock_commit` do for an event: they may
overwrite a page (`RB_FL_OVERWRITE`), and go on to the next; they may find no room. -/
structure PktWrite where
  overwrites : Option ℕ
  turns : Bool
  commits : Bool
  deriving DecidableEq, Repr

def PktRing.overwrite (r : PktRing) (i : ℕ) : PktRing :=
  { r with pages := r.pages.eraseIdx i, lost := r.lost ++ r.pages[i]?.getD [] }

/-- Of a page that was read to its end there is nothing left. -/
def PktRing.turn (r : PktRing) : PktRing :=
  { r with pages := if r.current = [] then r.pages else r.pages ++ [r.current], current := [] }

def PktRing.commit (r : PktRing) : PktRing :=
  { r with current := r.current ++ [r.committed], committed := r.committed + 1 }

def PktRing.write (r : PktRing) (w : PktWrite) : PktRing :=
  let r := w.overwrites.elim r r.overwrite
  let r := if w.turns then r.turn else r
  if w.commits then r.commit else r

/-- `ring_buffer_read_page`: the oldest page, and the one that is written only if `full` is not
set. -/
def PktRing.readPage (r : PktRing) (full : Bool) : ℤ × PktRing :=
  match r.pages with
  | page :: pages => (0, { r with pages, read := r.read ++ page })
  | [] =>
    if full ∨ r.current = [] then (-1, r)
    else (0, { r with current := [], read := r.read ++ r.current })

/-- The CPU, its ring buffer and how often its worker has started. -/
structure PktLogCpu where
  cpu : PktCpu
  ring : PktRing
  started : ℕ
  deriving DecidableEq, Repr

/-- After `init_pkt_filter_log_state`. -/
def pktLogCpuInit : PktLogCpu := ⟨⟨0, true, true, true, false, none⟩, pktRingInit, 0⟩

/-- What can happen: see `PktCpuEvent`. -/
inductive PktLogEvent where
  | log (w : PktWrite)
  | tick
  | begin
  | subbufSize
  | read
  | processRbPage
  | noMessage
  deriving DecidableEq, Repr

/-- The worker's read, with the flag as it finds it. -/
def PktLogCpu.readPage (s : PktLogCpu) : ℤ × PktRing := s.ring.readPage s.cpu.full_pages_only

/-- What it is to the CPU's variables. -/
def PktLogCpu.event (s : PktLogCpu) : PktLogEvent → PktCpuEvent
  | .log _ => .log
  | .tick => .tick
  | .begin => .begin
  | .subbufSize => .subbufSize
  | .read => .read s.readPage.1
  | .processRbPage => .processRbPage
  | .noMessage => .noMessage

/-- What it is to the ring buffer. -/
def PktLogCpu.ringAfter (s : PktLogCpu) : PktLogEvent → PktRing
  | .log w => s.ring.write w
  | .read => if s.cpu.running = some .reading then s.readPage.2 else s.ring
  | _ => s.ring

def PktLogCpu.startedAfter (s : PktLogCpu) : PktLogEvent → ℕ
  | .begin => if s.cpu.queued ∧ s.cpu.running = none then s.started + 1 else s.started
  | _ => s.started

def PktLogCpu.step (s : PktLogCpu) (ev : PktLogEvent) : PktLogCpu :=
  ⟨s.cpu.step true (s.event ev), s.ringAfter ev, s.startedAfter ev⟩

def PktLogCpu.run (s : PktLogCpu) (evs : List PktLogEvent) : PktLogCpu :=
  evs.foldl PktLogCpu.step s

/-- The CPU after these events. -/
def pktLogRun (evs : List PktLogEvent) : PktLogCpu := pktLogCpuInit.run evs

/-- The worker's next read is its last, for it finds nothing. -/
def PktLogCpu.ends (s : PktLogCpu) : Bool := s.cpu.running = some .reading ∧ s.readPage.1 < 0

end Librefw
