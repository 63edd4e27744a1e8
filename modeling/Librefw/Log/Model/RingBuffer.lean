import Librefw.Log.Model.PacketFilter

/-!
# Pages of the ring buffer, as bytes

`process_rb_page` and the functions of `util/ring_buffer.c` under it, over
the memory of a page. The loop counts its bytes in a `long`, and adds to it
a length of 32 bits; a read outside the page is out of bounds. The loop may
go on for ever, so a run of it has fuel, and is not over when that is used
up. As in `Log.Model.PacketFilter` no padding comes before a time stamp.
-/

namespace Librefw

/-- `struct buffer_data_page`. -/
structure BufferDataPage (l : LongSize) where
  time_stamp : U64
  commit : BitVec l.bits
  data : List U8
  deriving DecidableEq, Repr

def RINGBUF_TYPE_DATA_TYPE_LEN_MAX : ℕ := 28
def RINGBUF_TYPE_PADDING : ℕ := 29
def RINGBUF_TYPE_TIME_EXTEND : ℕ := 30
def RINGBUF_TYPE_TIME_STAMP : ℕ := 31

def RB_LEN_TIME_EXTEND : U32 := 8
def RB_LEN_TIME_STAMP : U32 := 8
def RB_ALIGNMENT : ℕ := 4

/-- `offsetof(struct ring_buffer_event, array)`. -/
def RB_EVNT_HDR_SIZE : U32 := 4

/-! ## Events in memory -/

/-- A word of `w` bytes at an offset into the page. -/
def rbLoad (e : Endian) (w : ℕ) (mem : List U8) (p : ℤ) : Except Fault (BitVec (8 * w)) :=
  if 0 ≤ p ∧ p.toNat + w ≤ mem.length then pure (e.word w (mem.drop p.toNat))
  else throw (.outOfBounds p.toNat)

/-- `type_len`, the first five bits of an event. -/
def rbTypeLen (e : Endian) (header : U32) : ℕ :=
  match e with
  | .little => header.toNat % 2 ^ 5
  | .big => header.toNat / 2 ^ 27

/-- `time_delta`, the other 27 bits of its first word. -/
def rbTimeDelta (e : Endian) (header : U32) : U32 :=
  match e with
  | .little => BitVec.ofNat 32 (header.toNat / 2 ^ 5)
  | .big => BitVec.ofNat 32 (header.toNat % 2 ^ 27)

/-- `rb_null_event`. -/
def rbNullEvent (e : Endian) (header : U32) : Bool :=
  rbTypeLen e header = RINGBUF_TYPE_PADDING ∧ rbTimeDelta e header = 0

/-- `rb_event_data_length`. -/
def rbEventDataLength (e : Endian) (mem : List U8) (event : ℤ) : Except Fault U32 := do
  let header ← rbLoad e 4 mem event
  let length ←
    if rbTypeLen e header ≠ 0 then pure (BitVec.ofNat 32 (rbTypeLen e header * RB_ALIGNMENT))
    else rbLoad e 4 mem (event + 4)
  pure (length + RB_EVNT_HDR_SIZE)

/-- `rb_event_length`. Five bits leave no type to its default branch. -/
def rbEventLength (e : Endian) (mem : List U8) (event : ℤ) : Except Fault U32 := do
  let header ← rbLoad e 4 mem event
  if rbTypeLen e header = RINGBUF_TYPE_PADDING then
    if rbNullEvent e header then pure (-1)
    else do
      let array ← rbLoad e 4 mem (event + 4)
      pure (array + RB_EVNT_HDR_SIZE)
  else if rbTypeLen e header = RINGBUF_TYPE_TIME_EXTEND then pure RB_LEN_TIME_EXTEND
  else if rbTypeLen e header = RINGBUF_TYPE_TIME_STAMP then pure RB_LEN_TIME_STAMP
  else rbEventDataLength e mem event

/-- `ring_buffer_event_data`, for an event of a data type. -/
def ringBufferEventData (e : Endian) (mem : List U8) (event : ℤ) : Except Fault ℤ := do
  let header ← rbLoad e 4 mem event
  pure (if rbTypeLen e header ≠ 0 then event + 4 else event + 8)

/-! ## The loop -/

/-- A chain of `nla_put` that stops at the first one to fail, each value read as its turn
comes. -/
def nlaPutsRead (e : Endian) : List (Except Fault Field) → MsgBuf → Except Fault (Bool × MsgBuf)
  | [], skb => pure (true, skb)
  | read :: reads, skb => do
    let f ← read
    let put := skb.nlaPut e f
    if put.1 then nlaPutsRead e reads put.2 else pure put

/-- The attributes of the entry at an offset, `struct pkt_filter_event` being packed. -/
def pktFilterReads (e : Endian) (mem : List U8) (ts : U64) (entry : ℤ) :
    List (Except Fault Field) :=
  [pure ⟨LFW_NLA_PKT_FILTER_LOG_TS, e.ofWord (w := 8) ts⟩,
    (rbLoad e 4 mem entry).map fun v => ⟨LFW_NLA_PKT_FILTER_LOG_SRC_IP, e.ofWord v⟩,
    (rbLoad e 4 mem (entry + 4)).map fun v => ⟨LFW_NLA_PKT_FILTER_LOG_DEST_IP, e.ofWord v⟩,
    (rbLoad e 2 mem (entry + 8)).map fun v => ⟨LFW_NLA_PKT_FILTER_LOG_SRC_PORT, e.ofWord v⟩,
    (rbLoad e 2 mem (entry + 10)).map fun v => ⟨LFW_NLA_PKT_FILTER_LOG_DEST_PORT, e.ofWord v⟩,
    (rbLoad e 1 mem (entry + 12)).map fun v => ⟨LFW_NLA_PKT_FILTER_LOG_PROTO, [v]⟩,
    (rbLoad e 1 mem (entry + 13)).map fun v => ⟨LFW_NLA_PKT_FILTER_LOG_TTL, [v]⟩,
    (rbLoad e 1 mem (entry + 14)).map fun v => ⟨LFW_NLA_PKT_FILTER_LOG_ACTION, [v]⟩]

/-- The body of the loop: whether it goes on, the clock and the message. A container that
does not fit is cancelled, and what `nla_nest_end` then writes lies behind the message. -/
def rbTurn (e : Endian) (mem : List U8) (event : ℤ) (ts : U64) (skb : MsgBuf) :
    Except Fault (Bool × U64 × MsgBuf) := do
  let header ← rbLoad e 4 mem event
  let time_delta := rbTimeDelta e header
  if rbTypeLen e header = RINGBUF_TYPE_PADDING then pure (true, ts + time_delta.setWidth 64, skb)
  else if rbTypeLen e header = RINGBUF_TYPE_TIME_EXTEND then do
    let array ← rbLoad e 4 mem (event + 4)
    pure (true, ts + rbEventTimeStamp array time_delta, skb)
  else if rbTypeLen e header = RINGBUF_TYPE_TIME_STAMP then do
    let array ← rbLoad e 4 mem (event + 4)
    pure (true, rbFixAbsTs (rbEventTimeStamp array time_delta) ts, skb)
  else do
    let ts := ts + time_delta.setWidth 64
    let entry ← ringBufferEventData e mem event
    match skb.nestStart e LFW_NLA_PKT_FILTER_LOG with
    | (none, skb) => pure (false, ts, skb)
    | (some container, skb) => do
      let put ← nlaPutsRead e (pktFilterReads e mem ts entry) skb
      pure (true, ts, if put.1 then put.2.nestEnd e container else put.2.nestCancel container)

/-- A run of the loop: the offsets its events were read at, what it returned, if it did, and
the count and the message it has left. -/
structure RbRun (l : LongSize) where
  visited : List ℤ
  ret : Option ℤ
  bytes_read : BitVec l.bits
  skb : MsgBuf
  deriving DecidableEq, Repr

/-- The loop of `process_rb_page` from a count of bytes on. -/
def rbLoop {l : LongSize} (e : Endian) (page : BufferDataPage l) (data_offset : ℤ) :
    ℕ → BitVec l.bits → U64 → MsgBuf → Except Fault (RbRun l)
  | fuel, bytes_read, ts, skb =>
    if bytes_read.slt page.commit then
      match fuel with
      | 0 => pure ⟨[], none, bytes_read, skb⟩
      | fuel + 1 => do
        let event := data_offset + bytes_read.toInt
        let turn ← rbTurn e page.data event ts skb
        if turn.1 then do
          let length ← rbEventLength e page.data event
          -- the length has no sign, so it is not extended with one
          let run ← rbLoop e page data_offset fuel (bytes_read + length.setWidth l.bits)
            turn.2.1 turn.2.2
          pure { run with visited := event :: run.visited }
        else pure ⟨[event], some (-EMSGSIZE), bytes_read, turn.2.2⟩
    else pure ⟨[], some 0, bytes_read, skb⟩

/-- `process_rb_page`, with the loop's fuel. -/
def BufferDataPage.processRbPage {l : LongSize} (e : Endian) (page : BufferDataPage l)
    (data_offset : ℤ) (fuel : ℕ) (skb : MsgBuf) : Except Fault (RbRun l) :=
  rbLoop e page data_offset fuel 0 page.time_stamp skb

end Librefw
