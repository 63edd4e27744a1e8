import Librefw.Filter.Model.Hooks
import Librefw.Kernel.Model.Nl

/-!
# The packet log

`packet_filter.c`: the event a packet is logged as, and the message a page
of the ring buffer is sent as. A page is its time stamp and the records
committed to it; the time of a packet is the sum of the deltas before it.

A container is 72 bytes. That is so on an architecture that reads 64 bits
from any address; on another `nla_put_u64_64bit` may put an empty attribute
before the time stamp, which is left out.
-/

namespace Librefw

/-- `struct pkt_filter_event`: addresses and ports are as they came. -/
structure PktFilterEvent where
  source_ip : U32
  dest_ip : U32
  source_port : U16
  dest_port : U16
  protocol : U8
  ttl : U8
  action : U8
  deriving DecidableEq, Repr

def IPPROTO_UDP : U8 := 17

/-- The ports of a packet: the first four bytes at `thoff`, if the transport
header, of `len` bytes, can be read. -/
def transportPorts (e : Endian) (skb : SkBuff) (thoff len : ℕ) : U16 × U16 :=
  match skbHeaderPointer skb thoff len with
  | none => (0, 0)
  | some th => (e.word 2 th, e.word 2 (th.drop 2))

/-- `log_pkt_filter_event`: what it commits for a packet with this header. -/
def logPktFilterEvent (e : Endian) (iph : List U8) (skb : SkBuff) : PktFilterEvent :=
  let ihl := (iph.getD 0 0).toNat % 16
  let thoff := skb.network_offset + ihl * 4
  let protocol := iph.getD 9 0
  let ports :=
    if protocol = IPPROTO_TCP then transportPorts e skb thoff 20
    else if protocol = IPPROTO_UDP then transportPorts e skb thoff 8
    else (0, 0)
  { source_ip := e.word 4 (iph.drop 12), dest_ip := e.word 4 (iph.drop 16),
    source_port := ports.1, dest_port := ports.2, protocol := protocol, ttl := iph.getD 8 0,
    action := 1 }

/-! ## Pages -/

/-- `struct ring_buffer_event`, by its type. -/
inductive RbRecord where
  | padding (time_delta : U32)
  | timeExtend (array : U32) (time_delta : U32)
  | timeStamp (array : U32) (time_delta : U32)
  | data (time_delta : U32) (entry : PktFilterEvent)
  deriving DecidableEq, Repr

/-- `rb_event_time_stamp`. -/
def rbEventTimeStamp (array time_delta : U32) : U64 :=
  (array.setWidth 64 <<< 27) + time_delta.setWidth 64

def TS_MSB : U64 := 0xf8#64 <<< 56

/-- `rb_fix_abs_ts`. -/
def rbFixAbsTs (abs save_ts : U64) : U64 :=
  if save_ts &&& TS_MSB ≠ 0 then
    let abs := abs ||| (save_ts &&& TS_MSB)
    if abs < save_ts then abs + (1#64 <<< 59) else abs
  else abs

/-- The attributes of one event. -/
def pktFilterFields (e : Endian) (ts : U64) (entry : PktFilterEvent) : List Field :=
  [⟨LFW_NLA_PKT_FILTER_LOG_TS, e.ofWord (w := 8) ts⟩,
    ⟨LFW_NLA_PKT_FILTER_LOG_SRC_IP, e.ofWord (w := 4) entry.source_ip⟩,
    ⟨LFW_NLA_PKT_FILTER_LOG_DEST_IP, e.ofWord (w := 4) entry.dest_ip⟩,
    ⟨LFW_NLA_PKT_FILTER_LOG_SRC_PORT, e.ofWord (w := 2) entry.source_port⟩,
    ⟨LFW_NLA_PKT_FILTER_LOG_DEST_PORT, e.ofWord (w := 2) entry.dest_port⟩,
    ⟨LFW_NLA_PKT_FILTER_LOG_PROTO, [entry.protocol]⟩, ⟨LFW_NLA_PKT_FILTER_LOG_TTL, [entry.ttl]⟩,
    ⟨LFW_NLA_PKT_FILTER_LOG_ACTION, [entry.action]⟩]

/-- The loop of `process_rb_page`. A padding record without a delta has no length
and ends it; a container that does not fit is cancelled, and what `nla_nest_end`
then writes lies behind the message. -/
def processRecords (e : Endian) : List RbRecord → U64 → MsgBuf → ℤ × MsgBuf
  | [], _, skb => (0, skb)
  | .padding time_delta :: records, ts, skb =>
    if time_delta = 0 then (0, skb) else processRecords e records (ts + time_delta.setWidth 64) skb
  | .timeExtend array time_delta :: records, ts, skb =>
    processRecords e records (ts + rbEventTimeStamp array time_delta) skb
  | .timeStamp array time_delta :: records, ts, skb =>
    processRecords e records (rbFixAbsTs (rbEventTimeStamp array time_delta) ts) skb
  | .data time_delta entry :: records, ts, skb =>
    let ts := ts + time_delta.setWidth 64
    match skb.nestStart e LFW_NLA_PKT_FILTER_LOG with
    | (none, skb) => (-EMSGSIZE, skb)
    | (some container, skb) =>
      let (packed, skb) := skb.nlaPuts e (pktFilterFields e ts entry)
      processRecords e records ts
        (if packed then skb.nestEnd e container else skb.nestCancel container)

/-- `struct buffer_data_page`, with the records committed to it. -/
structure RbPage where
  time_stamp : U64
  records : List RbRecord
  deriving DecidableEq, Repr

/-- `process_rb_page`. -/
def processRbPage (e : Endian) (page : RbPage) (skb : MsgBuf) : ℤ × MsgBuf :=
  processRecords e page.records page.time_stamp skb

/-- One turn of the loop of `flush_pkt_filter_events`. -/
def flushPktFilterPage (e : Endian) (page : RbPage) : Except ℤ (List U8) :=
  lfwMakeMulticastMsg LFW_NL_CMD_PKT_FILTER_LOG (processRbPage e page) (8 * 1024)

end Librefw
