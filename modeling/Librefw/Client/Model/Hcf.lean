import Librefw.Client.Model.Base
import Librefw.Hcf.Model.Message
import Librefw.Kernel.Model.Utils

/-!
# The client's hop-count history

`hcf.cpp`: the listener that records announcements in the database, and the
request that restores a history from it. The table is a list of rows in the
order they were inserted; the query that reads it back states no order.
-/

namespace Librefw

/-- A row of `hcf_ipv4_history`. -/
structure HcfIpv4Row where
  ip_addr : List U8
  ip_addr_str : String
  ttl : ℤ
  hc : ℤ
  deriving DecidableEq, Repr

abbrev HcfIpv4History := List HcfIpv4Row

/-- `insert or ignore into hcf_ipv4_history`: a row that violates the check on
the address's length, or its uniqueness, is left out. -/
def insertOrIgnore (row : HcfIpv4Row) (tab : HcfIpv4History) : HcfIpv4History :=
  if row.ip_addr.length = 4 ∧ row.ip_addr ∉ tab.map HcfIpv4Row.ip_addr then tab ++ [row] else tab

/-- `inet_ntop`, for the four bytes of an `in_addr`. -/
def inetNtop (s_addr : List U8) : String := ".".intercalate (s_addr.map fun b => toString b.toNat)

/-- `parse_args`, and a read of its table: the last attribute of a type. -/
def parseArgs (e : Endian) (info : GenlInfo) (type : ℕ) : Except Fault NlAttr :=
  match info.attrs e type with
  | none => throw .nullDeref
  | some a => pure a

/-- `HcfListener::on_message_received`. -/
def onMessageReceived (e : Endian) (info : GenlInfo) (tab : HcfIpv4History) :
    Except Fault HcfIpv4History := do
  let ip ← parseArgs e info LFW_NLA_HCF_IP
  let ttl ← parseArgs e info LFW_NLA_HCF_TTL
  let hc ← parseArgs e info LFW_NLA_HCF_HC
  let source_ip := ip.getU32 e
  let ip_addr := e.ofWord (w := 4) source_ip
  let s_addr := e.ofWord (w := 4) (htonl e source_ip)
  pure (insertOrIgnore ⟨ip_addr, inetNtop s_addr, ttl.getU8.toNat, hc.getU8.toNat⟩ tab)

/-- The announcements of the kernel, received one after another; a message that
could not be built is not sent. -/
def hcfReceive (e : Endian) (rest : List U8) (announced : List HcfIpCtx) (tab : HcfIpv4History) :
    Except Fault HcfIpv4History :=
  announced.foldlM (fun tab ctx =>
    match hcfLogNewIpMsg e ctx with
    | .error _ => pure tab
    | .ok msg => onMessageReceived e (genlAttrs msg rest) tab) tab

/-- One row into the message; if it does not fit the container is cancelled. -/
def packRow (e : Endian) (row : HcfIpv4Row) (msg : MsgBuf) : Except Fault (Bool × MsgBuf) :=
  let (entry, msg) := msg.nestStart e LFW_NLA_HCF_HISTORY
  let (packed, msg) := msg.nlaPuts e
    [⟨LFW_NLA_HCF_HISTORY_IP, row.ip_addr.take 4⟩, ⟨LFW_NLA_HCF_HISTORY_HC, [BitVec.ofInt 8 row.hc]⟩,
      ⟨LFW_NLA_HCF_HISTORY_TTL, [BitVec.ofInt 8 row.ttl]⟩]
  match entry with
  | none => throw .nullDeref
  | some entry => pure (packed, if packed then msg.nestEnd e entry else msg.nestCancel entry)

/-- The loop over the rows. -/
def packRows (e : Endian) : HcfIpv4History → MsgBuf → Except Fault (Bool × MsgBuf)
  | [], msg => pure (true, msg)
  | row :: rows, msg => do
    let (packed, msg) ← packRow e row msg
    if packed then packRows e rows msg else pure (false, msg)

/-- `HcfListener::set_ip_history`: what is sent, if the rows fitted in a message
with room for `room` bytes. -/
def setIpHistory (e : Endian) (room : ℕ) (rows : HcfIpv4History) :
    Except Fault (Option (List U8)) := do
  let (packed, msg) ← packRows e rows (genlmsgPut room LFW_NL_CMD_SET_HCF_HISTORY)
  pure (if packed then some msg.bytes else none)

/-- The same, from the message it allocates on. -/
def sendIpHistory (e : Endian) (capacity : U32) (rows : HcfIpv4History) :
    Except ClientAbort (Option (List U8)) := do
  let msg ← makeMessage capacity LFW_NL_CMD_SET_HCF_HISTORY
  let (packed, msg) ← (packRows e rows msg).mapError ClientAbort.fault
  pure (if packed then some msg.bytes else none)

end Librefw
