import Librefw.Kernel.Model.Nl

/-!
# The client's packet log

`packet_filter_log.cpp`: the callback that decodes a message of the packet
log into the events it prints. It walks the whole payload of the message,
from its generic netlink header on.
-/

namespace Librefw

/-- `struct PacketFilterEvent`. -/
structure PacketFilterEvent where
  ts : U64
  source_ip : U32
  dest_ip : U32
  source_port : U16
  dest_port : U16
  proto : U8
  ttl : U8
  action : U8
  deriving DecidableEq, Repr

/-- `PacketFilterEvent event{}`. -/
def PacketFilterEvent.zero : PacketFilterEvent := ⟨0, 0, 0, 0, 0, 0, 0, 0⟩

/-- The switch over one sub-attribute. -/
def pktFilterField (e : Endian) (boot_ns : U64) (event : PacketFilterEvent) (nested_pos : NlAttr) :
    PacketFilterEvent :=
  if nested_pos.type = LFW_NLA_PKT_FILTER_LOG_TS then
    { event with ts := nested_pos.getU64 e + boot_ns }
  else if nested_pos.type = LFW_NLA_PKT_FILTER_LOG_SRC_IP then
    { event with source_ip := nested_pos.getU32 e }
  else if nested_pos.type = LFW_NLA_PKT_FILTER_LOG_DEST_IP then
    { event with dest_ip := nested_pos.getU32 e }
  else if nested_pos.type = LFW_NLA_PKT_FILTER_LOG_SRC_PORT then
    { event with source_port := nested_pos.getU16 e }
  else if nested_pos.type = LFW_NLA_PKT_FILTER_LOG_DEST_PORT then
    { event with dest_port := nested_pos.getU16 e }
  else if nested_pos.type = LFW_NLA_PKT_FILTER_LOG_PROTO then
    { event with proto := nested_pos.getU8 }
  else if nested_pos.type = LFW_NLA_PKT_FILTER_LOG_TTL then
    { event with ttl := nested_pos.getU8 }
  else if nested_pos.type = LFW_NLA_PKT_FILTER_LOG_ACTION then
    { event with action := nested_pos.getU8 }
  else event

/-- The event of one container. -/
def pktFilterDecode (e : Endian) (boot_ns : U64) (pos : NlAttr) : PacketFilterEvent :=
  (pos.nested e).foldl (pktFilterField e boot_ns) .zero

/-- The events among the attributes of a walk. -/
def pktFilterEvents (e : Endian) (boot_ns : U64) (attrs : List NlAttr) : List PacketFilterEvent :=
  (attrsOfType LFW_NLA_PKT_FILTER_LOG attrs).map (pktFilterDecode e boot_ns)

/-- `PacketFilterListener::wait_for_messages_callback`: the events it prints for
a message with this payload, which `nlmsg_data` points at. -/
def waitForMessagesCallback (e : Endian) (boot_ns : U64) (msg rest : List U8) :
    List PacketFilterEvent :=
  pktFilterEvents e boot_ns (nlaForEach e (msg ++ rest) msg.length)

end Librefw
