import Librefw.Kernel.Model.NlOps

/-!
# Messages of the family

The payload of a message of the family, from the generic netlink header on:
`genlmsg_put` opens it, attributes follow, and `lfw_make_multicast_msg` of
`nl.c` sends what a callback filled in.
-/

namespace Librefw

def GENL_HDRLEN : ℕ := 4

/-- `NLMSG_GOODSIZE`, for pages of four KiB. -/
def NLMSG_GOODSIZE : ℕ := 3776

/-- `genlmsg_put`: the header of a message with room for `room` bytes. -/
def genlmsgPut (room cmd : ℕ) : MsgBuf :=
  ⟨room, [BitVec.ofNat 8 cmd, BitVec.ofNat 8 LFW_NL_FAMILY_VER, 0, 0]⟩

/-- `genlmsg_attrdata` and `genlmsg_attrlen`: the attributes of a message, with
what follows it in memory. -/
def genlAttrs (msg rest : List U8) : GenlInfo :=
  ⟨msg.drop GENL_HDRLEN ++ rest, msg.length - GENL_HDRLEN⟩

/-- `lfw_make_multicast_msg`: what is multicast, or the callback's error. -/
def lfwMakeMulticastMsg (cmd : ℕ) (callback : MsgBuf → ℤ × MsgBuf) (msgsize : ℕ) :
    Except ℤ (List U8) :=
  let (ret, msg) := callback (genlmsgPut (GENL_HDRLEN + msgsize) cmd)
  if ret ≠ 0 then throw ret else pure msg.bytes

end Librefw
