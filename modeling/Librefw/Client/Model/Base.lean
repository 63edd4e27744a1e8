import Librefw.Common.Mem
import Librefw.Common.Text
import Librefw.Kernel.Model.Nl

/-!
# The client's messages

`make_message` of `base.cpp`, and what every request does for one of its
containers. A message is built in a buffer of fixed capacity; the length
of a message is a 32-bit word, so a capacity is one too.
-/

namespace Librefw

/-- Why a command ends before it returns. -/
inductive ClientAbort where
  | exception (what : StdException)
  | fault (f : Fault)
  deriving DecidableEq, Repr

/-- `sizeof(struct nlmsghdr)`. -/
def NLMSG_HDRLEN : ℕ := 16

/-- `NetlinkBase::make_message`: a message with its generic netlink header, in
a buffer of `capacity` bytes. -/
def makeMessage (capacity : U32) (netlink_function : ℕ) : Except ClientAbort MsgBuf :=
  if NLMSG_HDRLEN + GENL_HDRLEN ≤ capacity.toNat then
    pure (genlmsgPut (capacity.toNat - NLMSG_HDRLEN) netlink_function)
  else throw (.exception .systemError)

/-- A container with attributes put into it, and whether they fitted. If not it
is cancelled; a container that was not opened can be neither cancelled nor
ended. -/
def packNested (e : Endian) (type : ℕ) (fields : List Field) (msg : MsgBuf) :
    Except Fault (Bool × MsgBuf) :=
  let (container, msg) := msg.nestStart e type
  let (packed, msg) := msg.nlaPuts e fields
  match container with
  | none => throw .nullDeref
  | some container => pure (packed, if packed then msg.nestEnd e container else msg.nestCancel container)

end Librefw
