import Librefw.Bogon.Model.Tree
import Librefw.Common.CString
import Librefw.Kernel.Model.Nl
import Librefw.Kernel.Model.State

/-!
# The log

`log.c`: what the module says is printed into a buffer of 1024 bytes and
multicast with its level and the time, and what the handlers say. Whether
the 64-bit attribute is aligned by an empty one before it is up to the
architecture (`pad`).
-/

namespace Librefw

def LOGLEVEL_INFO : U8 := 6

/-- `struct log_ctx`, with the string its `msg` points at. -/
structure LogCtx where
  level : U8
  timestamp : U64
  msg : CString

/-- The attributes of one message of the log. -/
def LogCtx.fields (e : Endian) (pad : Bool) (ctx : LogCtx) : List Field :=
  ⟨LFW_NLA_LOG_LVL, [ctx.level]⟩ :: (if pad then [⟨LFW_NLA_UNSPEC, []⟩] else []) ++
    [⟨LFW_NLA_LOG_TS, e.ofWord (w := 8) ctx.timestamp⟩, ⟨LFW_NLA_LOG_MSG, ctx.msg.chars ++ [0]⟩]

/-- `lfw_build_log_msg`. -/
def lfwBuildLogMsg (e : Endian) (pad : Bool) (ctx : LogCtx) (skb : MsgBuf) : ℤ × MsgBuf :=
  match skb.nlaPuts e (ctx.fields e pad) with
  | (true, skb) => (0, skb)
  | (false, skb) => (-EMSGSIZE, skb)

/-- `lfw_log`, at the second `tv_sec`: whether it warns that it truncates, and
what is multicast. -/
def lfwLog (e : Endian) (pad allocated : Bool) (tv_sec : U64) (level : U8) (fmt : List FmtPiece) :
    Except Fault (Bool × Except ℤ (List U8)) :=
  if allocated then do
    let (len, msgbuf) ← vsnprintf 1024 fmt
    let msg ← cstr msgbuf
    pure (1024 < len,
      lfwMakeMulticastMsg LFW_NL_CMD_LOG (lfwBuildLogMsg e pad ⟨level, tv_sec, msg⟩) NLMSG_GOODSIZE)
  else pure (false, .error (-ENOMEM))

/-! ## What is said -/

/-- The bytes of an array of characters. -/
def charBytes (cs : List Char) : List U8 := cs.map fun c => BitVec.ofNat 8 c.toNat

/-- What `lfw_load_bg_tree` says of one prefix. -/
def LfwBgLog.fmt (e : Endian) (line : LfwBgLog) : List FmtPiece :=
  [.text ⟨asciiBytes "done parsing ip ", by decide⟩,
    .ipv4 fun i => (e.ofWord (w := 4) line.ip_be).getD i 0,
    .text ⟨asciiBytes ", used path ", by decide⟩, .str (charBytes line.ip_path),
    .text ⟨asciiBytes ", ", by decide⟩, .dec line.num_nodes,
    .text ⟨asciiBytes " nodes created", by decide⟩]

/-- What `lfw_bogon_set` says at the end. -/
def lfwBogonSetFmt (numPrefix : ℕ) : List FmtPiece :=
  [.text ⟨asciiBytes "done inserting ", by decide⟩, .dec (BitVec.ofNat 32 numPrefix).toInt,
    .text ⟨asciiBytes " prefixes into bogon filter list", by decide⟩]

/-- What `lfw_bogon_set` says: if it gets as far as loading the list, what the load
says, and the count. -/
def lfwBogonSetSays (e : Endian) (A : Allocator) (info : GenlInfo) (s : LfwBgState) :
    Except Fault (List (List FmtPiece)) := do
  let (ret, s') ← lfwBogonSet e A info s
  pure (if ret = 0 then
      (s'.log.drop s.log.length).map (LfwBgLog.fmt e) ++ [lfwBogonSetFmt (lfwNumPrefix e info)]
    else [])

/-- What is said of the flag. -/
def lfwUnderAttackFmt (under_attack : Bool) : List FmtPiece :=
  if under_attack then [.text ⟨asciiBytes "setting under attack\n", by decide⟩]
  else [.text ⟨asciiBytes "unsetting under attack\n", by decide⟩]

/-- What `lfw_state_set_under_attack_nl` says, before it sets the flag. -/
def lfwStateSetUnderAttackNlSays (e : Endian) (info : GenlInfo) : List FmtPiece :=
  lfwUnderAttackFmt (nlaGetFlag (info.attrs e LFW_NLA_UNDER_ATTACK))

end Librefw
