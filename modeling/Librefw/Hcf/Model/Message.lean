import Librefw.Hcf.Model.State
import Librefw.Kernel.Model.Nl

/-!
# What the hop-count filter announces

The message of one announcement, and a sequence of register works with
what they announce, in order.
-/

namespace Librefw

/-- `hcf_build_log_msg`. -/
def hcfBuildLogMsg (e : Endian) (ctx : HcfIpCtx) (msg : MsgBuf) : ℤ × MsgBuf :=
  match msg.nlaPuts e
    [⟨LFW_NLA_HCF_IP, e.ofWord (w := 4) ctx.source_ip⟩, ⟨LFW_NLA_HCF_TTL, [ctx.ttl]⟩,
      ⟨LFW_NLA_HCF_HC, [ctx.hc]⟩] with
  | (true, msg) => (0, msg)
  | (false, msg) => (-EMSGSIZE, msg)

/-- `hcf_log_new_ip`. -/
def hcfLogNewIpMsg (e : Endian) (ctx : HcfIpCtx) : Except ℤ (List U8) :=
  lfwMakeMulticastMsg LFW_NL_CMD_HCF (hcfBuildLogMsg e ctx) NLMSG_GOODSIZE

/-- Register works, one after another, with what they announce. -/
def hcfLearn : List (Supply × HcfAddNodeTask) → HcfState → Except Fault (List HcfIpCtx × HcfState)
  | [], s => pure ([], s)
  | (A, task) :: tasks, s => do
    let (announced, s) ← hcfRegisterIpWork A.toAllocator task s
    let (rest, s) ← hcfLearn tasks s
    pure (announced.toList ++ rest, s)

end Librefw
