import Librefw.Filter.Model.Hooks
import Librefw.Kernel.Model.Nl
import Librefw.Kernel.Model.Policy

/-!
# Commands to the module

How a message of the family reaches its handler (`lfw_nl_ops` of `nl.c`).
The command is the first byte of the message; one without an operation is
refused, and so is a message that does not pass the policy.
-/

namespace Librefw

def EOPNOTSUPP : ℤ := 95

/-- A `doit` of the family, over the whole module. -/
abbrev LfwDoit := Endian → Allocator → GenlInfo → LfwSystem → Except Fault (ℤ × LfwSystem)

def lfwBogonSetDoit : LfwDoit := fun e A info s => do
  let (ret, bg) ← lfwBogonSet e A info s.bg
  pure (ret, { s with bg := bg })

def lfwStateSetUnderAttackDoit : LfwDoit := fun e A info s => do
  let (ret, state) ← lfwStateSetUnderAttackNl e A info s.state
  pure (ret, { s with state := state })

def hcfRegisterIpHistoryDoit : LfwDoit := fun e A info s => do
  let (ret, hcf) ← hcfRegisterIpHistory e A info s.hcf
  pure (ret, { s with hcf := hcf })

/-- `lfw_nl_ops`. -/
def lfwNlDoits : List (ℕ × LfwDoit) :=
  [(LFW_NL_CMD_SET_BOGON, lfwBogonSetDoit),
    (LFW_NL_CMD_SET_UNDER_ATTACK, lfwStateSetUnderAttackDoit),
    (LFW_NL_CMD_SET_HCF_HISTORY, hcfRegisterIpHistoryDoit)]

/-- A message of the family, followed in memory by `rest`, is received. -/
def lfwNlReceive (e : Endian) (A : Allocator) (msg rest : List U8) (s : LfwSystem) :
    Except Fault (ℤ × LfwSystem) :=
  match lfwNlDoits.lookup (msg.headD 0).toNat with
  | none => pure (-EOPNOTSUPP, s)
  | some doit =>
    if lfwPolicyAdmits e (genlAttrs msg rest) then doit e A (genlAttrs msg rest) s
    else pure (-EINVAL, s)

end Librefw
