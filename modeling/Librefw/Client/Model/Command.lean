import Librefw.Client.Model.Base

/-!
# The client's flag

`command.cpp` as far as it sets and clears the flag.
-/

namespace Librefw

/-- `CommandDispatcher::set_under_attack`: what is sent, if the flag fitted. -/
def setUnderAttack (e : Endian) (capacity : U32) (under_attack : Bool) :
    Except ClientAbort (Option (List U8)) := do
  let msg ← makeMessage capacity LFW_NL_CMD_SET_UNDER_ATTACK
  if under_attack then
    let (put, msg) := msg.nlaPut e ⟨LFW_NLA_UNDER_ATTACK, []⟩
    pure (if put then some msg.bytes else none)
  else pure (some msg.bytes)

end Librefw
