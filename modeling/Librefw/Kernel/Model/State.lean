import Librefw.Common.Mem
import Librefw.Kernel.Model.NlOps

/-!
# The under-attack flag

`state.c`: the flag lives in an object that is never written once it is
published. Setting it publishes a changed copy and leaves the old object
to `kfree_rcu`.
-/

namespace Librefw

/-- `struct lfw_state`. -/
structure LfwState where
  under_attack : Bool
  deriving DecidableEq, Repr

/-- The published state, with the objects it is kept in and those that wait
to be freed. -/
structure LfwStateCell where
  mem : Mem LfwState
  state : Ptr
  rcu : List Ptr

/-- `lfw_init_state`, as far as the state object goes. -/
def lfwInitStateCell (A : Allocator) : Except ℤ LfwStateCell :=
  match (Mem.empty : Mem LfwState).zalloc A ⟨false⟩ with
  | (none, _) => throw (-ENOMEM)
  | (some st, m) => pure ⟨m, some st, []⟩

/-- `lfw_state_is_under_attack`. -/
def lfwStateIsUnderAttack (c : LfwStateCell) : Except Fault Bool := do
  let st ← c.mem.load c.state
  pure st.under_attack

/-- `lfw_state_set_under_attack`. -/
def lfwStateSetUnderAttack (A : Allocator) (new_value : Bool) (c : LfwStateCell) :
    Except Fault (ℤ × LfwStateCell) :=
  match c.mem.zalloc A ⟨false⟩ with
  | (none, m) => pure (-ENOMEM, { c with mem := m })
  | (some new_state, m) => do
    let old_state := c.state
    let st ← m.load old_state
    let m ← m.store (some new_state) st
    let m ← m.modify (some new_state) fun st => { st with under_attack := new_value }
    pure (0, ⟨m, some new_state, c.rcu ++ [old_state]⟩)

/-- `nla_get_flag`: whether the attribute is there. -/
def nlaGetFlag (a : Option NlAttr) : Bool := a.isSome

/-- `lfw_state_set_under_attack_nl`. -/
def lfwStateSetUnderAttackNl (e : Endian) (A : Allocator) (info : GenlInfo) (c : LfwStateCell) :
    Except Fault (ℤ × LfwStateCell) :=
  lfwStateSetUnderAttack A (nlaGetFlag (info.attrs e LFW_NLA_UNDER_ATTACK)) c

/-- The end of the grace period of the `i`-th object that waits. -/
def lfwStateKfreeRcu (i : ℕ) (c : LfwStateCell) : Except Fault LfwStateCell :=
  match c.rcu[i]? with
  | none => pure c
  | some none => pure { c with rcu := c.rcu.eraseIdx i }
  | some (some a) => do
    let m ← c.mem.free a
    pure { c with mem := m, rcu := c.rcu.eraseIdx i }

end Librefw
