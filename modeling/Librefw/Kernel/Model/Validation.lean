import Librefw.Bogon.Model.Tree
import Librefw.Hcf.Model.State
import Librefw.Kernel.Model.Policy
import Librefw.Kernel.Model.State

/-!
# What validation consults and what the handlers read

A policy table is an array with designated initialisers, so it ends behind
the highest index it lists. Validation indexes the family's table with the
type of each attribute up to the family's `maxattr`, and a nested table
with the types it has entries for. The handlers then read the message
itself, through `nla_get_u32` and its like, which look at no length.
-/

namespace Librefw

/-- The size of an array with these designated initialisers. -/
def tableSize {α : Type} (pol : List (ℕ × α)) : ℕ := (pol.map fun entry => entry.1 + 1).foldr max 0

/-- An entry of a table that validation consults. -/
structure PolicyConsult where
  size : ℕ
  index : ℕ
  deriving DecidableEq, Repr

def PolicyConsult.Inside (c : PolicyConsult) : Prop := c.index < c.size

/-- What validation consults for the attributes in a container, with `pt->len` the last
index of the nested table. -/
def nlaConsultsNested (e : Endian) (pol : List (ℕ × NlaScalar)) (a : NlAttr) :
    List PolicyConsult :=
  ((a.nested e).filter fun b => 1 ≤ b.type ∧ b.type ≤ tableSize pol - 1).map fun b =>
    ⟨tableSize pol, b.type⟩

/-- What validation consults for one attribute of a request. -/
def nlaConsults (e : Endian) (maxattr : ℕ) (pol : List (ℕ × NlaPolicy)) (a : NlAttr) :
    List PolicyConsult :=
  if 1 ≤ a.type ∧ a.type ≤ maxattr then
    ⟨tableSize pol, a.type⟩ ::
      match pol.lookup a.type with
      | some (.nested nested_policy) => nlaConsultsNested e nested_policy a
      | _ => []
  else []

/-- Whether a request passes, where the table ends before `maxattr`: an attribute with its
entry behind the table passes as the memory there has it. -/
def nlaValidateBeyond (e : Endian) (beyond : NlAttr → Bool) (maxattr : ℕ)
    (pol : List (ℕ × NlaPolicy)) (attrs : List NlAttr) : Bool :=
  attrs.all fun a =>
    if tableSize pol ≤ a.type ∧ a.type ≤ maxattr then beyond a
    else (pol.lookup a.type).any fun p => p.admits e a

/-- A read of `width` bytes from the front of the payload of an attribute. -/
structure NlaGet where
  attr : NlAttr
  width : ℕ
  deriving DecidableEq, Repr

/-- The reads for one container of a SET_BOGON request. -/
def lfwPrefixGets (e : Endian) (pos : NlAttr) : List NlaGet :=
  (pos.nested e).flatMap fun nested_pos =>
    if nested_pos.type = LFW_NLA_N_IP_ADDR then [⟨nested_pos, 4⟩]
    else if nested_pos.type = LFW_NLA_N_IP_PREFIX_LEN then [⟨nested_pos, 1⟩]
    else []

/-- The reads of `lfw_bogon_set`: the containers are read if there is a count and `vzalloc`
gave a buffer. -/
def lfwBogonSetGets (e : Endian) (allocated : Bool) (info : GenlInfo) : List NlaGet :=
  (info.attrs e LFW_NLA_NUM_IP_PREFIX).toList.map (⟨·, 4⟩) ++
    if lfwNumPrefix e info = 0 ∨ !allocated then []
    else (lfwPrefixAttrs e info).flatMap (lfwPrefixGets e)

/-- The reads for one container of a SET_HCF_HISTORY request. An address is read if it is
one of four bytes. -/
def hcfEntryGets (e : Endian) (pos : NlAttr) : List NlaGet :=
  (pos.nested e).flatMap fun nested_pos =>
    if nested_pos.type = LFW_NLA_HCF_HISTORY_IP then
      if nested_pos.len = 4 then [⟨nested_pos, 4⟩] else []
    else if nested_pos.type = LFW_NLA_HCF_HISTORY_TTL then [⟨nested_pos, 1⟩]
    else if nested_pos.type = LFW_NLA_HCF_HISTORY_HC then [⟨nested_pos, 1⟩]
    else []

/-- The reads of `hcf_register_ip_history`, if there is a root for the new tree. -/
def hcfRegisterIpHistoryGets (e : Endian) (allocated : Bool) (info : GenlInfo) : List NlaGet :=
  if !allocated then []
  else (attrsOfType LFW_NLA_HCF_HISTORY (info.all e)).flatMap (hcfEntryGets e)

/-- The reads of `lfw_state_set_under_attack_nl`: of a flag no byte is read. -/
def lfwStateSetUnderAttackNlGets (e : Endian) (_allocated : Bool) (info : GenlInfo) :
    List NlaGet :=
  (info.attrs e LFW_NLA_UNDER_ATTACK).toList.map (⟨·, 0⟩)

/-- `lfw_nl_ops`, each command with what its handler reads. -/
def lfwNlOps : List (ℕ × (Endian → Bool → GenlInfo → List NlaGet)) :=
  [(LFW_NL_CMD_SET_BOGON, lfwBogonSetGets),
    (LFW_NL_CMD_SET_UNDER_ATTACK, lfwStateSetUnderAttackNlGets),
    (LFW_NL_CMD_SET_HCF_HISTORY, hcfRegisterIpHistoryGets)]

/-- `lfw_nl_family`, as far as validation reads it: what it consults for a request. -/
def lfwNlConsults (e : Endian) (info : GenlInfo) : List PolicyConsult :=
  (info.all e).flatMap (nlaConsults e LFW_NLA_MAX lfwPol)

/-- Whether a request of the family passes. -/
def lfwNlValidates (e : Endian) (beyond : NlAttr → Bool) (info : GenlInfo) : Bool :=
  nlaValidateBeyond e beyond LFW_NLA_MAX lfwPol (info.all e)

/-- The attribute is one of the request, or in a container of it. -/
def LfwPresent (e : Endian) (info : GenlInfo) (a : NlAttr) : Prop :=
  a ∈ info.all e ∨ ∃ pos ∈ info.all e, a ∈ pos.nested e

/-- The read stays inside the payload of an attribute that is present. -/
def NlaGet.Inside (e : Endian) (info : GenlInfo) (g : NlaGet) : Prop :=
  LfwPresent e info g.attr ∧ g.width ≤ g.attr.len

end Librefw
