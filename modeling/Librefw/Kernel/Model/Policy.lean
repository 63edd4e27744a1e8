import Librefw.Kernel.Model.NlOps

/-!
# The attribute policy of the family

The policy tables of `nl.c`, and what strict validation asks of a request
before its handler runs: every attribute has an entry for its type, a
scalar has exactly the size of its type, and a container is marked as one
and validates against its own table. A type a table does not list is
refused.
-/

namespace Librefw

/-- An entry of a policy table that is not a container. -/
inductive NlaScalar where
  | u8
  | u32
  | u64
  | be16
  | be32
  | flag
  | binary (len : ℕ)
  | nulString
  deriving DecidableEq, Repr

/-- The payloads an entry admits. -/
def NlaScalar.admits (p : NlaScalar) (a : NlAttr) : Bool :=
  match p with
  | u8 => a.len = 1
  | u32 => a.len = 4
  | u64 => a.len = 8
  | be16 => a.len = 2
  | be32 => a.len = 4
  | flag => a.len = 0
  | binary len => a.len ≤ len
  | nulString => 0 ∈ a.payload

inductive NlaPolicy where
  | scalar (p : NlaScalar)
  | nested (pol : List (ℕ × NlaScalar))
  deriving DecidableEq, Repr

def NlaPolicy.admits (e : Endian) (p : NlaPolicy) (a : NlAttr) : Bool :=
  match p with
  | scalar p => p.admits a
  | nested pol =>
    NLA_F_NESTED ≤ a.nla_type &&
      (a.nested e).all fun b => (pol.lookup b.type).any fun q => q.admits b

/-- Whether a request passes a policy. -/
def nlaValidate (e : Endian) (pol : List (ℕ × NlaPolicy)) (attrs : List NlAttr) : Bool :=
  attrs.all fun a => (pol.lookup a.type).any fun p => p.admits e a

/-! The tables. -/

def lfwIpPrefixPol : List (ℕ × NlaScalar) :=
  [(LFW_NLA_N_IP_ADDR, .u32), (LFW_NLA_N_IP_PREFIX_LEN, .u8)]

def hcfIpHistoryPol : List (ℕ × NlaScalar) :=
  [(LFW_NLA_HCF_HISTORY_IP, .binary 16), (LFW_NLA_HCF_HISTORY_HC, .u8),
    (LFW_NLA_HCF_HISTORY_TTL, .u8)]

def pktFilterLogPol : List (ℕ × NlaScalar) :=
  [(LFW_NLA_PKT_FILTER_LOG_TS, .u64), (LFW_NLA_PKT_FILTER_LOG_SRC_IP, .be32),
    (LFW_NLA_PKT_FILTER_LOG_DEST_IP, .be32), (LFW_NLA_PKT_FILTER_LOG_SRC_PORT, .be16),
    (LFW_NLA_PKT_FILTER_LOG_DEST_PORT, .be16), (LFW_NLA_PKT_FILTER_LOG_PROTO, .u8),
    (LFW_NLA_PKT_FILTER_LOG_TTL, .u8), (LFW_NLA_PKT_FILTER_LOG_ACTION, .u8)]

def lfwPol : List (ℕ × NlaPolicy) :=
  [(LFW_NLA_NUM_IP_PREFIX, .scalar .u32), (LFW_NLA_IP_PREFIX, .nested lfwIpPrefixPol),
    (LFW_NLA_HCF_HISTORY, .nested hcfIpHistoryPol),
    (LFW_NLA_PKT_FILTER_LOG, .nested pktFilterLogPol), (LFW_NLA_UNDER_ATTACK, .scalar .flag),
    (LFW_NLA_LOG_TS, .scalar .u64), (LFW_NLA_LOG_LVL, .scalar .u8),
    (LFW_NLA_LOG_MSG, .scalar .nulString), (LFW_NLA_HCF_IP, .scalar .u32),
    (LFW_NLA_HCF_HC, .scalar .u8), (LFW_NLA_HCF_TTL, .scalar .u8)]

/-- Whether a request of the family reaches its handler. -/
def lfwPolicyAdmits (e : Endian) (info : GenlInfo) : Bool := nlaValidate e lfwPol (info.all e)

end Librefw
