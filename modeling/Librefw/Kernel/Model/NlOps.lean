import Librefw.Common.Netlink

/-!
# The shared netlink interface

The attribute and command numbers kernel and client share
(`nl_ops.h`), in the order of their enums.
-/

namespace Librefw

def LFW_NL_FAMILY_VER : ℕ := 1

/-! `enum lfw_nl_attrs` -/

def LFW_NLA_UNSPEC : ℕ := 0
def LFW_NLA_NUM_IP_PREFIX : ℕ := 1
def LFW_NLA_IP_PREFIX : ℕ := 2
def LFW_NLA_N_IP_ADDR : ℕ := 3
def LFW_NLA_N_IP_PREFIX_LEN : ℕ := 4
def LFW_NLA_UNDER_ATTACK : ℕ := 5
def LFW_NLA_LOG_TS : ℕ := 6
def LFW_NLA_LOG_LVL : ℕ := 7
def LFW_NLA_LOG_MSG : ℕ := 8
def LFW_NLA_HCF_IP : ℕ := 9
def LFW_NLA_HCF_HC : ℕ := 10
def LFW_NLA_HCF_TTL : ℕ := 11
def LFW_NLA_HCF_HISTORY : ℕ := 12
def LFW_NLA_HCF_HISTORY_IP : ℕ := 13
def LFW_NLA_HCF_HISTORY_HC : ℕ := 14
def LFW_NLA_HCF_HISTORY_TTL : ℕ := 15
def LFW_NLA_PKT_FILTER_LOG : ℕ := 16
def LFW_NLA_PKT_FILTER_LOG_TS : ℕ := 17
def LFW_NLA_PKT_FILTER_LOG_SRC_IP : ℕ := 18
def LFW_NLA_PKT_FILTER_LOG_DEST_IP : ℕ := 19
def LFW_NLA_PKT_FILTER_LOG_SRC_PORT : ℕ := 20
def LFW_NLA_PKT_FILTER_LOG_DEST_PORT : ℕ := 21
def LFW_NLA_PKT_FILTER_LOG_PROTO : ℕ := 22
def LFW_NLA_PKT_FILTER_LOG_TTL : ℕ := 23
def LFW_NLA_PKT_FILTER_LOG_ACTION : ℕ := 24

def LFW_NLA_MAX : ℕ := 24

/-! `enum lfw_nl_cmds` -/

def LFW_NL_CMD_SET_HCF_HISTORY : ℕ := 1
def LFW_NL_CMD_SET_BOGON : ℕ := 2
def LFW_NL_CMD_SET_UNDER_ATTACK : ℕ := 3
def LFW_NL_CMD_LOG : ℕ := 4
def LFW_NL_CMD_HCF : ℕ := 5
def LFW_NL_CMD_PKT_FILTER_LOG : ℕ := 6

/-! ## Requests -/

/-- `struct genl_info`, as far as the handlers read it: the memory from the
attributes of the request on, and how many bytes of it they take. -/
structure GenlInfo where
  attrdata : List U8
  attrlen : ℕ
  deriving DecidableEq, Repr

/-- The attributes of a request. -/
def GenlInfo.all (e : Endian) (info : GenlInfo) : List NlAttr :=
  nlaForEach e info.attrdata info.attrlen

/-- `nla_for_each_attr_type`: the attributes of one type. -/
def attrsOfType (type : ℕ) (attrs : List NlAttr) : List NlAttr :=
  attrs.filter fun a => a.type = type

/-- `info->attrs[type]`: of the attributes of a type the parser keeps the
last. -/
def GenlInfo.attrs (e : Endian) (info : GenlInfo) (type : ℕ) : Option NlAttr :=
  (attrsOfType type (info.all e)).getLast?

def EINVAL : ℤ := 22
def ENOMEM : ℤ := 12
def EMSGSIZE : ℤ := 90

end Librefw
