import Librefw.Bogon.Model.Tree
import Librefw.Hcf.Model.State
import Librefw.Kernel.Model.State

/-!
# The hooks

`hooks.c` over the whole module: the ingress hook that gives a packet its
verdict, the hook that learns hop counts from what reaches the host, and
the events that change the module's state in between. A packet is its
Ethernet header, if it has one, and its bytes with the offset of the
network header in them.
-/

namespace Librefw

def NF_DROP : ℕ := 0
def NF_ACCEPT : ℕ := 1
def ETH_P_IP : U16 := 0x0800
def IPPROTO_TCP : U8 := 6

/-- `sizeof(struct iphdr)`. -/
def sizeofIphdr : ℕ := 20

/-- `struct sk_buff`, as far as the hooks read it. -/
structure SkBuff where
  eth_hdr : Option (List U8)
  data : List U8
  network_offset : ℕ
  deriving DecidableEq, Repr

/-- `skb_header_pointer`: `len` bytes at `offset`, if the packet has them. -/
def skbHeaderPointer (skb : SkBuff) (offset len : ℕ) : Option (List U8) :=
  if offset + len ≤ skb.data.length then some ((skb.data.drop offset).take len) else none

/-- `ip_hdr`: the memory at the network header. -/
def ipHdr (skb : SkBuff) : Option (List U8) := some (skb.data.drop skb.network_offset)

/-- `ntohs`. -/
def ntohs (e : Endian) (v : U16) : U16 := Endian.big.word 2 (e.ofWord (w := 2) v)

/-- `h_proto` of `struct ethhdr`, as it came. -/
def ethProto (e : Endian) (eth : List U8) : U16 := e.word 2 (eth.drop 12)

/-- `struct iphdr`, as far as the hooks read it; the address is as it came. -/
structure IpHdr where
  ttl : U8
  protocol : U8
  saddr : U32
  deriving DecidableEq, Repr

def IpHdr.ofBytes (e : Endian) (bytes : List U8) : IpHdr :=
  ⟨bytes.getD 8 0, bytes.getD 9 0, e.word 4 (bytes.drop 12)⟩

/-- The module: the flag, the bogon list, the hop-count filter and the register
works queued and not yet run. -/
structure LfwSystem where
  state : LfwStateCell
  bg : LfwBgState
  hcf : HcfState
  workqueue : List HcfAddNodeTask

/-- `lfw_init_state`, past the registration of the family and of the packet
log. -/
def lfwInitState (A : Allocator) : Except ℤ LfwSystem := do
  let state ← lfwInitStateCell A
  let bg ← lfwInitBgState A
  let hcf ← hcfInitState A
  pure ⟨state, bg, hcf, []⟩

/-- `hcf_register_ip`; `task` is what `kzalloc` came back with. -/
def hcfRegisterIp (task : Option HcfAddNodeTask) (source_ip : U32) (ttl : U8)
    (workqueue : List HcfAddNodeTask) : List HcfAddNodeTask :=
  match task with
  | none => workqueue
  | some task => workqueue ++ [{ task with source_ip := source_ip, ttl := ttl }]

/-- `lfw_filter_ipv4_hook_fn`. -/
def lfwFilterIpv4HookFn (e : Endian) (s : LfwSystem) (skb : SkBuff) : Except Fault ℕ :=
  match skb.eth_hdr with
  | none => pure NF_ACCEPT
  | some eth =>
    if ntohs e (ethProto e eth) ≠ ETH_P_IP then pure NF_ACCEPT
    else
      match skbHeaderPointer skb skb.network_offset sizeofIphdr with
      | none => pure NF_ACCEPT
      | some bytes =>
        let iph := IpHdr.ofBytes e bytes
        if iph.protocol ≠ IPPROTO_TCP then pure NF_ACCEPT
        else do
          let saddr := getUnalignedBe32 e iph.saddr
          let bogon ← lfwLookupBgTree s.bg saddr
          if 0 < bogon then pure NF_DROP
          else do
            let attack ← lfwStateIsUnderAttack s.state
            if attack then do
              let hop ← hcfLookupTree s.hcf.tree s.hcf.mem saddr iph.ttl
              if hop < 1 then pure NF_DROP else pure NF_ACCEPT
            else pure NF_ACCEPT

/-- `lfw_hc_learn_ipv4_hook_fn`, with `task` for `hcf_register_ip`. -/
def lfwHcLearnIpv4HookFn (e : Endian) (task : Option HcfAddNodeTask) (skb : SkBuff)
    (s : LfwSystem) : Except Fault (ℕ × LfwSystem) :=
  match ipHdr skb with
  | none => pure (NF_ACCEPT, s)
  | some bytes =>
    let iph := IpHdr.ofBytes e bytes
    if iph.protocol ≠ IPPROTO_TCP then pure (NF_ACCEPT, s)
    else do
      let attack ← lfwStateIsUnderAttack s.state
      if attack then pure (NF_ACCEPT, s)
      else
        let workqueue := hcfRegisterIp task (getUnalignedBe32 e iph.saddr) iph.ttl s.workqueue
        pure (NF_ACCEPT, { s with workqueue := workqueue })

/-- The workqueue runs its `i`-th work. -/
def lfwRunWork (A : Allocator) (i : ℕ) (s : LfwSystem) : Except Fault LfwSystem :=
  match s.workqueue[i]? with
  | none => pure s
  | some task => do
    let (_, hcf) ← hcfRegisterIpWork A task s.hcf
    pure { s with hcf := hcf, workqueue := s.workqueue.eraseIdx i }

/-- What can happen to the module: packets, works, commands and the ends of
grace periods. -/
inductive LfwEvent where
  | learn (skb : SkBuff)
  | work (A : Supply) (i : ℕ)
  | setBogon (A : Supply) (info : GenlInfo)
  | setHcfHistory (A : Supply) (info : GenlInfo)
  | setUnderAttack (A : Supply) (info : GenlInfo)
  | bogonCallback (i : ℕ)
  | hcfCallback (i : ℕ)
  | stateCallback (i : ℕ)

/-- One event, with allocations that succeed. -/
def lfwStep (e : Endian) (s : LfwSystem) : LfwEvent → Except Fault LfwSystem
  | .learn skb => do
    let (_, s) ← lfwHcLearnIpv4HookFn e (some ⟨0, 0⟩) skb s
    pure s
  | .work A i => lfwRunWork A.toAllocator i s
  | .setBogon A info => do
    let (_, bg) ← lfwBogonSet e A.toAllocator info s.bg
    pure { s with bg := bg }
  | .setHcfHistory A info => do
    let (_, hcf) ← hcfRegisterIpHistory e A.toAllocator info s.hcf
    pure { s with hcf := hcf }
  | .setUnderAttack A info => do
    let (_, state) ← lfwStateSetUnderAttackNl e A.toAllocator info s.state
    pure { s with state := state }
  | .bogonCallback i => do
    let bg ← lfwFreeBgTree i s.bg
    pure { s with bg := bg }
  | .hcfCallback i => do
    let hcf ← hcfFreeNodeRcu i s.hcf
    pure { s with hcf := hcf }
  | .stateCallback i => do
    let state ← lfwStateKfreeRcu i s.state
    pure { s with state := state }

end Librefw
