import Librefw.Filter.Model.Hooks
import Librefw.Common.Trace

/-!
# Traffic

What the module takes in and what it gives back: packets on their way to
the host, packets from the wire, works, commands and the ends of grace
periods, with verdicts, announcements and the returns of commands. An
allocation may fail.
-/

namespace Librefw

/-- What comes to the module. With a packet for the host comes what `kzalloc` returns for
its work, should it get one. -/
inductive LfwInput where
  | localIn (task : Option HcfAddNodeTask) (skb : SkBuff)
  | ingress (skb : SkBuff)
  | work (A : Allocator) (i : ℕ)
  | setBogon (A : Allocator) (info : GenlInfo)
  | setHcfHistory (A : Allocator) (info : GenlInfo)
  | setUnderAttack (A : Allocator) (info : GenlInfo)
  | bogonCallback (i : ℕ)
  | hcfCallback (i : ℕ)
  | stateCallback (i : ℕ)

/-- What is seen of the module. -/
inductive LfwOutput where
  | verdict (v : ℕ)
  | announced (ctx : HcfIpCtx)
  | ret (r : ℤ)
  deriving DecidableEq, Repr

/-- What the module does with an input. The hook that learns accepts every packet. -/
def lfwHandle (e : Endian) (s : LfwSystem) : LfwInput → Except Fault (List LfwOutput × LfwSystem)
  | .localIn task skb => do
    let (_, s) ← lfwHcLearnIpv4HookFn e task skb s
    pure ([], s)
  | .ingress skb => do
    let v ← lfwFilterIpv4HookFn e s skb
    pure ([.verdict v], s)
  | .work A i =>
    match s.workqueue[i]? with
    | none => pure ([], s)
    | some task => do
      let (announced, hcf) ← hcfRegisterIpWork A task s.hcf
      pure (announced.toList.map .announced,
        { s with hcf := hcf, workqueue := s.workqueue.eraseIdx i })
  | .setBogon A info => do
    let (ret, bg) ← lfwBogonSet e A info s.bg
    pure ([.ret ret], { s with bg := bg })
  | .setHcfHistory A info => do
    let (ret, hcf) ← hcfRegisterIpHistory e A info s.hcf
    pure ([.ret ret], { s with hcf := hcf })
  | .setUnderAttack A info => do
    let (ret, state) ← lfwStateSetUnderAttackNl e A info s.state
    pure ([.ret ret], { s with state := state })
  | .bogonCallback i => do
    let bg ← lfwFreeBgTree i s.bg
    pure ([], { s with bg := bg })
  | .hcfCallback i => do
    let hcf ← hcfFreeNodeRcu i s.hcf
    pure ([], { s with hcf := hcf })
  | .stateCallback i => do
    let state ← lfwStateKfreeRcu i s.state
    pure ([], { s with state := state })

/-- A run of the module. -/
def lfwTrace (e : Endian) : LfwSystem → List LfwInput → Except Fault (List LfwOutput × LfwSystem) :=
  trace (lfwHandle e)

/-- What the hook call for a packet on its way to the host sees of the flag, if it gets as
far as looking. -/
def lfwHookSees (e : Endian) (s : LfwSystem) (skb : SkBuff) : Option Bool :=
  match ipHdr skb with
  | none => none
  | some bytes =>
    if (IpHdr.ofBytes e bytes).protocol ≠ IPPROTO_TCP then none
    else (lfwStateIsUnderAttack s.state).toOption

/-- The input is a packet for the host, and its hook call sees the flag set. -/
def lfwSeenSet (e : Endian) (s : LfwSystem) : LfwInput → Bool
  | .localIn _ skb => lfwHookSees e s skb = some true
  | _ => false

/-- A run, less the packets for the host whose hook calls see the flag set. -/
def lfwCalm (e : Endian) : LfwSystem → List LfwInput → List LfwInput :=
  purge (lfwHandle e) (lfwSeenSet e)

/-- The work that a packet is to queue. -/
def lfwTaskOf (e : Endian) (skb : SkBuff) : HcfAddNodeTask :=
  let iph := IpHdr.ofBytes e (skb.data.drop skb.network_offset)
  ⟨getUnalignedBe32 e iph.saddr, iph.ttl⟩

end Librefw
