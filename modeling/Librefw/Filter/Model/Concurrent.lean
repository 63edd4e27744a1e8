import Librefw.Bogon.Model.Concurrent
import Librefw.Filter.Model.Hooks
import Librefw.Hcf.Model.Concurrent
import Librefw.Kernel.Model.Concurrent

/-!
# The ingress hook with everything in flight

The three parts of the module that a packet's verdict is read off, each
with everything in flight, and any number of calls of the ingress hook. A
call looks at the bogon list, at the flag and at the hop-count filter one
after another, each in a read section of its own, and other code runs in
between and in the middle of each.

A section of a part belongs to the call that entered it, so the part's own
events do not touch it. An event whose turn has not come leaves the state
as it is.
-/

namespace Librefw

/-- What a call has read: the state of a part that it loaded the root, the tree or the object
from. No step reads it. -/
inductive LfwSeen where
  | bogon (bg : LfwBgState)
  | flag (cell : LfwStateCell)
  | hop (tree : HcfTree)

/-- Where a call is: in the read section with a number, or back. -/
inductive LfwCallPc where
  | bogon (n : ℕ)
  | flag (n : ℕ)
  | hop (n : ℕ)
  | returned (verdict : ℕ)
  deriving DecidableEq, Repr

/-- A call of the hook, and what its sections before the present one have read. -/
structure LfwCall where
  saddr : U32
  ttl : U8
  pc : LfwCallPc
  seen : List LfwSeen

/-- The parts, and the calls there were. -/
structure LfwConc where
  bg : LfwBgSys
  state : LfwStateSys
  hcf : HcfSys
  calls : List LfwCall

/-- The parts after initialisation. -/
def lfwConcInit (A : Allocator) : Except ℤ LfwConc := do
  let state ← lfwStateSysInit A
  let bg ← lfwBgSysInit A
  let hcf ← hcfSysInit A
  pure ⟨bg, state, hcf, []⟩

/-- The events of a part that belong to a lookup. -/
def LfwBgEvent.isLookup : LfwBgEvent → Bool
  | .readerEnter _ | .readerStep _ => true
  | _ => false

def LfwStateEvent.isLookup : LfwStateEvent → Bool
  | .readerEnter | .readerStep _ => true
  | _ => false

def HcfEvent.isLookup : HcfEvent → Bool
  | .readerEnter _ _ | .readerStep _ => true
  | _ => false

/-- `lfw_filter_ipv4_hook_fn` up to its first lookup. -/
def lfwFilterEnter (e : Endian) (skb : SkBuff) (s : LfwConc) : LfwConc :=
  let accepted := { s with calls := s.calls ++ [⟨0, 0, .returned NF_ACCEPT, []⟩] }
  match skb.eth_hdr with
  | none => accepted
  | some eth =>
    if ntohs e (ethProto e eth) ≠ ETH_P_IP then accepted
    else
      match skbHeaderPointer skb skb.network_offset sizeofIphdr with
      | none => accepted
      | some bytes =>
        let iph := IpHdr.ofBytes e bytes
        if iph.protocol ≠ IPPROTO_TCP then accepted
        else
          let saddr := getUnalignedBe32 e iph.saddr
          { s with
            bg := lfwBgReaderEnter saddr s.bg
            calls := s.calls ++ [⟨saddr, iph.ttl, .bogon s.bg.clock, []⟩] }

/-- The section with a number. -/
def lfwBgReaderAt (n : ℕ) (s : LfwBgSys) : ℕ := s.readers.findIdx fun r => r.id = n

def lfwStateReaderAt (n : ℕ) (s : LfwStateSys) : ℕ := s.readers.findIdx fun r => r.id = n

def hcfReaderAt (n : ℕ) (s : HcfSys) : ℕ := s.readers.findIdx fun r => r.id = n

/-- The next step of the `j`-th call: the next load of its lookup, or, with the answer there, the
end of its section and the decision after it. -/
def lfwFilterStep (j : ℕ) (s : LfwConc) : Except Fault LfwConc :=
  match s.calls[j]? with
  | none => pure s
  | some c =>
    match c.pc with
    | .bogon n => do
      let i := lfwBgReaderAt n s.bg
      let bg ← lfwBgReaderStep i s.bg
      match s.bg.readers[i]?.map LfwBgReader.pc with
      | some (.done seen result) =>
        let seen := c.seen ++ [.bogon seen]
        if 0 < result then
          pure { s with
            bg := bg, calls := s.calls.set j { c with pc := .returned NF_DROP, seen := seen } }
        else
          pure { s with
            bg := bg, state := lfwStateReaderEnter s.state
            calls := s.calls.set j { c with pc := .flag s.state.clock, seen := seen } }
      | _ => pure { s with bg := bg }
    | .flag n => do
      let i := lfwStateReaderAt n s.state
      let state ← lfwStateReaderStep i s.state
      match s.state.readers[i]?.map LfwStateReader.pc with
      | some (.done seen result) =>
        let seen := c.seen ++ [.flag seen]
        if result then
          pure { s with
            state := state, hcf := hcfReaderEnter c.saddr c.ttl s.hcf
            calls := s.calls.set j { c with pc := .hop s.hcf.clock, seen := seen } }
        else
          pure { s with
            state := state
            calls := s.calls.set j { c with pc := .returned NF_ACCEPT, seen := seen } }
      | _ => pure { s with state := state }
    | .hop n => do
      let i := hcfReaderAt n s.hcf
      let hcf ← hcfReaderStep i s.hcf
      match s.hcf.readers[i]?.map HcfReader.pc with
      | some (.done loaded result) =>
        let verdict := if result < 1 then NF_DROP else NF_ACCEPT
        pure { s with
          hcf := hcf
          calls := s.calls.set j
            { c with pc := .returned verdict, seen := c.seen ++ [.hop loaded] } }
      | _ => pure { s with hcf := hcf }
    | .returned _ => pure s

/-- Everything that can happen next. -/
inductive LfwConcEvent where
  | bg (ev : LfwBgEvent)
  | state (ev : LfwStateEvent)
  | hcf (ev : HcfEvent)
  | ingress (skb : SkBuff)
  | filter (j : ℕ)

def lfwConcStep (e : Endian) (s : LfwConc) : LfwConcEvent → Except Fault LfwConc
  | .bg ev =>
    if ev.isLookup then pure s
    else do
      let bg ← lfwBgSysStep e s.bg ev
      pure { s with bg := bg }
  | .state ev =>
    if ev.isLookup then pure s
    else do
      let state ← lfwStateSysStep s.state ev
      pure { s with state := state }
  | .hcf ev =>
    if ev.isLookup then pure s
    else do
      let hcf ← hcfSysStep s.hcf ev
      pure { s with hcf := hcf }
  | .ingress skb => pure (lfwFilterEnter e skb s)
  | .filter j => lfwFilterStep j s

end Librefw
