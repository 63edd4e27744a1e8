import Librefw.Kernel.Model.Lifetime

/-!
# What the module holds

Beside the code of `mod.c` runs what its hooks and timers call: packets,
while the hooks are registered, and ticks, while the timers are armed. Each
works with things the module has acquired. A thing released that is not
held is freed twice, and one that is used and not held is used after it was
freed, or before it was there.

Commands are left out. A handler that runs while the module goes may
replace what the code is about to release; what it works with is the
subject of `Kernel.Lifetime`.
-/

namespace Librefw

/-- The things the code acquires, one by one. -/
inductive LfwResource where
  | object (c : LfwComponent) (o : LfwObject)
  | tree (c : LfwComponent)
  | family
  | device
  | hooks
  | timers
  | readPages
  deriving DecidableEq, Repr

def LfwAcquire.resource : LfwAcquire → LfwResource
  | .alloc c o => .object c o
  | .createTree c => .tree c
  | .genlRegisterFamily => .family
  | .netdevGetByName => .device
  | .nfRegisterNetHooks => .hooks

/-- What a release gives back. A tree handed to `call_rcu` is no longer the module's. -/
def LfwRelease.gives : LfwRelease → Option LfwResource
  | .free c o => some (.object c o)
  | .genlUnregisterFamily => some .family
  | .netdevPut => some .device
  | .nfUnregisterNetHooks => some .hooks
  | .timerShutdownSync => some .timers
  | .freeReadPages => some .readPages
  | .swapTree => some (.tree .hcf)
  | .callRcuTree => some (.tree .bogon)
  | .clear _ _ | .addTimers | .synchronizeRcu => none

/-- What the loop over the CPUs sets up. It does not look whether it was given the read pages:
the timers are armed all the same. -/
def LfwRelease.takes (ok : Bool) : LfwRelease → List LfwResource
  | .addTimers => if ok then [.timers, .readPages] else [.timers]
  | _ => []

/-- What the hooks work with: the flag, the list, the hop counts and their queue, the packet log. -/
def lfwHookNeeds : List LfwResource :=
  [.object .state .state, .object .bogon .state, .object .bogon .cache, .tree .bogon,
    .object .hcf .state, .object .hcf .cache, .object .hcf .workqueue, .tree .hcf,
    .object .pktFilterLog .state, .object .pktFilterLog .ringBuffer,
    .object .pktFilterLog .workqueue, .readPages]

/-- What a timer works with. -/
def lfwTimerNeeds : List LfwResource :=
  [.object .pktFilterLog .state, .object .pktFilterLog .ringBuffer,
    .object .pktFilterLog .workqueue, .readPages]

/-- The module with what it holds. -/
structure LfwHolder where
  life : LfwLife
  held : List LfwResource

def lfwHolderUnloaded : LfwHolder := ⟨lfwUnloaded, []⟩

/-- What is held after the next step of the code. -/
def LfwCode.holds (code : LfwCode) (ok : Bool) (held : List LfwResource) :
    Except Fault (List LfwResource) :=
  match code with
  | .acquire a _ _ => pure (if ok then a.resource :: held else held)
  | .release r _ =>
    match r.gives with
    | none => pure (r.takes ok ++ held)
    | some x => if x ∈ held then pure (held.erase x) else throw (.doubleFree 0)
  | _ => pure held

/-- Something that works with things of the module. -/
def lfwUse (needs held : List LfwResource) : Except Fault Unit :=
  if ∀ x ∈ needs, x ∈ held then pure () else throw (.useAfterFree 0)

/-- What can happen: a step of the code, a packet, a tick. -/
inductive LfwHolderEvent where
  | advance (ok : Bool)
  | packet
  | tick
  deriving DecidableEq, Repr

def lfwHolderStep (s : LfwHolder) : LfwHolderEvent → Except Fault LfwHolder
  | .advance ok => do
    let held ← s.life.code.holds ok s.held
    pure ⟨s.life.advance ok, held⟩
  | .packet => do
    if LfwResource.hooks ∈ s.held then lfwUse lfwHookNeeds s.held
    pure s
  | .tick => do
    if LfwResource.timers ∈ s.held then lfwUse lfwTimerNeeds s.held
    pure s

end Librefw
