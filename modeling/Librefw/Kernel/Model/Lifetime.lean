import Librefw.Common.Run

/-!
# The life of the module

`mod.c` and the functions it runs through, as code: what `lfw_mod_init`
and `lfw_mod_exit` acquire and release, in program order, with a jump
where something could not be had. Each function is given what follows it,
where it succeeds and where it fails, as its labels are.

Netlink commands run beside it. One begins at any moment at which the
family is registered; to unregister it waits until none is running.
-/

namespace Librefw

/-- The files with a `state` of their own. -/
inductive LfwComponent where
  | state | bogon | hcf | pktFilterLog
  deriving DecidableEq, Repr

/-- What a component has allocated: its `state`, and what that points to. -/
inductive LfwObject where
  | state | cache | workqueue | ringBuffer
  deriving DecidableEq, Repr

/-- Where a pointer points. -/
inductive LfwSlot where
  | null | live | dangling
  deriving DecidableEq, Repr

abbrev LfwSlots := LfwComponent → LfwObject → LfwSlot

def LfwSlots.set (slots : LfwSlots) (c : LfwComponent) (o : LfwObject) (x : LfwSlot) : LfwSlots :=
  fun c' o' => if c' = c ∧ o' = o then x else slots c' o'

/-- What may fail: `kzalloc`, `kmem_cache_create`, `alloc_workqueue` and their like, the
first tree, the family, the device and the hooks. -/
inductive LfwAcquire where
  | alloc (c : LfwComponent) (o : LfwObject)
  | createTree (c : LfwComponent)
  | genlRegisterFamily
  | netdevGetByName
  | nfRegisterNetHooks
  deriving DecidableEq, Repr

/-- What does not fail. `clear` writes NULL to the pointer; `free` leaves it as it is. -/
inductive LfwRelease where
  | free (c : LfwComponent) (o : LfwObject)
  | clear (c : LfwComponent) (o : LfwObject)
  | genlUnregisterFamily
  | netdevPut
  | nfUnregisterNetHooks
  | addTimers
  | timerShutdownSync
  | freeReadPages
  | swapTree
  | callRcuTree
  | synchronizeRcu
  deriving DecidableEq, Repr

/-- Code that acquires and releases. -/
inductive LfwCode where
  | ret
  | release (r : LfwRelease) (next : LfwCode)
  | acquire (a : LfwAcquire) (ok err : LfwCode)
  | ifNull (c : LfwComponent) (o : LfwObject) (null there : LfwCode)
  deriving Repr

namespace LfwCode

def lfwNlInit (ok err : LfwCode) : LfwCode := .acquire .genlRegisterFamily ok err

def lfwNlDestroy (next : LfwCode) : LfwCode := .release .genlUnregisterFamily next

def lfwInitBgState (ok err : LfwCode) : LfwCode :=
  let err_free_state := .release (.free .bogon .state) (.release (.clear .bogon .state) err)
  let err_kmem_free := .release (.free .bogon .cache) (.release (.clear .bogon .cache) err_free_state)
  .acquire (.alloc .bogon .state)
    (.acquire (.alloc .bogon .cache)
      (.acquire (.createTree .bogon) ok err_kmem_free)
      err_free_state)
    err

def lfwFreeBgState (next : LfwCode) : LfwCode :=
  .ifNull .bogon .state next
    (.release .callRcuTree
      (.release .synchronizeRcu
        (.release (.free .bogon .cache)
          (.release (.free .bogon .state) next))))

def hcfInitState (ok err : LfwCode) : LfwCode :=
  let err_free_state := .release (.free .hcf .state) (.release (.clear .hcf .state) err)
  let err_kmem_free := .release (.free .hcf .cache) (.release (.clear .hcf .cache) err_free_state)
  let err_destroy_wq :=
    .release (.free .hcf .workqueue) (.release (.clear .hcf .workqueue) err_kmem_free)
  .acquire (.alloc .hcf .state)
    (.acquire (.alloc .hcf .cache)
      (.acquire (.alloc .hcf .workqueue)
        (.acquire (.createTree .hcf) ok err_destroy_wq)
        err_kmem_free)
      err_free_state)
    err

def hcfFreeState (next : LfwCode) : LfwCode :=
  let rest := .release .swapTree (.release (.free .hcf .cache) (.release (.free .hcf .state) next))
  .ifNull .hcf .workqueue rest (.release (.free .hcf .workqueue) rest)

def initPktFilterLogState (ok err : LfwCode) : LfwCode :=
  let err_free_state :=
    .release (.free .pktFilterLog .state) (.release (.clear .pktFilterLog .state) err)
  let err_free_rb := .release (.free .pktFilterLog .ringBuffer)
    (.release (.clear .pktFilterLog .ringBuffer) err_free_state)
  .acquire (.alloc .pktFilterLog .state)
    (.acquire (.alloc .pktFilterLog .ringBuffer)
      (.acquire (.alloc .pktFilterLog .workqueue) (.release .addTimers ok) err_free_rb)
      err_free_state)
    err

def freePktFilterLogState (next : LfwCode) : LfwCode :=
  let rest := .release (.free .pktFilterLog .ringBuffer)
    (.release (.free .pktFilterLog .state) next)
  .ifNull .pktFilterLog .state next
    (.release .timerShutdownSync
      (.release .freeReadPages
        (.ifNull .pktFilterLog .workqueue rest
          (.release (.free .pktFilterLog .workqueue) rest))))

def lfwInitState (ok err : LfwCode) : LfwCode :=
  let err_free_state := .release (.free .state .state) err
  let err_nl_destroy := lfwNlDestroy err_free_state
  let err_free_bg := lfwFreeBgState err_nl_destroy
  let err_free_hcf := hcfFreeState err_free_bg
  .acquire (.alloc .state .state)
    (lfwNlInit
      (lfwInitBgState
        (hcfInitState
          (initPktFilterLogState ok err_free_hcf)
          err_free_bg)
        err_nl_destroy)
      err_free_state)
    err

def lfwFreeState (next : LfwCode) : LfwCode :=
  freePktFilterLogState (hcfFreeState (lfwFreeBgState (lfwNlDestroy
    (.release (.free .state .state) next))))

def lfwRegisterHooks (ok err : LfwCode) : LfwCode :=
  .acquire .netdevGetByName (.acquire .nfRegisterNetHooks ok (.release .netdevPut err)) err

/-- Past the check for the device, which is there. -/
def lfwUnregisterHooks (next : LfwCode) : LfwCode :=
  .release .nfUnregisterNetHooks (.release .netdevPut next)

def lfwModExit (next : LfwCode) : LfwCode := lfwUnregisterHooks (lfwFreeState next)

def lfwModInit (ok err : LfwCode) : LfwCode :=
  lfwInitState (lfwRegisterHooks ok (lfwFreeState err)) err

/-- The module is loaded and, if that goes well, unloaded some time later. -/
def lfwModule : LfwCode := lfwModInit (lfwModExit .ret) .ret

end LfwCode

/-- The commands of the family. -/
inductive LfwCmd where
  | setBogon | setUnderAttack | setHcfHistory
  deriving DecidableEq, Repr

/-- The component whose node cache the command's handler works in. -/
def LfwCmd.caches : LfwCmd → Option LfwComponent
  | .setBogon => some .bogon
  | .setUnderAttack => none
  | .setHcfHistory => some .hcf

/-- The module with the code it has yet to run and the commands whose handlers are running. -/
structure LfwLife where
  code : LfwCode
  registered : Bool
  slots : LfwSlots
  running : List LfwCmd

/-- Before the module is loaded. -/
def lfwUnloaded : LfwLife := ⟨LfwCode.lfwModule, false, fun _ _ => .null, []⟩

def LfwAcquire.slots (a : LfwAcquire) (slots : LfwSlots) : LfwSlots :=
  match a with
  | .alloc c o => slots.set c o .live
  | _ => slots

def LfwRelease.slots (r : LfwRelease) (slots : LfwSlots) : LfwSlots :=
  match r with
  | .free c o => slots.set c o .dangling
  | .clear c o => slots.set c o .null
  | _ => slots

/-- The code takes its next step; `ok` is whether what may fail succeeds. -/
def LfwLife.advance (ok : Bool) (s : LfwLife) : LfwLife :=
  match s.code with
  | .ret => s
  | .release r next =>
    if r = .genlUnregisterFamily then
      if s.running = [] then { s with code := next, registered := false } else s
    else { s with code := next, slots := r.slots s.slots }
  | .acquire a next err =>
    if ok then
      { s with
        code := next
        registered := s.registered || a = .genlRegisterFamily
        slots := a.slots s.slots }
    else { s with code := err }
  | .ifNull c o null there => { s with code := if s.slots c o = .null then null else there }

/-- What can happen: a step of the code, a command that comes, one that is done. -/
inductive LfwLifeEvent where
  | advance (ok : Bool)
  | handle (cmd : LfwCmd)
  | handled (i : ℕ)
  deriving DecidableEq, Repr

def lfwLifeStep (s : LfwLife) : LfwLifeEvent → Except Fault LfwLife
  | .advance ok => pure (s.advance ok)
  | .handle cmd => pure (if s.registered then { s with running := s.running ++ [cmd] } else s)
  | .handled i => pure { s with running := s.running.eraseIdx i }

end Librefw
