import Librefw.Bogon.Model.Tree
import Librefw.Hcf.Model.Concurrent

/-!
# Freeing, and freeing what frees

Both components, with everything that defers a free in flight, and then
their teardown, `hcf_free_state` and after it `lfw_free_bg_state`. An
update hands what it replaced to `call_rcu`; the callback runs at some
moment after its grace period, and nothing but that is known of it.
`synchronize_rcu` waits for read sections, not for callbacks. Callbacks
may come after the teardown has destroyed the cache they free into, and
then they fault.

The teardown begins when no lookup and no command is running, and none
comes after. An event whose turn has not come leaves the state as it is.
-/

namespace Librefw

/-- The next statement of the teardown. -/
inductive LfwReclaimPc where
  | running
  | hcfDestroyWorkqueue
  | hcfSwapTree
  | hcfSynchronizeRcu
  | hcfCacheDestroy
  | hcfKfree
  | bgCallRcu
  | bgSynchronizeRcu (stamp : ℕ)
  | bgCacheDestroy
  | bgKfree
  | gone
  deriving DecidableEq, Repr

/-- The place of a statement in the teardown. -/
def LfwReclaimPc.index : LfwReclaimPc → ℕ
  | .running => 0
  | .hcfDestroyWorkqueue => 1
  | .hcfSwapTree => 2
  | .hcfSynchronizeRcu => 3
  | .hcfCacheDestroy => 4
  | .hcfKfree => 5
  | .bgCallRcu => 6
  | .bgSynchronizeRcu _ => 7
  | .bgCacheDestroy => 8
  | .bgKfree => 9
  | .gone => 10

/-- The cache of the hop-count filter is destroyed. -/
def LfwReclaimPc.hcfDestroyed (pc : LfwReclaimPc) : Prop := 4 < pc.index

/-- The cache of the bogon list is destroyed. -/
def LfwReclaimPc.bgDestroyed (pc : LfwReclaimPc) : Prop := 8 < pc.index

instance (pc : LfwReclaimPc) : Decidable pc.hcfDestroyed := inferInstanceAs (Decidable (_ < _))

instance (pc : LfwReclaimPc) : Decidable pc.bgDestroyed := inferInstanceAs (Decidable (_ < _))

/-- The two components, the moments at which the callbacks of the bogon list were queued, and
where the teardown is. The clock and the read sections are those of the hop-count filter. -/
structure LfwReclaim where
  hcf : HcfSys
  bg : LfwBgState
  stamps : List ℕ
  pc : LfwReclaimPc

/-- Both components after initialisation. -/
def lfwReclaimInit (A : Allocator) : Except ℤ LfwReclaim := do
  let bg ← lfwInitBgState A
  let hcf ← hcfSysInit A
  pure ⟨hcf, bg, [], .running⟩

namespace LfwReclaim

def onHcf (s : LfwReclaim) (x : Except Fault HcfSys) : Except Fault LfwReclaim := do
  let hcf ← x
  pure { s with hcf := hcf }

/-- A list is set; what it replaced is queued. -/
def bogonSet (e : Endian) (A : Allocator) (info : GenlInfo) (s : LfwReclaim) :
    Except Fault LfwReclaim := do
  let (_, bg) ← lfwBogonSet e A info s.bg
  pure { s with
    bg := bg
    stamps := s.stamps ++ List.replicate (bg.rcu.length - s.bg.rcu.length) s.hcf.clock }

/-- `hcf_free_node_rcu`, for the `i`-th callback. -/
def hcfCallback (i : ℕ) (s : LfwReclaim) : Except Fault LfwReclaim :=
  if s.pc.hcfDestroyed then
    match s.hcf.rcu[i]? with
    | none => pure s
    | some c => throw (.useAfterFree c.node)
  else s.onHcf (Librefw.hcfCallback i s.hcf)

/-- `lfw_free_bg_tree`, for the `i`-th callback. -/
def bogonCallback (i : ℕ) (s : LfwReclaim) : Except Fault LfwReclaim :=
  match s.bg.rcu[i]?, s.stamps[i]? with
  | some tree, some stamp =>
    if s.hcf.graceOver stamp then do
      let t ← s.bg.trees.load tree
      match t.root with
      | some node =>
        if s.pc.bgDestroyed then throw (.useAfterFree node)
        else do
          let bg ← lfwFreeBgTree i s.bg
          pure { s with bg := bg, stamps := s.stamps.eraseIdx i }
      | none => do
        let bg ← lfwFreeBgTree i s.bg
        pure { s with bg := bg, stamps := s.stamps.eraseIdx i }
    else pure s
  | _, _ => pure s

/-- The next statement of the teardown. -/
def teardown (s : LfwReclaim) : LfwReclaim :=
  match s.pc with
  | .running =>
    if s.hcf.builds = [] ∧ s.hcf.syncs = [] ∧ s.hcf.readers.isEmpty then
      { s with pc := .hcfDestroyWorkqueue }
    else s
  | .hcfDestroyWorkqueue => if s.hcf.works = [] then { s with pc := .hcfSwapTree } else s
  | .hcfSwapTree => { s with hcf := hcfSwap none s.hcf, pc := .hcfSynchronizeRcu }
  | .hcfSynchronizeRcu => if s.hcf.syncs = [] then { s with pc := .hcfCacheDestroy } else s
  | .hcfCacheDestroy => { s with pc := .hcfKfree }
  | .hcfKfree => { s with pc := .bgCallRcu }
  | .bgCallRcu =>
    { s with
      bg := { s.bg with rcu := s.bg.rcu ++ [s.bg.tree] }
      stamps := s.stamps ++ [s.hcf.clock]
      pc := .bgSynchronizeRcu s.hcf.clock }
  | .bgSynchronizeRcu stamp => if s.hcf.graceOver stamp then { s with pc := .bgCacheDestroy } else s
  | .bgCacheDestroy => { s with pc := .bgKfree }
  | .bgKfree => { s with pc := .gone }
  | .gone => s

end LfwReclaim

/-- What can happen: works, histories and lists, each in its steps, lookups, callbacks, and
the teardown. `syncDone` also ends the wait of the teardown's own `hcf_swap_tree`. -/
inductive LfwReclaimEvent where
  | register (A : Allocator) (task : HcfAddNodeTask)
  | announce (i : ℕ)
  | callRcu (i : ℕ)
  | hcfCallback (i : ℕ)
  | historyStart (A : Allocator) (entries : List HcfHistoryEntry)
  | historyEntry (A : Allocator) (i : ℕ)
  | historySwap (i : ℕ)
  | syncDone (i : ℕ)
  | readerEnter (source_ip : U32) (ttl : U8)
  | readerStep (i : ℕ)
  | bogonSet (A : Allocator) (info : GenlInfo)
  | bogonCallback (i : ℕ)
  | teardown

/-- What the teardown has put an end to: works, once it has drained their queue, and commands
and lookups, from its beginning. -/
def LfwReclaimEvent.Due (pc : LfwReclaimPc) : LfwReclaimEvent → Prop
  | .register _ _ => pc.index ≤ 1
  | .historyStart _ _ | .historyEntry _ _ | .historySwap _ | .readerEnter _ _ | .readerStep _
  | .bogonSet _ _ => pc.index = 0
  | _ => True

instance (pc : LfwReclaimPc) : (ev : LfwReclaimEvent) → Decidable (ev.Due pc)
  | .register _ _ => inferInstanceAs (Decidable (_ ≤ _))
  | .historyStart _ _ | .historyEntry _ _ | .historySwap _ | .readerEnter _ _ | .readerStep _
  | .bogonSet _ _ => inferInstanceAs (Decidable (_ = _))
  | .announce _ | .callRcu _ | .hcfCallback _ | .syncDone _ | .bogonCallback _ | .teardown =>
    isTrue trivial

/-- One event whose turn has come. -/
def lfwReclaimTurn (e : Endian) (s : LfwReclaim) : LfwReclaimEvent → Except Fault LfwReclaim
  | .register A task => s.onHcf (hcfRegister A task s.hcf)
  | .announce i => s.onHcf (pure (hcfAnnounce i s.hcf))
  | .callRcu i => s.onHcf (pure (hcfCallRcu i s.hcf))
  | .hcfCallback i => s.hcfCallback i
  | .historyStart A entries => s.onHcf (pure (hcfHistoryStart A entries s.hcf))
  | .historyEntry A i => s.onHcf (hcfHistoryEntry A i s.hcf)
  | .historySwap i => s.onHcf (pure (hcfHistorySwap i s.hcf))
  | .syncDone i => s.onHcf (hcfSyncDone i s.hcf)
  | .readerEnter source_ip ttl => s.onHcf (pure (hcfReaderEnter source_ip ttl s.hcf))
  | .readerStep i => s.onHcf (hcfReaderStep i s.hcf)
  | .bogonSet A info => s.bogonSet e A info
  | .bogonCallback i => s.bogonCallback i
  | .teardown => pure s.teardown

/-- One event. -/
def lfwReclaimStep (e : Endian) (s : LfwReclaim) (ev : LfwReclaimEvent) :
    Except Fault LfwReclaim :=
  if ev.Due s.pc then lfwReclaimTurn e s ev else pure s

end Librefw
