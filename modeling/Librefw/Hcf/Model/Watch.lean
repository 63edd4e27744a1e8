import Librefw.Hcf.Model.Concurrent

/-!
# What becomes of a leaf

A register work drops the lock and announces the leaf it wrote later. The
watch follows what happens in between, by the order of events alone: the
leaf is published until a work on the same prefix copies it or a swap
replaces the tree it is in, whichever comes first, and is freed when that
work's last callback runs or that swap's grace period ends. Beside that,
it records whether the node the work wrote has been missing from the
store.

The watch copies the lists of the component and adds to each entry the
event it stems from. It stands for nothing in the source and takes no part
in what happens.
-/

namespace Librefw

/-- Where the leaf of a work is: in the published tree, copied by the work of the `id`-th event,
in a tree that the swap of the `id`-th event replaced, or freed after either. -/
inductive HcfLeaf where
  | published
  | copied (id : ℕ)
  | replaced (id : ℕ)
  | freed
  deriving DecidableEq, Repr

/-- A work past its critical section, whether a lookup of its address missed before, where its
leaf is, and whether the node it wrote its leaf into has been freed. -/
structure HcfWatched where
  id : ℕ
  work : HcfWork
  announces : Bool
  leaf : HcfLeaf
  gone : Bool

/-- A callback, the work it stems from, and whether it is the last of that work. -/
structure HcfWatchedCallback where
  id : ℕ
  last : Bool
  callback : HcfCallback
  deriving DecidableEq

/-- A replaced tree, and the swap that replaced it. -/
structure HcfWatchedSync where
  id : ℕ
  sync : HcfSync
  deriving DecidableEq

/-- An announcement, and whether its leaf had been freed by then. -/
structure HcfAnnounced where
  logged : HcfLogged
  gone : Bool

/-- The component under watch, after `now` events. -/
structure HcfWatch where
  sys : HcfSys
  now : ℕ
  works : List HcfWatched
  rcu : List HcfWatchedCallback
  syncs : List HcfWatchedSync
  log : List HcfAnnounced

/-- A lookup of the address misses. -/
def hcfMisses (s : HcfSys) (task : HcfAddNodeTask) : Bool :=
  match hcfLookupTree s.tree s.mem task.source_ip task.ttl with
  | .ok result => result == -1
  | .error _ => false

namespace HcfWatched

/-- The critical section of a work, the `now`-th event: it copies a leaf of its prefix. -/
def copy (now : ℕ) (task : HcfAddNodeTask) (x : HcfWatched) : HcfWatched :=
  if x.leaf = .published ∧ x.work.task.source_ip >>> 8 = task.source_ip >>> 8 then
    { x with leaf := .copied now }
  else x

/-- A swap, the `now`-th event. -/
def replace (now : ℕ) (x : HcfWatched) : HcfWatched :=
  if x.leaf = .published then { x with leaf := .replaced now } else x

/-- A callback: the last node of a path is the leaf. -/
def callback (c : HcfWatchedCallback) (x : HcfWatched) : HcfWatched :=
  if c.last ∧ x.leaf = .copied c.id then { x with leaf := .freed } else x

/-- The end of a swap's grace period. -/
def sync (o : HcfWatchedSync) (x : HcfWatched) : HcfWatched :=
  if x.leaf = .replaced o.id then { x with leaf := .freed } else x

/-- Whether the node of the leaf is in the store. -/
def look (m : Mem HcfNode) (x : HcfWatched) : HcfWatched :=
  match x.work.pub.new_runner with
  | none => x
  | some a => if a ∈ m then x else { x with gone := true }

end HcfWatched

namespace HcfWatch

/-- A swap replaces the tree there is. -/
def swap (g : HcfWatch) : HcfWatch :=
  match g.sys.tree with
  | none => g
  | some old_root =>
    { g with
      works := g.works.map (HcfWatched.replace g.now)
      syncs := g.syncs ++ [⟨g.now, ⟨some old_root, g.sys.clock⟩⟩] }

/-- A work that finds a tree. -/
def register (g : HcfWatch) (s' : HcfSys) (task : HcfAddNodeTask) : HcfWatch :=
  match g.sys.tree, s'.works.getLast? with
  | some _, some w =>
    { g with works := g.works.map (HcfWatched.copy g.now task) ++
        [⟨g.now, w, hcfMisses g.sys task, .published, false⟩] }
  | _, _ => g

def announce (g : HcfWatch) (i : ℕ) : HcfWatch :=
  match g.works[i]? with
  | none => g
  | some x =>
    if x.work.logged then g
    else
      { g with
        works := g.works.set i { x with work := { x.work with logged := true } }
        log := if 0 < x.work.pub.nodes_created then
            g.log ++ [⟨⟨x.work.task, hcfLogNewIp g.sys.mem x.work.task x.work.pub⟩, x.gone⟩]
          else g.log }

def callRcu (g : HcfWatch) (i : ℕ) : HcfWatch :=
  match g.works[i]? with
  | none => g
  | some x =>
    if x.work.logged then
      match x.work.nodes_to_free with
      | [] => { g with works := g.works.eraseIdx i }
      | node :: rest =>
        { g with
          works := g.works.set i { x with work := { x.work with nodes_to_free := rest } }
          rcu := g.rcu ++ [⟨x.id, rest.isEmpty, ⟨node, g.sys.clock⟩⟩] }
    else g

def callback (g : HcfWatch) (i : ℕ) : HcfWatch :=
  match g.rcu[i]? with
  | none => g
  | some c =>
    if g.sys.graceOver c.callback.stamp then
      { g with works := g.works.map (HcfWatched.callback c), rcu := g.rcu.eraseIdx i }
    else g

def historySwap (g : HcfWatch) (i : ℕ) : HcfWatch :=
  match g.sys.builds[i]? with
  | none => g
  | some b =>
    match b.entries with
    | [] => g.swap
    | _ :: _ => g

def syncDone (g : HcfWatch) (i : ℕ) : HcfWatch :=
  match g.syncs[i]? with
  | none => g
  | some o =>
    if g.sys.graceOver o.sync.stamp then
      { g with works := g.works.map (HcfWatched.sync o), syncs := g.syncs.eraseIdx i }
    else g

/-- What the lists become with an event that leads to `s'`. -/
def follow (g : HcfWatch) (s' : HcfSys) : HcfEvent → HcfWatch
  | .register _ task => g.register s' task
  | .announce i => g.announce i
  | .callRcu i => g.callRcu i
  | .callback i => g.callback i
  | .historySwap i => g.historySwap i
  | .swapNull => g.swap
  | .syncDone i => g.syncDone i
  | .historyStart _ _ | .historyEntry _ _ | .readerEnter _ _ | .readerStep _ => g

/-- The watch after the event. -/
def settle (g : HcfWatch) (s' : HcfSys) : HcfWatch :=
  { g with sys := s', now := g.now + 1, works := g.works.map (HcfWatched.look s'.mem) }

end HcfWatch

/-- One event under watch. -/
def hcfWatchStep (g : HcfWatch) (ev : HcfEvent) : Except Fault HcfWatch := do
  let s' ← hcfSysStep g.sys ev
  pure ((g.follow s' ev).settle s')

/-- The component under watch from the beginning. -/
def hcfWatchInit (s : HcfSys) : HcfWatch := ⟨s, 0, [], [], [], []⟩

end Librefw
