import Librefw.Hcf.Model.State
import Librefw.Common.Run

/-!
# The hop-count filter with everything in flight

The same code, cut where other code can run in between. A register work is
its critical section, then the announcement of its leaf outside the lock,
then one `call_rcu` for each node its update replaced. A history message
builds its tree entry by entry, publishes it under the lock, and frees the
old tree once `synchronize_rcu` returns. A lookup is one load after
another inside a read section.

Of RCU the model has one rule. Read sections are numbered as they begin; a
callback, or the code after a `synchronize_rcu`, carries the next number at
the time it was requested, and runs only when every section with a smaller
number has ended (`HcfSys.graceOver`).

An event whose turn has not come leaves the state as it is.
-/

namespace Librefw

/-- A register work past its critical section: what it published, whether it is
past the announcement, and the nodes it has yet to hand to `call_rcu`. -/
structure HcfWork where
  task : HcfAddNodeTask
  pub : HcfPublished
  logged : Bool
  nodes_to_free : List Addr
  deriving DecidableEq, Repr

/-- A history message being installed: its tree, and the entries still to come. -/
structure HcfBuild where
  new_tree : Ptr
  entries : List HcfHistoryEntry
  deriving DecidableEq, Repr

/-- A `hcf_swap_tree` waiting in `synchronize_rcu`. -/
structure HcfSync where
  old_root : Ptr
  stamp : ℕ
  deriving DecidableEq, Repr

/-- A callback of `call_rcu`. -/
structure HcfCallback where
  node : Addr
  stamp : ℕ
  deriving DecidableEq, Repr

/-- A tree in its store. -/
structure HcfTree where
  mem : Mem HcfNode
  tree : Ptr

/-- Where a lookup is. After the root is loaded it remembers the tree it loaded
it from, which no step reads. -/
inductive HcfReaderPc where
  | entered
  | descending (loaded : HcfTree) (k : ℕ) (runner : Addr)
  | done (loaded : HcfTree) (result : ℤ)

/-- A lookup inside its read section. -/
structure HcfReader where
  id : ℕ
  source_ip : U32
  ttl : U8
  pc : HcfReaderPc

/-- A lookup that has returned. -/
structure HcfAnswered where
  loaded : HcfTree
  source_ip : U32
  ttl : U8
  result : ℤ

/-- What a work read when it announced its leaf: the announcement, or the fault
of reading a node that is not there. -/
structure HcfLogged where
  task : HcfAddNodeTask
  read : Except Fault (Option HcfIpCtx)

/-- The component with everything in flight. -/
structure HcfSys where
  mem : Mem HcfNode
  tree : Ptr
  works : List HcfWork
  builds : List HcfBuild
  syncs : List HcfSync
  rcu : List HcfCallback
  clock : ℕ
  readers : List HcfReader
  log : List HcfLogged
  answers : List HcfAnswered

/-- The component after initialisation. -/
def hcfSysInit (A : Allocator) : Except ℤ HcfSys := do
  let s ← hcfInitState A
  pure ⟨s.mem, s.tree, [], [], [], [], 0, [], [], []⟩

/-- Every read section that began before `stamp` has ended. -/
def HcfSys.graceOver (s : HcfSys) (stamp : ℕ) : Prop := ∀ r ∈ s.readers, stamp ≤ r.id

instance (s : HcfSys) (stamp : ℕ) : Decidable (s.graceOver stamp) :=
  inferInstanceAs (Decidable (∀ r ∈ s.readers, stamp ≤ r.id))

/-! ## Register works -/

/-- The critical section of a work. -/
def hcfRegister (A : Allocator) (task : HcfAddNodeTask) (s : HcfSys) : Except Fault HcfSys := do
  match ← hcfRegisterIpLocked A task s.tree s.mem with
  | (none, m) => pure { s with mem := m }
  | (some pub, m) =>
    pure { s with
      mem := m
      tree := pub.new_root
      works := s.works ++ [⟨task, pub, false, pub.nodes_to_free⟩] }

/-- The announcement of the `i`-th work. If its leaf is not there any more the read is a fault,
which is logged, and the work goes on. -/
def hcfAnnounce (i : ℕ) (s : HcfSys) : HcfSys :=
  match s.works[i]? with
  | none => s
  | some w =>
    if w.logged then s
    else
      { s with
        works := s.works.set i { w with logged := true }
        log := if 0 < w.pub.nodes_created then s.log ++ [⟨w.task, hcfLogNewIp s.mem w.task w.pub⟩]
          else s.log }

/-- One turn of the loop that retires the nodes of the `i`-th work, which ends
after the last. -/
def hcfCallRcu (i : ℕ) (s : HcfSys) : HcfSys :=
  match s.works[i]? with
  | none => s
  | some w =>
    if w.logged then
      match w.nodes_to_free with
      | [] => { s with works := s.works.eraseIdx i }
      | node :: rest =>
        { s with
          works := s.works.set i { w with nodes_to_free := rest }
          rcu := s.rcu ++ [⟨node, s.clock⟩] }
    else s

/-- `hcf_free_node_rcu`, for the `i`-th callback. -/
def hcfCallback (i : ℕ) (s : HcfSys) : Except Fault HcfSys :=
  match s.rcu[i]? with
  | none => pure s
  | some c =>
    if s.graceOver c.stamp then do
      let m ← s.mem.free c.node
      pure { s with mem := m, rcu := s.rcu.eraseIdx i }
    else pure s

/-! ## History messages -/

def hcfHistoryStart (A : Allocator) (entries : List HcfHistoryEntry) (s : HcfSys) : HcfSys :=
  match hcfCreateNode A s.mem with
  | (none, m) => { s with mem := m }
  | (some new_tree, m) => { s with mem := m, builds := s.builds ++ [⟨some new_tree, entries⟩] }

/-- The next entry of the `i`-th message. -/
def hcfHistoryEntry (A : Allocator) (i : ℕ) (s : HcfSys) : Except Fault HcfSys :=
  match s.builds[i]? with
  | none => pure s
  | some b =>
    match b.entries with
    | [] => pure s
    | x :: rest => do
      let m ← hcfInsertEntry A b.new_tree x s.mem
      pure { s with mem := m, builds := s.builds.set i { b with entries := rest } }

/-- `hcf_swap_tree` up to its `synchronize_rcu`. -/
def hcfSwap (new_tree : Ptr) (s : HcfSys) : HcfSys :=
  match s.tree with
  | none => { s with tree := new_tree }
  | some old_root =>
    { s with tree := new_tree, syncs := s.syncs ++ [⟨some old_root, s.clock⟩] }

/-- The `i`-th message publishes its tree. -/
def hcfHistorySwap (i : ℕ) (s : HcfSys) : HcfSys :=
  match s.builds[i]? with
  | none => s
  | some b =>
    match b.entries with
    | [] => hcfSwap b.new_tree { s with builds := s.builds.eraseIdx i }
    | _ :: _ => s

/-- The rest of the `i`-th `hcf_swap_tree`. -/
def hcfSyncDone (i : ℕ) (s : HcfSys) : Except Fault HcfSys :=
  match s.syncs[i]? with
  | none => pure s
  | some o =>
    if s.graceOver o.stamp then do
      let m ← hcfFreeNode o.old_root s.mem
      pure { s with mem := m, syncs := s.syncs.eraseIdx i }
    else pure s

/-! ## Lookups -/

def hcfReaderEnter (source_ip : U32) (ttl : U8) (s : HcfSys) : HcfSys :=
  { s with readers := s.readers ++ [⟨s.clock, source_ip, ttl, .entered⟩], clock := s.clock + 1 }

/-- The next load of a lookup, on the present state of the store. -/
def hcfLoad (m : Mem HcfNode) (tree : Ptr) (r : HcfReader) : Except Fault HcfReaderPc :=
  match r.pc with
  | .entered =>
    match tree with
    | none => pure (.done ⟨m, tree⟩ (-1))
    | some root => pure (.descending ⟨m, tree⟩ 24 root)
  | .descending loaded 0 runner => do
    let n ← m.load (some runner)
    pure (.done loaded (hcfCompare r.ttl n.data.hc))
  | .descending loaded (k + 1) runner => do
    let n ← m.load (some runner)
    match n.child (hcfBit r.source_ip (k + 8)) with
    | none => pure (.done loaded (-1))
    | some child => pure (.descending loaded k child)
  | .done loaded result => pure (.done loaded result)

/-- The `i`-th lookup goes on, or returns. -/
def hcfReaderStep (i : ℕ) (s : HcfSys) : Except Fault HcfSys :=
  match s.readers[i]? with
  | none => pure s
  | some r =>
    match r.pc with
    | .done loaded result =>
      pure { s with
        readers := s.readers.eraseIdx i
        answers := s.answers ++ [⟨loaded, r.source_ip, r.ttl, result⟩] }
    | _ => do
      let pc ← hcfLoad s.mem s.tree r
      pure { s with readers := s.readers.set i { r with pc := pc } }

/-! ## Events -/

/-- Everything that can happen next. `swapNull` is the swap of
`hcf_free_state`. -/
inductive HcfEvent where
  | register (A : Supply) (task : HcfAddNodeTask)
  | announce (i : ℕ)
  | callRcu (i : ℕ)
  | callback (i : ℕ)
  | historyStart (A : Supply) (entries : List HcfHistoryEntry)
  | historyEntry (A : Supply) (i : ℕ)
  | historySwap (i : ℕ)
  | swapNull
  | syncDone (i : ℕ)
  | readerEnter (source_ip : U32) (ttl : U8)
  | readerStep (i : ℕ)

def hcfSysStep (s : HcfSys) : HcfEvent → Except Fault HcfSys
  | .register A task => hcfRegister A.toAllocator task s
  | .announce i => pure (hcfAnnounce i s)
  | .callRcu i => pure (hcfCallRcu i s)
  | .callback i => hcfCallback i s
  | .historyStart A entries => pure (hcfHistoryStart A.toAllocator entries s)
  | .historyEntry A i => hcfHistoryEntry A.toAllocator i s
  | .historySwap i => pure (hcfHistorySwap i s)
  | .swapNull => pure (hcfSwap none s)
  | .syncDone i => hcfSyncDone i s
  | .readerEnter source_ip ttl => pure (hcfReaderEnter source_ip ttl s)
  | .readerStep i => hcfReaderStep i s

end Librefw
