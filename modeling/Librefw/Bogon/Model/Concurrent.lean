import Librefw.Bogon.Model.Tree
import Librefw.Common.Run

/-!
# The bogon list with everything in flight

The same code, cut where other code can run in between. A load allocates
its tree and inserts its prefixes one by one (a whole prefix is one step:
nobody else sees the tree yet), publishes the tree under the
lock, and hands the old one to `call_rcu` after it has dropped the lock. A
lookup loads the tree, then its root, then one node after another inside a
read section.

Of RCU the model has the rule of `Hcf.Model.Concurrent`: read sections are
numbered as they begin, and a callback that carries a number runs only
when every section with a smaller one has ended.

An event whose turn has not come leaves the state as it is.
-/

namespace Librefw

/-- A load past its allocations: its tree, and the prefixes still to come. -/
structure LfwBgBuild where
  tree : Ptr
  prefixes : List LfwIpPrefix
  deriving DecidableEq, Repr

/-- Where a lookup is. After the tree is loaded it remembers the state it loaded
it from, which no step reads. -/
inductive LfwBgReaderPc where
  | entered
  | loaded (seen : LfwBgState) (tree : Ptr)
  | descending (seen : LfwBgState) (tree : Ptr) (k : ℕ) (runner : Addr)
  | done (seen : LfwBgState) (result : ℤ)

/-- A lookup inside its read section. -/
structure LfwBgReader where
  id : ℕ
  ip : U32
  pc : LfwBgReaderPc

/-- The component with everything in flight: its state, the moments at which its callbacks were
queued, the loads, the trees replaced and not yet handed to `call_rcu`, and the lookups. -/
structure LfwBgSys where
  bg : LfwBgState
  stamps : List ℕ
  builds : List LfwBgBuild
  swapped : List Ptr
  clock : ℕ
  readers : List LfwBgReader

/-- The component after initialisation. -/
def lfwBgSysInit (A : Allocator) : Except ℤ LfwBgSys := do
  let bg ← lfwInitBgState A
  pure ⟨bg, [], [], [], 0, []⟩

/-- Every read section that began before `stamp` has ended. -/
def LfwBgSys.graceOver (s : LfwBgSys) (stamp : ℕ) : Prop := ∀ r ∈ s.readers, stamp ≤ r.id

instance LfwBgSys.decidableGraceOver (s : LfwBgSys) (stamp : ℕ) :
    Decidable (s.graceOver stamp) :=
  inferInstanceAs (Decidable (∀ r ∈ s.readers, stamp ≤ r.id))

/-! ## Loads -/

/-- `lfw_load_bg_tree` up to its loop. -/
def lfwLoadStart (A : Allocator) (prefixes : List LfwIpPrefix) (s : LfwBgSys) :
    Except Fault LfwBgSys :=
  match s.bg.trees.zalloc A ⟨none⟩ with
  | (none, trees) => pure { s with bg := { s.bg with trees := trees } }
  | (some tree, trees) =>
    match lfwCreateNode A s.bg.nodes with
    | (none, nodes) => pure { s with bg := { s.bg with trees := trees, nodes := nodes } }
    | (some root, nodes) => do
      let trees ← trees.store (some tree) ⟨some root⟩
      pure { s with
        bg := { s.bg with trees := trees, nodes := nodes }
        builds := s.builds ++ [⟨some tree, prefixes⟩] }

/-- The next turn of the loop of the `i`-th load. -/
def lfwLoadPrefix (e : Endian) (A : Allocator) (i : ℕ) (s : LfwBgSys) : Except Fault LfwBgSys :=
  match s.builds[i]? with
  | none => pure s
  | some b =>
    match b.prefixes with
    | [] => pure s
    | p :: rest => do
      let t ← s.bg.trees.load b.tree
      let (line, nodes) ← lfwInsertPrefix e A t.root p s.bg.nodes
      pure { s with
        bg := { s.bg with nodes := nodes, log := s.bg.log ++ [line] }
        builds := s.builds.set i { b with prefixes := rest } }

/-- The critical section of the `i`-th load, once its loop has ended. -/
def lfwLoadSwap (i : ℕ) (s : LfwBgSys) : LfwBgSys :=
  match s.builds[i]? with
  | none => s
  | some b =>
    match b.prefixes with
    | [] =>
      { s with
        bg := { s.bg with tree := b.tree }
        builds := s.builds.eraseIdx i
        swapped := s.swapped ++ [s.bg.tree] }
    | _ :: _ => s

/-- The `call_rcu` of a load, for the `i`-th tree replaced. -/
def lfwLoadCallRcu (i : ℕ) (s : LfwBgSys) : LfwBgSys :=
  match s.swapped[i]? with
  | none => s
  | some old_tree =>
    { s with
      bg := { s.bg with rcu := s.bg.rcu ++ [old_tree] }
      stamps := s.stamps ++ [s.clock]
      swapped := s.swapped.eraseIdx i }

/-- `lfw_free_bg_tree`, for the `i`-th callback. -/
def lfwBgCallback (i : ℕ) (s : LfwBgSys) : Except Fault LfwBgSys :=
  match s.stamps[i]? with
  | none => pure s
  | some stamp =>
    if s.graceOver stamp then do
      let bg ← lfwFreeBgTree i s.bg
      pure { s with bg := bg, stamps := s.stamps.eraseIdx i }
    else pure s

/-! ## Lookups -/

def lfwBgReaderEnter (ip : U32) (s : LfwBgSys) : LfwBgSys :=
  { s with readers := s.readers ++ [⟨s.clock, ip, .entered⟩], clock := s.clock + 1 }

/-- The next load of a lookup, on the present state. -/
def lfwBgLoad (bg : LfwBgState) (r : LfwBgReader) : Except Fault LfwBgReaderPc :=
  match r.pc with
  | .entered => pure (.loaded bg bg.tree)
  | .loaded seen tree => do
    let t ← bg.trees.load tree
    match t.root with
    | none => pure (.done seen (-1))
    | some runner => pure (.descending seen tree 32 runner)
  | .descending seen _ 0 runner => do
    let n ← bg.nodes.load (some runner)
    pure (.done seen (if n.data then 1 else 0))
  | .descending seen tree (k + 1) runner => do
    let bit ← in4GetBit r.ip (31 - k)
    let n ← bg.nodes.load (some runner)
    if n.data then pure (.done seen 1)
    else
      match n.child bit with
      | none => pure (.done seen (-2))
      | some child => pure (.descending seen tree k child)
  | .done seen result => pure (.done seen result)

/-- The `i`-th lookup goes on, or returns. -/
def lfwBgReaderStep (i : ℕ) (s : LfwBgSys) : Except Fault LfwBgSys :=
  match s.readers[i]? with
  | none => pure s
  | some r =>
    match r.pc with
    | .done _ _ => pure { s with readers := s.readers.eraseIdx i }
    | _ => do
      let pc ← lfwBgLoad s.bg r
      pure { s with readers := s.readers.set i { r with pc := pc } }

/-! ## Events -/

/-- Everything that can happen next. -/
inductive LfwBgEvent where
  | loadStart (A : Supply) (prefixes : List LfwIpPrefix)
  | loadPrefix (A : Supply) (i : ℕ)
  | loadSwap (i : ℕ)
  | callRcu (i : ℕ)
  | callback (i : ℕ)
  | readerEnter (ip : U32)
  | readerStep (i : ℕ)

def lfwBgSysStep (e : Endian) (s : LfwBgSys) : LfwBgEvent → Except Fault LfwBgSys
  | .loadStart A prefixes => lfwLoadStart A.toAllocator prefixes s
  | .loadPrefix A i => lfwLoadPrefix e A.toAllocator i s
  | .loadSwap i => pure (lfwLoadSwap i s)
  | .callRcu i => pure (lfwLoadCallRcu i s)
  | .callback i => lfwBgCallback i s
  | .readerEnter ip => pure (lfwBgReaderEnter ip s)
  | .readerStep i => lfwBgReaderStep i s

end Librefw
