import Librefw.Kernel.Model.State
import Librefw.Common.Run

/-!
# The under-attack flag with everything in flight

The same code, cut where other code can run in between. Setting the flag
publishes a changed copy under the lock and hands the old object to
`kfree_rcu` after it has dropped the lock. Asking for it is two loads
inside a read section. Of RCU the model has the rule of
`Hcf.Model.Concurrent`.

An event whose turn has not come leaves the state as it is.
-/

namespace Librefw

/-- Where a question for the flag is. After the object is loaded it remembers the
state it loaded it from, which no step reads. -/
inductive LfwStateReaderPc where
  | entered
  | loaded (seen : LfwStateCell) (st : Ptr)
  | done (seen : LfwStateCell) (result : Bool)

/-- A question for the flag inside its read section. -/
structure LfwStateReader where
  id : ℕ
  pc : LfwStateReaderPc

/-- The flag with everything in flight: the cell, the moments at which its objects were queued,
the objects replaced and not yet handed to `kfree_rcu`, and the read sections. -/
structure LfwStateSys where
  cell : LfwStateCell
  stamps : List ℕ
  swapped : List Ptr
  clock : ℕ
  readers : List LfwStateReader

/-- The flag after initialisation. -/
def lfwStateSysInit (A : Allocator) : Except ℤ LfwStateSys := do
  let cell ← lfwInitStateCell A
  pure ⟨cell, [], [], 0, []⟩

/-- Every read section that began before `stamp` has ended. -/
def LfwStateSys.graceOver (s : LfwStateSys) (stamp : ℕ) : Prop := ∀ r ∈ s.readers, stamp ≤ r.id

instance LfwStateSys.decidableGraceOver (s : LfwStateSys) (stamp : ℕ) :
    Decidable (s.graceOver stamp) :=
  inferInstanceAs (Decidable (∀ r ∈ s.readers, stamp ≤ r.id))

/-- `lfw_state_set_under_attack` up to the end of its critical section. -/
def lfwStateSwap (A : Allocator) (new_value : Bool) (s : LfwStateSys) :
    Except Fault LfwStateSys :=
  match s.cell.mem.zalloc A ⟨false⟩ with
  | (none, m) => pure { s with cell := { s.cell with mem := m } }
  | (some new_state, m) => do
    let old_state := s.cell.state
    let st ← m.load old_state
    let m ← m.store (some new_state) st
    let m ← m.modify (some new_state) fun st => { st with under_attack := new_value }
    pure { s with
      cell := { s.cell with mem := m, state := some new_state }
      swapped := s.swapped ++ [old_state] }

/-- The `kfree_rcu` of the `i`-th object replaced. -/
def lfwStateQueue (i : ℕ) (s : LfwStateSys) : LfwStateSys :=
  match s.swapped[i]? with
  | none => s
  | some old_state =>
    { s with
      cell := { s.cell with rcu := s.cell.rcu ++ [old_state] }
      stamps := s.stamps ++ [s.clock]
      swapped := s.swapped.eraseIdx i }

/-- The end of the grace period of the `i`-th object that waits. -/
def lfwStateCallback (i : ℕ) (s : LfwStateSys) : Except Fault LfwStateSys :=
  match s.stamps[i]? with
  | none => pure s
  | some stamp =>
    if s.graceOver stamp then do
      let cell ← lfwStateKfreeRcu i s.cell
      pure { s with cell := cell, stamps := s.stamps.eraseIdx i }
    else pure s

def lfwStateReaderEnter (s : LfwStateSys) : LfwStateSys :=
  { s with readers := s.readers ++ [⟨s.clock, .entered⟩], clock := s.clock + 1 }

/-- The next load of a question, on the present state. -/
def lfwStateLoad (cell : LfwStateCell) (r : LfwStateReader) : Except Fault LfwStateReaderPc :=
  match r.pc with
  | .entered => pure (.loaded cell cell.state)
  | .loaded seen st => do
    let st ← cell.mem.load st
    pure (.done seen st.under_attack)
  | .done seen result => pure (.done seen result)

/-- The `i`-th question goes on, or returns. -/
def lfwStateReaderStep (i : ℕ) (s : LfwStateSys) : Except Fault LfwStateSys :=
  match s.readers[i]? with
  | none => pure s
  | some r =>
    match r.pc with
    | .done _ _ => pure { s with readers := s.readers.eraseIdx i }
    | _ => do
      let pc ← lfwStateLoad s.cell r
      pure { s with readers := s.readers.set i { r with pc := pc } }

/-- Everything that can happen next. -/
inductive LfwStateEvent where
  | swap (A : Supply) (new_value : Bool)
  | queue (i : ℕ)
  | callback (i : ℕ)
  | readerEnter
  | readerStep (i : ℕ)

def lfwStateSysStep (s : LfwStateSys) : LfwStateEvent → Except Fault LfwStateSys
  | .swap A new_value => lfwStateSwap A.toAllocator new_value s
  | .queue i => pure (lfwStateQueue i s)
  | .callback i => lfwStateCallback i s
  | .readerEnter => pure (lfwStateReaderEnter s)
  | .readerStep i => lfwStateReaderStep i s

end Librefw
