import Librefw.Client.Bogon
import Librefw.Client.Model.Command
import Librefw.Client.Model.Hcf
import Librefw.Kernel.Model.Dispatch

/-!
# A host that runs the firewall

The module, the client's commands and its database, together: packets reach
the host, works run and announce what is new to the listener if it is
there, an administrator sets a list from a file, sets the flag, restores
the history from the database, and the host boots, after which the module
starts afresh and the database is as it was. A command goes through the
message it sends.

What a message is built in has `capacity` bytes. The query that reads the
table states no order, so every restore comes with the order of its rows.
-/

namespace Librefw

/-- An order of rows. -/
structure RowOrder where
  arrange : HcfIpv4History → HcfIpv4History
  perm : ∀ rows, (arrange rows).Perm rows

/-- The module and the database. -/
structure LfwHost where
  kernel : LfwSystem
  tab : HcfIpv4History

/-- The first start, on an empty database. -/
def lfwHostInit (A : Allocator) : Except ℤ LfwHost := do
  let kernel ← lfwInitState A
  pure ⟨kernel, []⟩

/-- What a command leaves: if it sends a message, the module receives it. -/
def lfwDeliver (e : Endian) (A : Allocator) (rest : List U8)
    (sent : Except ClientAbort (Option (List U8))) (s : LfwHost) : Except Fault LfwHost :=
  match sent with
  | .ok (some msg) => do
    let (_, kernel) ← lfwNlReceive e A msg rest s.kernel
    pure { s with kernel := kernel }
  | _ => pure s

/-- The `i`-th work runs, and what it announces is received if the listener is there. -/
def lfwHostWork (e : Endian) (A : Allocator) (i : ℕ) (listening : Bool) (rest : List U8)
    (s : LfwHost) : Except Fault LfwHost :=
  match s.kernel.workqueue[i]? with
  | none => pure s
  | some task => do
    let (announced, hcf) ← hcfRegisterIpWork A task s.kernel.hcf
    let kernel := { s.kernel with hcf := hcf, workqueue := s.kernel.workqueue.eraseIdx i }
    if listening then do
      let tab ← hcfReceive e rest announced.toList s.tab
      pure ⟨kernel, tab⟩
    else pure { s with kernel := kernel }

/-- What can happen to the host. A list is set from a file of well-formed lines, `uninit` being
what is in the client's memory; `rest` follows a message in memory. -/
inductive LfwHostEvent where
  | learn (skb : SkBuff)
  | work (A : Supply) (i : ℕ) (listening : Bool) (rest : List U8)
  | setBogon (A : Supply) (uninit : ℕ → U32) (file : BogonFile) (rest : List U8)
  | underAttack (A : Supply) (set : Bool) (rest : List U8)
  | setHcf (A : Supply) (order : RowOrder) (rest : List U8)
  | boot (A : Supply)
  | bogonCallback (i : ℕ)
  | hcfCallback (i : ℕ)
  | stateCallback (i : ℕ)

/-- The module takes a step of its own. -/
def lfwHostKernel (e : Endian) (ev : LfwEvent) (s : LfwHost) : Except Fault LfwHost := do
  let kernel ← lfwStep e s.kernel ev
  pure { s with kernel := kernel }

def lfwHostStep (e : Endian) (capacity : U32) (s : LfwHost) : LfwHostEvent → Except Fault LfwHost
  | .learn skb => lfwHostKernel e (.learn skb) s
  | .work A i listening rest => lfwHostWork e A.toAllocator i listening rest s
  | .setBogon A uninit file rest =>
    lfwDeliver e A.toAllocator rest (sendBogonList e uninit capacity (some file.content)) s
  | .underAttack A set rest => lfwDeliver e A.toAllocator rest (setUnderAttack e capacity set) s
  | .setHcf A order rest =>
    lfwDeliver e A.toAllocator rest (sendIpHistory e capacity (order.arrange s.tab)) s
  | .boot A =>
    match lfwInitState A.toAllocator with
    | .error _ => pure s
    | .ok kernel => pure { s with kernel := kernel }
  | .bogonCallback i => lfwHostKernel e (.bogonCallback i) s
  | .hcfCallback i => lfwHostKernel e (.hcfCallback i) s
  | .stateCallback i => lfwHostKernel e (.stateCallback i) s

end Librefw
