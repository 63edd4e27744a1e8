import Librefw.Hcf.Model.Tree

/-!
# The hop-count filter as a component

The state of `hcf.c` and the functions that change it, each run to its end:
initialisation, a register work, the replacement of the tree by a history
message, and the callback of one retired node. What other works, readers
and grace periods may do in the middle of these is the subject of
`Hcf.Model.Concurrent`.
-/

namespace Librefw

/-- `struct hcf_state`: the cache and the published tree, with the nodes handed
to `call_rcu` whose callback has not run yet. -/
structure HcfState where
  mem : Mem HcfNode
  tree : Ptr
  rcu : List Addr

/-- `hcf_init_state`. -/
def hcfInitState (A : Allocator) : Except ℤ HcfState :=
  match hcfCreateNode A Mem.empty with
  | (none, _) => throw (-ENOMEM)
  | (some new_tree, m) => pure ⟨m, some new_tree, []⟩

/-- `hcf_swap_tree`, past the grace period it waits for. -/
def hcfSwapTree (new_tree : Ptr) (s : HcfState) : Except Fault HcfState := do
  let old_root := s.tree
  let m ← hcfFreeNode old_root s.mem
  pure { s with mem := m, tree := new_tree }

/-- `hcf_register_ip_work`, with what it announces. -/
def hcfRegisterIpWork (A : Allocator) (task : HcfAddNodeTask) (s : HcfState) :
    Except Fault (Option HcfIpCtx × HcfState) := do
  match ← hcfRegisterIpLocked A task s.tree s.mem with
  | (none, m) => pure (none, { s with mem := m })
  | (some pub, m) => do
    let announced ← hcfLogNewIp m task pub
    pure (announced, ⟨m, pub.new_root, s.rcu ++ pub.nodes_to_free⟩)

/-- The entries of a history message. -/
def hcfHistoryEntries (e : Endian) (info : GenlInfo) : List HcfHistoryEntry :=
  (attrsOfType LFW_NLA_HCF_HISTORY (info.all e)).map (hcfParseEntry e)

/-- `hcf_register_ip_history`. -/
def hcfRegisterIpHistory (e : Endian) (A : Allocator) (info : GenlInfo) (s : HcfState) :
    Except Fault (ℤ × HcfState) :=
  match hcfCreateNode A s.mem with
  | (none, m) => pure (-ENOMEM, { s with mem := m })
  | (some new_tree, m) => do
    let m ← (hcfHistoryEntries e info).foldlM (fun m entry => hcfInsertEntry A new_tree entry m) m
    let s ← hcfSwapTree new_tree { s with mem := m }
    pure (0, s)

/-- `hcf_free_node_rcu`, for the `i`-th of the callbacks that wait. -/
def hcfFreeNodeRcu (i : ℕ) (s : HcfState) : Except Fault HcfState :=
  match s.rcu[i]? with
  | none => pure s
  | some node => do
    let m ← s.mem.free node
    pure { s with mem := m, rcu := s.rcu.eraseIdx i }

/-- What can happen to the component. -/
inductive HcfOp where
  | work (A : Supply) (task : HcfAddNodeTask)
  | history (A : Supply) (info : GenlInfo)
  | callback (i : ℕ)

/-- One event. -/
def hcfStep (e : Endian) (s : HcfState) : HcfOp → Except Fault HcfState
  | .work A task => do
    let (_, s) ← hcfRegisterIpWork A.toAllocator task s
    pure s
  | .history A info => do
    let (_, s) ← hcfRegisterIpHistory e A.toAllocator info s
    pure s
  | .callback i => hcfFreeNodeRcu i s

/-- What the node at the end of an address's path holds, if it is there. -/
def hcfLeaf (s : HcfState) (source_ip : U32) : Except Fault (Option HcfMeta) :=
  match s.tree with
  | none => pure none
  | some root => do
    match ← hcfDescend s.mem source_ip 24 root with
    | none => pure none
    | some runner => do
      let n ← s.mem.load (some runner)
      pure (some n.data)

end Librefw
