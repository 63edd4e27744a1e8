import Librefw.Common.TrieWalk
import Librefw.Kernel.Model.NlOps
import Librefw.Kernel.Model.Utils

/-!
# The bogon list

`bogon.c`: the trie of blocked prefixes, the build of a new one from a
buffer of prefixes, the lookup, and the command that fills the buffer from
a request. A loop over a counter is a recursion on the number of iterations
left. The counter of the load is an `int` that is compared with a `u32`, so
it gets negative in a long list; and the size of the buffer is a product
that `size_t` may not hold.
-/

namespace Librefw

/-- `struct lfw_ip_prefix`: `ip_prefix`, the address as it came, in network byte order, and
`ip_prefix_len`. -/
structure LfwIpPrefix where
  ipPrefix : U32
  ipPrefixLen : U8
  deriving DecidableEq, Repr

/-- A zeroed `struct lfw_ip_prefix`. -/
def LfwIpPrefix.zero : LfwIpPrefix := ⟨0, 0⟩

/-- `struct lfw_bg_node`, its flag a truth value. -/
abbrev LfwBgNode := Cell Bool

/-- `struct lfw_bg_tree`. -/
structure LfwBgTree where
  root : Ptr
  deriving DecidableEq, Repr

/-- What is logged for one prefix: the arguments of the format. -/
structure LfwBgLog where
  ip_be : U32
  ip_path : List Char
  num_nodes : ℕ
  deriving DecidableEq, Repr

/-- `struct lfw_bg_state`: the node cache and the published tree, with the tree
headers and buffers it allocates, the trees handed to `call_rcu` and not yet
freed, and what was logged. -/
structure LfwBgState where
  nodes : Mem LfwBgNode
  trees : Mem LfwBgTree
  bufs : Mem (List LfwIpPrefix)
  tree : Ptr
  rcu : List Ptr
  log : List LfwBgLog

/-- `lfw_init_bg_state`. -/
def lfwInitBgState (A : Allocator) : Except ℤ LfwBgState :=
  match (Mem.empty : Mem LfwBgTree).zalloc A ⟨none⟩ with
  | (none, _) => throw (-ENOMEM)
  | (some tree, trees) => pure ⟨Mem.empty, trees, Mem.empty, some tree, [], []⟩

/-- `lfw_create_node`. -/
def lfwCreateNode (A : Allocator) (m : Mem LfwBgNode) : Ptr × Mem LfwBgNode :=
  m.zalloc A (Cell.zero false)

/-- `lfw_free_bg_tree`, for the `i`-th of the callbacks that wait. -/
def lfwFreeBgTree (i : ℕ) (s : LfwBgState) : Except Fault LfwBgState :=
  match s.rcu[i]? with
  | none => pure s
  | some tree => do
    let t ← s.trees.load tree
    let nodes ← PtrTrie.freeTree s.nodes.objs.keys.card t.root s.nodes
    match tree with
    | none => throw .nullDeref
    | some a => do
      let trees ← s.trees.free a
      pure { s with nodes := nodes, trees := trees, rcu := s.rcu.eraseIdx i }

/-! ## Loading -/

/-- `ip_path[j] = c`. -/
def setChar (ip_path : List Char) (j : ℕ) (c : Char) : Except Fault (List Char) :=
  if j < ip_path.length then pure (ip_path.set j c) else throw (.outOfBounds j)

/-- The loop over the bits of one prefix, from bit `j` on. -/
def lfwInsertPath (A : Allocator) (ip : U32) :
    ℕ → ℕ → Ptr → List Char → ℕ → Mem LfwBgNode →
      Except Fault (Ptr × List Char × ℕ × Mem LfwBgNode)
  | 0, _, runner, ip_path, num_nodes, m => pure (runner, ip_path, num_nodes, m)
  | k + 1, j, runner, ip_path, num_nodes, m => do
    let bit ← in4GetBit ip j
    let ip_path ← setChar ip_path j (if bit then '1' else '0')
    let n ← m.load runner
    match n.child bit with
    | some child => lfwInsertPath A ip k (j + 1) (some child) ip_path num_nodes m
    | none => do
      let (child, m) := lfwCreateNode A m
      let m ← m.modify runner (Cell.setChild bit child)
      lfwInsertPath A ip k (j + 1) child ip_path (num_nodes + 1) m

/-- One turn of the loop over the prefixes. -/
def lfwInsertPrefix (e : Endian) (A : Allocator) (root : Ptr) (p : LfwIpPrefix)
    (m : Mem LfwBgNode) : Except Fault (LfwBgLog × Mem LfwBgNode) := do
  let ip_be := p.ipPrefix
  let ip := getUnalignedBe32 e ip_be
  let (runner, ip_path, num_nodes, m) ←
    lfwInsertPath A ip p.ipPrefixLen.toNat 0 root (List.replicate 32 '\x00') 0 m
  let m ← m.modify runner (Cell.mapData fun _ => true)
  pure (⟨ip_be, ip_path, num_nodes⟩, m)

/-- `prefixes[i]` in the `i`-th turn: the counter is an `int`, which goes on at `-2^31` after
`2^31 - 1`. -/
def lfwPrefixAt (prefixes : List LfwIpPrefix) (i : ℕ) : Except Fault LfwIpPrefix :=
  if i < 2 ^ 31 then
    match prefixes[i]? with
    | none => throw (.outOfBounds i)
    | some p => pure p
  else throw (.negativeIndex (BitVec.ofNat 32 i).toInt)

/-- The loop over the prefixes, from the `i`-th on. -/
def lfwInsertPrefixes (e : Endian) (A : Allocator) (root : Ptr) (prefixes : List LfwIpPrefix) :
    ℕ → ℕ → List LfwBgLog → Mem LfwBgNode → Except Fault (List LfwBgLog × Mem LfwBgNode)
  | 0, _, log, m => pure (log, m)
  | k + 1, i, log, m => do
    let p ← lfwPrefixAt prefixes i
    let (line, m) ← lfwInsertPrefix e A root p m
    lfwInsertPrefixes e A root prefixes k (i + 1) (log ++ [line]) m

/-- `lfw_load_bg_tree`, with the value of its `u32`. -/
def lfwLoadBgTree (e : Endian) (A : Allocator) (prefixes : List LfwIpPrefix) (len : ℕ)
    (s : LfwBgState) : Except Fault LfwBgState :=
  match s.trees.zalloc A ⟨none⟩ with
  | (none, trees) => pure { s with trees := trees }
  | (some tree, trees) =>
    match lfwCreateNode A s.nodes with
    | (none, nodes) => pure { s with trees := trees, nodes := nodes }
    | (some root, nodes) => do
      let trees ← trees.store (some tree) ⟨some root⟩
      let (log, nodes) ← lfwInsertPrefixes e A (some root) prefixes len 0 s.log nodes
      let old_tree := s.tree
      pure { s with
        nodes := nodes, trees := trees, tree := some tree, rcu := s.rcu ++ [old_tree], log := log }

/-! ## The lookup -/

/-- The loop of `lfw_lookup_bg_tree` with `k` iterations left, and the test after
it. -/
def lfwLookupFrom (m : Mem LfwBgNode) (ip : U32) : ℕ → Addr → Except Fault ℤ
  | 0, runner => do
    let n ← m.load (some runner)
    pure (if n.data then 1 else 0)
  | k + 1, runner => do
    let bit ← in4GetBit ip (31 - k)
    let n ← m.load (some runner)
    if n.data then pure 1
    else
      match n.child bit with
      | none => pure (-2)
      | some child => lfwLookupFrom m ip k child

/-- `lfw_lookup_bg_tree`. -/
def lfwLookupBgTree (s : LfwBgState) (ip : U32) : Except Fault ℤ := do
  let tree ← s.trees.load s.tree
  match tree.root with
  | none => pure (-1)
  | some runner => lfwLookupFrom s.nodes ip 32 runner

/-! ## The command -/

/-- The switch over one sub-attribute, writing at `runner`. -/
def lfwParseField (e : Endian) (p : LfwIpPrefix) (nested_pos : NlAttr) : LfwIpPrefix :=
  if nested_pos.type = LFW_NLA_N_IP_ADDR then { p with ipPrefix := nested_pos.getU32 e }
  else if nested_pos.type = LFW_NLA_N_IP_PREFIX_LEN then
    { p with ipPrefixLen := nested_pos.getU8 }
  else p

/-- The sub-attributes the switch writes for. -/
def lfwIsField (a : NlAttr) : Bool :=
  a.type = LFW_NLA_N_IP_ADDR ∨ a.type = LFW_NLA_N_IP_PREFIX_LEN

/-- One container into the slot `runner` of the buffer; a write past the buffer
is out of bounds. -/
def lfwParsePrefix (e : Endian) (runner : ℕ) (prefix_buf : List LfwIpPrefix) (pos : NlAttr) :
    Except Fault (List LfwIpPrefix) :=
  (pos.nested e).foldlM (fun prefix_buf nested_pos =>
    if lfwIsField nested_pos then
      match prefix_buf[runner]? with
      | none => throw (.outOfBounds runner)
      | some p => pure (prefix_buf.set runner (lfwParseField e p nested_pos))
    else pure prefix_buf) prefix_buf

/-- The loop over the containers, from the slot `runner` on. -/
def lfwParsePrefixes (e : Endian) :
    ℕ → List LfwIpPrefix → List NlAttr → Except Fault (List LfwIpPrefix)
  | _, prefix_buf, [] => pure prefix_buf
  | runner, prefix_buf, pos :: attrs => do
    let prefix_buf ← lfwParsePrefix e runner prefix_buf pos
    lfwParsePrefixes e (runner + 1) prefix_buf attrs

/-- The count a request announces. -/
def lfwNumPrefix (e : Endian) (info : GenlInfo) : ℕ :=
  match info.attrs e LFW_NLA_NUM_IP_PREFIX with
  | none => 0
  | some a => (a.getU32 e).toNat

/-- The containers of a request. -/
def lfwPrefixAttrs (e : Endian) (info : GenlInfo) : List NlAttr :=
  attrsOfType LFW_NLA_IP_PREFIX (info.all e)

/-- How many entries of eight bytes there are in `sizeof(struct lfw_ip_prefix) * num_prefix`, a
product of type `size_t`. -/
def lfwBufEntries (A : Allocator) (numPrefix : ℕ) : ℕ := 8 * numPrefix % 2 ^ A.size_t.bits / 8

/-- `vzalloc` of so many entries: NULL for none. -/
def lfwVzalloc (A : Allocator) (bufs : Mem (List LfwIpPrefix)) (entries : ℕ) :
    Ptr × Mem (List LfwIpPrefix) :=
  if entries = 0 then (none, bufs) else bufs.zalloc A (List.replicate entries .zero)

/-- `lfw_bogon_set`. -/
def lfwBogonSet (e : Endian) (A : Allocator) (info : GenlInfo) (s : LfwBgState) :
    Except Fault (ℤ × LfwBgState) :=
  let num_prefix := lfwNumPrefix e info
  let entries := lfwBufEntries A num_prefix
  if num_prefix = 0 then pure (-EINVAL, s)
  else
    match lfwVzalloc A s.bufs entries with
    | (none, bufs) => pure (-ENOMEM, { s with bufs := bufs })
    | (some buf, bufs) => do
      let prefix_buf ←
        lfwParsePrefixes e 0 (List.replicate entries .zero) (lfwPrefixAttrs e info)
      let bufs ← bufs.store (some buf) prefix_buf
      let s ← lfwLoadBgTree e A prefix_buf num_prefix { s with bufs := bufs }
      let bufs ← s.bufs.free buf
      pure (0, { s with bufs := bufs })

/-- What can happen to the list. -/
inductive LfwBgOp where
  | set (A : Allocator) (info : GenlInfo)
  | callback (i : ℕ)

/-- One event. -/
def lfwBgStep (e : Endian) (s : LfwBgState) : LfwBgOp → Except Fault LfwBgState
  | .set A info => do
    let (_, s) ← lfwBogonSet e A info s
    pure s
  | .callback i => lfwFreeBgTree i s

end Librefw
