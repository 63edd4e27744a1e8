import Librefw.Common.TrieWalk
import Librefw.Common.PathCopy
import Librefw.Kernel.Model.NlOps

/-!
# The hop-count tree

`hcf.c` as far as it works on the tree: node creation and cloning, the
critical section of a register work with its two loops over one bit
counter, the lookup, and the insertion of one history entry. A loop over
`remaining_bits` from `31` down to `8` is a recursion on `k`, the number
of iterations left, in which `remaining_bits` is `k + 8 - 1`.
-/

namespace Librefw

/-- The payload of `struct hcf_node`. -/
structure HcfMeta where
  hc : U8
  ttl : U8
  deriving DecidableEq, Repr

/-- `struct hcf_node`. -/
abbrev HcfNode := Cell HcfMeta

/-- `struct hcf_add_node_task`. -/
structure HcfAddNodeTask where
  source_ip : U32
  ttl : U8
  deriving DecidableEq, Repr

/-- `struct hcf_ip_ctx`, what an announcement carries. -/
structure HcfIpCtx where
  source_ip : U32
  ttl : U8
  hc : U8
  deriving DecidableEq, Repr

/-- The payload of a fresh node. -/
def HcfMeta.zero : HcfMeta := ⟨0, 0⟩

/-- `hcf_create_node`. -/
def hcfCreateNode (A : Allocator) (m : Mem HcfNode) : Ptr × Mem HcfNode :=
  m.zalloc A (Cell.zero .zero)

/-- `hcf_clone_node`. -/
def hcfCloneNode (A : Allocator) (old : Addr) (m : Mem HcfNode) : Except Fault (Ptr × Mem HcfNode) :=
  match m.zalloc A (Cell.zero .zero) with
  | (none, m) => pure (none, m)
  | (some new_node, m) => do
    let n ← m.load (some old)
    let m ← m.store (some new_node) n
    pure (some new_node, m)

/-- `hcf_get_initial_ttl`. -/
def hcfGetInitialTtl (ttl : U8) : ℤ :=
  if ttl ≤ 64#8 then 64 else if ttl ≤ 128#8 then 128 else 255

/-- What a register work writes into the leaf: the assignment to `hc` keeps the
low byte. -/
def hcfMetaOf (ttl : U8) : HcfMeta :=
  { ttl := ttl, hc := BitVec.ofInt 8 (hcfGetInitialTtl ttl - ttl.toNat) }

/-- `(source_ip >> remaining_bits) & 1`, as an index. -/
def hcfBit (source_ip : U32) (remaining_bits : ℕ) : Bool :=
  (source_ip >>> remaining_bits) &&& 1#32 == 1#32

/-! ## The critical section of a register work -/

/-- `nodes_to_free[free_count++] = node`, into an array of 33 slots. -/
def pushNodeToFree (nodes_to_free : List Addr) (node : Addr) : Except Fault (List Addr) :=
  if nodes_to_free.length < 33 then pure (nodes_to_free ++ [node])
  else throw (.outOfBounds nodes_to_free.length)

/-- The first loop: clone the path as far as it exists. -/
def hcfClonePath (A : Allocator) (source_ip : U32) :
    ℕ → Addr → Ptr → List Addr → Mem HcfNode → Except Fault (ℕ × Ptr × List Addr × Mem HcfNode)
  | 0, _, new_runner, nodes_to_free, m => pure (0, new_runner, nodes_to_free, m)
  | k + 1, runner, new_runner, nodes_to_free, m => do
    let bit := hcfBit source_ip (k + 8)
    let n ← m.load (some runner)
    match n.child bit with
    | none => pure (k + 1, new_runner, nodes_to_free, m)
    | some old_child => do
      let (new_child, m) ← hcfCloneNode A old_child m
      let m ← m.modify new_runner (Cell.setChild bit new_child)
      let nodes_to_free ← pushNodeToFree nodes_to_free old_child
      hcfClonePath A source_ip k old_child new_child nodes_to_free m

/-- The second loop: create the rest of the path. -/
def hcfCreatePath (A : Allocator) (source_ip : U32) :
    ℕ → Ptr → Mem HcfNode → Except Fault (Ptr × ℕ × Mem HcfNode)
  | 0, new_runner, m => pure (new_runner, 0, m)
  | k + 1, new_runner, m => do
    let bit := hcfBit source_ip (k + 8)
    let (node, m) := hcfCreateNode A m
    let m ← m.modify new_runner (Cell.setChild bit node)
    let (new_runner, nodes_created, m) ← hcfCreatePath A source_ip k node m
    pure (new_runner, nodes_created + 1, m)

/-- The locals of a register work that outlive its critical section, and the
root it publishes. -/
structure HcfPublished where
  new_root : Ptr
  new_runner : Ptr
  nodes_created : ℕ
  nodes_to_free : List Addr
  deriving DecidableEq, Repr

/-- `hcf_register_ip_work` under the lock: nothing without a tree, else the
new version of the tree. -/
def hcfRegisterIpLocked (A : Allocator) (task : HcfAddNodeTask) (tree : Ptr) (m : Mem HcfNode) :
    Except Fault (Option HcfPublished × Mem HcfNode) :=
  match tree with
  | none => pure (none, m)
  | some runner => do
    let (new_root, m) ← hcfCloneNode A runner m
    let nodes_to_free ← pushNodeToFree [] runner
    let (remaining, new_runner, nodes_to_free, m) ←
      hcfClonePath A task.source_ip 24 runner new_root nodes_to_free m
    let (new_runner, nodes_created, m) ← hcfCreatePath A task.source_ip remaining new_runner m
    let m ← m.modify new_runner (Cell.mapData fun _ => hcfMetaOf task.ttl)
    pure (some ⟨new_root, new_runner, nodes_created, nodes_to_free⟩, m)

/-- After the lock is dropped: if nodes were created, the leaf is read for the
announcement, and its hop count once more for the log line. -/
def hcfLogNewIp (m : Mem HcfNode) (task : HcfAddNodeTask) (pub : HcfPublished) :
    Except Fault (Option HcfIpCtx) :=
  if 0 < pub.nodes_created then do
    let n ← m.load pub.new_runner
    let _ ← m.load pub.new_runner
    pure (some ⟨task.source_ip, n.data.ttl, n.data.hc⟩)
  else pure none

/-! ## The lookup -/

/-- The loop of `hcf_lookup_tree`. -/
def hcfDescend (m : Mem HcfNode) (source_ip : U32) : ℕ → Addr → Except Fault Ptr
  | 0, runner => pure (some runner)
  | k + 1, runner => do
    let n ← m.load (some runner)
    match n.child (hcfBit source_ip (k + 8)) with
    | none => pure none
    | some child => hcfDescend m source_ip k child

/-- The comparison at the leaf: whether the hop counts are within two. -/
def hcfCompare (ttl : U8) (hc : U8) : ℤ :=
  let initial_ttl : U8 := BitVec.ofInt 8 (hcfGetInitialTtl ttl)
  let current_hc : ℤ := (initial_ttl.toNat : ℤ) - ttl.toNat
  let stored_hc : ℤ := hc.toNat
  if (current_hc - stored_hc).natAbs ≤ 2 then 1 else 0

/-- `hcf_lookup_tree`. -/
def hcfLookupTree (tree : Ptr) (m : Mem HcfNode) (source_ip : U32) (ttl : U8) : Except Fault ℤ :=
  match tree with
  | none => pure (-1)
  | some root => do
    match ← hcfDescend m source_ip 24 root with
    | none => pure (-1)
    | some runner => do
      let n ← m.load (some runner)
      pure (hcfCompare ttl n.data.hc)

/-! ## History entries -/

/-- The locals an entry of a history message is parsed into. -/
@[ext] structure HcfHistoryEntry where
  ip_addr : U32
  ttl : U8
  hc : U8
  deriving DecidableEq, Repr

/-- The switch over one sub-attribute. The address is read in host order, and
only if its payload has four bytes. -/
def hcfParseField (e : Endian) (entry : HcfHistoryEntry) (nested_pos : NlAttr) : HcfHistoryEntry :=
  if nested_pos.type = LFW_NLA_HCF_HISTORY_IP then
    if nested_pos.len = 4 then { entry with ip_addr := nested_pos.getU32 e } else entry
  else if nested_pos.type = LFW_NLA_HCF_HISTORY_TTL then { entry with ttl := nested_pos.getU8 }
  else if nested_pos.type = LFW_NLA_HCF_HISTORY_HC then { entry with hc := nested_pos.getU8 }
  else entry

/-- One container of a history message. -/
def hcfParseEntry (e : Endian) (pos : NlAttr) : HcfHistoryEntry :=
  (pos.nested e).foldl (hcfParseField e) ⟨0, 0, 0⟩

/-- The loop that adds the path of one entry to a tree under construction. -/
def hcfInsertPath (A : Allocator) (ip_addr : U32) :
    ℕ → Ptr → ℕ → Mem HcfNode → Except Fault (Ptr × ℕ × Mem HcfNode)
  | 0, runner, new_nodes, m => pure (runner, new_nodes, m)
  | k + 1, runner, new_nodes, m => do
    let bit := hcfBit ip_addr (k + 8)
    let n ← m.load runner
    match n.child bit with
    | some child => hcfInsertPath A ip_addr k (some child) new_nodes m
    | none => do
      let (child, m) := hcfCreateNode A m
      let m ← m.modify runner (Cell.setChild bit child)
      hcfInsertPath A ip_addr k child (new_nodes + 1) m

/-- One entry of a history message into the tree under construction. -/
def hcfInsertEntry (A : Allocator) (new_tree : Ptr) (entry : HcfHistoryEntry) (m : Mem HcfNode) :
    Except Fault (Mem HcfNode) := do
  let (runner, _, m) ← hcfInsertPath A entry.ip_addr 24 new_tree 0 m
  m.modify runner (Cell.mapData fun _ => ⟨entry.hc, entry.ttl⟩)

/-- `hcf_free_node`: the recursion goes no deeper than there are nodes. -/
def hcfFreeNode (node : Ptr) (m : Mem HcfNode) : Except Fault (Mem HcfNode) :=
  PtrTrie.freeTree m.objs.keys.card node m

end Librefw
