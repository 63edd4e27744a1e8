import Librefw.Hcf.Model.Tree
import Librefw.Common.TrieBuild
import Librefw.Kernel.Utils

/-!
# The hop-count tree, over the trie library

The loops of `hcf.c` are the library's operations along the key of 24
bits of an address, so each function has one law: a register work is a
path copy (`hcfRegisterIpLocked_spec`), a lookup reads the value at the
key (`hcfLookupTree_spec`), and a history entry is an in-place insertion
(`hcfInsertEntry_spec`). The numbers are exact as well: a hop count fits
its byte (`hcfMetaOf_hc`), and the comparison is the claimed one
(`hcfCompare_eq`).
-/

namespace Librefw

open PtrTrie

variable {A : Supply} {m m' : Mem HcfNode} {t : PtrTrie HcfMeta} {ip : U32}

/-! ## The hop count -/

/-- A hop count lies between zero and `126`. -/
theorem hcfGetInitialTtl_bounds (ttl : U8) :
    0 ≤ hcfGetInitialTtl ttl - ttl.toNat ∧ hcfGetInitialTtl ttl - ttl.toNat ≤ 126 := by
  have hlt := ttl.isLt
  unfold hcfGetInitialTtl
  simp only [BitVec.le_def, BitVec.toNat_ofNat]
  split
  · omega
  · split <;> omega

theorem hcfGetInitialTtl_range (ttl : U8) :
    0 ≤ hcfGetInitialTtl ttl ∧ hcfGetInitialTtl ttl < 256 := by
  unfold hcfGetInitialTtl
  split
  · omega
  · split <;> omega

private theorem toNat_ofInt_u8 {i : ℤ} (h0 : 0 ≤ i) (h1 : i < 256) :
    ((BitVec.ofInt 8 i : U8).toNat : ℤ) = i := by
  rw [BitVec.toNat_ofInt, Int.toNat_of_nonneg (Int.emod_nonneg _ (by norm_num))]
  exact Int.emod_eq_of_lt h0 (by simpa using h1)

/-- **The stored hop count is not truncated.** -/
theorem hcfMetaOf_hc (ttl : U8) :
    ((hcfMetaOf ttl).hc.toNat : ℤ) = hcfGetInitialTtl ttl - ttl.toNat := by
  have h := hcfGetInitialTtl_bounds ttl
  exact toNat_ofInt_u8 h.1 (by omega)

/-- **The comparison at the leaf**, without its byte-sized local. -/
theorem hcfCompare_eq (ttl hc : U8) :
    hcfCompare ttl hc =
      if ((hcfGetInitialTtl ttl - ttl.toNat) - hc.toNat).natAbs ≤ 2 then 1 else 0 := by
  have h := hcfGetInitialTtl_range ttl
  unfold hcfCompare
  simp only [toNat_ofInt_u8 h.1 h.2]

/-! ## The loops -/

/-- The bit a loop takes with `k` iterations left after it. -/
theorem hcfBit_eq (ip : U32) {k : ℕ} (h : k < 24) : hcfBit ip (k + 8) = ip.getMsbD (23 - k) := by
  have hidx : 32 - 1 - (23 - k) = k + 8 := by omega
  rw [hcfBit, shift_and_one, BitVec.getMsbD, decide_eq_true (by omega), Bool.true_and, hidx]

/-- The bits of the iterations left. -/
def hcfBits (ip : U32) (k : ℕ) : List Bool := ipBits ip (24 - k) k

theorem hcfBits_zero (ip : U32) : hcfBits ip 0 = [] := rfl

theorem hcfBits_succ (ip : U32) {k : ℕ} (h : k < 24) :
    hcfBits ip (k + 1) = hcfBit ip (k + 8) :: hcfBits ip k := by
  have hnext : 24 - (k + 1) + 1 = 24 - k := by omega
  have hfst : 24 - (k + 1) = 23 - k := by omega
  rw [hcfBits, ipBits_succ, hnext, hcfBit_eq ip h, hfst, hcfBits]

/-- All 24 iterations take the key of the address. -/
theorem hcfBits_24 (ip : U32) : hcfBits ip 24 = ipPath ip 24 := ipBits_eq_ipPath ip 24

theorem hcfCloneNode_eq (A : Allocator) (old : Addr) (m : Mem HcfNode) :
    hcfCloneNode A old m = clone A HcfMeta.zero old m := by
  unfold hcfCloneNode clone
  rcases m.zalloc A (Cell.zero HcfMeta.zero) with ⟨_ | c, m₁⟩ <;> rfl

theorem length_hcfBits (ip : U32) {k : ℕ} (hk : k ≤ 24) : (hcfBits ip k).length = k := by
  induction k with
  | zero => rfl
  | succ k ih => rw [hcfBits_succ ip (by omega), List.length_cons, ih (by omega)]

/-- The first loop is the library's, its free list kept in 33 slots. -/
theorem hcfClonePath_eq (A : Allocator) {k : ℕ} (hk : k ≤ 24) (runner : Addr) (new_runner : Ptr)
    (free : List Addr) (hfree : free.length + k ≤ 33) (m : Mem HcfNode) :
    hcfClonePath A ip k runner new_runner free m =
      clonePath A HcfMeta.zero (hcfBits ip k) runner new_runner m >>= fun x =>
        pure (x.1.length, x.2.1, free ++ x.2.2.1, x.2.2.2) := by
  induction k generalizing runner new_runner free m with
  | zero => simp [hcfBits_zero, hcfClonePath, clonePath]
  | succ k ih =>
    -- 33 slots are enough for the nodes of a path
    have hpush : ∀ x, pushNodeToFree free x = .ok (free ++ [x]) := fun x => if_pos (by omega)
    rw [hcfBits_succ ip (by omega), hcfClonePath, clonePath]
    simp only [bind_assoc]
    congr 1
    funext n
    cases hc : n.child (hcfBit ip (k + 8)) with
    | none => simp only [pure_bind, List.length_cons, length_hcfBits ip (show k ≤ 24 by omega),
        List.append_nil]
    | some old_child =>
      simp only [hcfCloneNode_eq, hpush, bind_assoc, pure_bind, ok_bind,
        ih (show k ≤ 24 by omega) old_child _ (free ++ [old_child]) (by simp; omega),
        List.append_assoc, List.singleton_append]

/-- The second loop is the library's. -/
theorem hcfCreatePath_eq (A : Allocator) {k : ℕ} (hk : k ≤ 24) (runner : Ptr) (m : Mem HcfNode) :
    hcfCreatePath A ip k runner m = growPath A HcfMeta.zero (hcfBits ip k) runner m := by
  induction k generalizing runner m with
  | zero => rfl
  | succ k ih =>
    rw [hcfBits_succ ip (by omega), hcfCreatePath, growPath]
    simp only [hcfCreateNode, ih (by omega)]

/-- The loop of the lookup is the library's walk. -/
theorem hcfDescend_eq {k : ℕ} (hk : k ≤ 24) (runner : Addr) :
    hcfDescend m ip k runner = walk m (hcfBits ip k) (some runner) := by
  induction k generalizing runner with
  | zero => rfl
  | succ k ih =>
    rw [hcfBits_succ ip (by omega), hcfDescend, walk]
    congr 1
    funext n
    cases n.child (hcfBit ip (k + 8)) with
    | none => rfl
    | some c => exact ih (by omega) c

/-- The loop that adds an entry's path is the library's, its counter started
where it was. -/
theorem hcfInsertPath_eq (A : Allocator) {k : ℕ} (hk : k ≤ 24) (runner : Ptr) (new_nodes : ℕ)
    (m : Mem HcfNode) :
    hcfInsertPath A ip k runner new_nodes m =
      (do let (last, created, m) ← extend A HcfMeta.zero (hcfBits ip k) runner m
          pure (last, new_nodes + created, m)) := by
  induction k generalizing runner new_nodes m with
  | zero => rfl
  | succ k ih =>
    rw [hcfBits_succ ip (by omega), hcfInsertPath, extend]
    simp only [bind_assoc]
    congr 1
    funext n
    cases hc : n.child (hcfBit ip (k + 8)) with
    | some c => simp only [ih (by omega)]
    | none =>
      simp only [hcfCreateNode, ih (by omega), bind_assoc, pure_bind, Nat.add_right_comm,
        Nat.add_assoc]

/-! ## The functions -/

/-- The key of a task, and what its work puts there. -/
abbrev HcfRegistered (task : HcfAddNodeTask) := CowPutResult HcfMeta.zero
  (fun _ => hcfMetaOf task.ttl) (ipPath task.source_ip 24)

/-- What the first loop leaves of the path is its last bits. -/
theorem clonePath_rest {A : Allocator} {k : ℕ} (hk : k ≤ 24) {runner : Addr} {new_runner : Ptr}
    {x : List Bool × Ptr × List Addr × Mem HcfNode}
    (h : clonePath A HcfMeta.zero (hcfBits ip k) runner new_runner m = .ok x) :
    ∃ j ≤ k, x.1 = hcfBits ip j := by
  induction k generalizing runner new_runner m x with
  | zero =>
    obtain rfl := Except.ok.inj h
    exact ⟨0, le_refl 0, rfl⟩
  | succ k ih =>
    rw [hcfBits_succ ip (by omega), clonePath] at h
    obtain ⟨n, -, h⟩ := bind_eq_ok.1 h
    cases hc : n.child (hcfBit ip (k + 8)) with
    | none =>
      simp only [hc] at h
      obtain rfl := Except.ok.inj h
      exact ⟨k + 1, le_refl _, (hcfBits_succ ip (by omega)).symm⟩
    | some old_child =>
      simp only [hc] at h
      obtain ⟨y, -, h⟩ := bind_eq_ok.1 h
      obtain ⟨m₂, -, h⟩ := bind_eq_ok.1 h
      obtain ⟨y', hrec, h⟩ := bind_eq_ok.1 h
      obtain rfl := Except.ok.inj h
      obtain ⟨j, hj, hrest⟩ := ih (by omega) hrec
      exact ⟨j, by omega, hrest⟩

/-- The critical section is the library's update, whatever memory there is. -/
theorem hcfRegisterIpLocked_eq (A : Allocator) (task : HcfAddNodeTask) (a : Addr)
    (m : Mem HcfNode) :
    hcfRegisterIpLocked A task (some a) m =
      cowPut A HcfMeta.zero (fun _ => hcfMetaOf task.ttl) (ipPath task.source_ip 24) a m >>=
        fun x => pure (some ⟨x.1, x.2.1, x.2.2.1, x.2.2.2.1⟩, x.2.2.2.2) := by
  have hpush : pushNodeToFree [] a = .ok [a] := rfl
  simp only [hcfRegisterIpLocked, cowPut, cowBelow, hcfCloneNode_eq, hpush, ok_bind, bind_assoc,
    pure_bind, hcfClonePath_eq A (le_refl 24) _ _ [a] (by simp), List.singleton_append, ← hcfBits_24]
  refine bind_congr_ok fun x _ => bind_congr_ok fun y hy => ?_
  -- the second loop takes the bits the first one left
  obtain ⟨j, hj, hrest⟩ := clonePath_rest (le_refl 24) hy
  rw [hrest, length_hcfBits _ hj, hcfCreatePath_eq A hj]

/-- **A register work is a path copy** of the tree along the key of its
address. -/
theorem hcfRegisterIpLocked_spec (A : Supply) (task : HcfAddNodeTask) (hs : Stored m t)
    (hne : t ≠ .nil) (hnd : (addrs t).Nodup) :
    ∃ pub m' t', hcfRegisterIpLocked A.toAllocator task (root t) m = .ok (some pub, m') ∧
      HcfRegistered task m t pub.new_root pub.new_runner pub.nodes_created pub.nodes_to_free
        m' t' := by
  cases t with
  | nil => exact absurd rfl hne
  | node x kids =>
    obtain ⟨a, v⟩ := x
    obtain ⟨new, last, created, olds, m', t', hrun, hres⟩ :=
      cowPut_spec A HcfMeta.zero (fun _ => hcfMetaOf task.ttl) (ipPath task.source_ip 24) m a v
        kids hs hnd
    refine ⟨⟨new, last, created, olds⟩, m', t', ?_, hres⟩
    rw [root_node, hcfRegisterIpLocked_eq, hrun]
    rfl

/-- What a lookup answers for the leaf it finds, if any. -/
def hcfAnswer (ttl : U8) : Option HcfMeta → ℤ
  | none => -1
  | some leaf => hcfCompare ttl leaf.hc

/-- What a lookup answers on a tree that means `t`. -/
def hcfVerdict (t : BitTrie HcfMeta) (source_ip : U32) (ttl : U8) : ℤ :=
  hcfAnswer ttl (t.find (ipPath source_ip 24))

theorem hcfDescend_24 (runner : Addr) :
    hcfDescend m ip 24 runner = walk m (ipPath ip 24) (some runner) := by
  rw [← hcfBits_24]
  exact hcfDescend_eq (le_refl 24) runner

/-- The lookup after its loop. -/
def hcfReadLeaf (m : Mem HcfNode) (ttl : U8) : Ptr → Except Fault ℤ
  | none => pure (-1)
  | some runner => do
    let n ← m.load (some runner)
    pure (hcfCompare ttl n.data.hc)

theorem hcfLookupTree_some (a : Addr) (source_ip : U32) (ttl : U8) :
    hcfLookupTree (some a) m source_ip ttl =
      hcfDescend m source_ip 24 a >>= hcfReadLeaf m ttl := by
  unfold hcfLookupTree
  congr 1

/-- **A lookup reads the leaf at the key.** -/
theorem hcfLookupTree_spec (hs : Stored m t) (source_ip : U32) (ttl : U8) :
    hcfLookupTree (root t) m source_ip ttl = .ok (hcfVerdict (vals t) source_ip ttl) := by
  unfold hcfVerdict
  cases t with
  | nil =>
    rw [vals_nil, BitTrie.find_nil]
    rfl
  | node x kids =>
    rw [root_node, hcfLookupTree_some, hcfDescend_24, ← root_node x kids]
    generalize ipPath source_ip 24 = p
    rw [walk_spec hs (by simp) p, ok_bind]
    cases hr : root ((BitTrie.node x kids).descend p) with
    | none =>
      rw [find_eq_none_of_descend hr]
      rfl
    | some a =>
      obtain ⟨n, hn, hfind⟩ := hs.data_of_descend hr
      rw [hfind, hcfReadLeaf, Mem.load_of_lookup hn]
      rfl

/-- What a history entry inserts. -/
def HcfHistoryEntry.put (x : HcfHistoryEntry) : List Bool × (HcfMeta → HcfMeta) :=
  (ipPath x.ip_addr 24, fun _ => ⟨x.hc, x.ttl⟩)

/-- A history entry is an insertion at the key of its address. -/
theorem hcfInsertEntry_eq (A : Allocator) (new_tree : Ptr) (x : HcfHistoryEntry)
    (m : Mem HcfNode) :
    hcfInsertEntry A new_tree x m =
      (do let (_, _, m) ← PtrTrie.put A HcfMeta.zero x.put.2 x.put.1 new_tree m
          pure m) := by
  rw [hcfInsertEntry, hcfInsertPath_eq A (le_refl 24), hcfBits_24]
  simp only [PtrTrie.put, HcfHistoryEntry.put, bind_assoc, pure_bind, bind_pure]

/-- The entries of a history are a run of insertions. -/
theorem hcfInsertEntries_eq (A : Allocator) (new_tree : Ptr) (entries : List HcfHistoryEntry)
    (m : Mem HcfNode) :
    entries.foldlM (fun m x => hcfInsertEntry A new_tree x m) m =
      putAll A HcfMeta.zero new_tree (entries.map HcfHistoryEntry.put) m := by
  induction entries generalizing m with
  | nil => rfl
  | cons x entries ih =>
    rw [List.foldlM_cons, hcfInsertEntry_eq, List.map_cons, putAll]
    simp only [bind_assoc, pure_bind, ih]

/-- **A history entry grows the tree** at the key of its address. -/
theorem hcfInsertEntry_spec (A : Supply) (x : HcfHistoryEntry) (hs : Stored m t)
    (hne : t ≠ .nil) (hnd : (addrs t).Nodup) :
    ∃ m' t', hcfInsertEntry A.toAllocator (root t) x m = .ok m' ∧ Grows m t m' t' ∧
      vals t' = BitTrie.put HcfMeta.zero x.put.2 x.put.1 (vals t) := by
  obtain ⟨m', t', hrun, hg, hvals⟩ := putAll_spec A HcfMeta.zero [x.put] hs hne hnd
  refine ⟨m', t', ?_, hg, hvals⟩
  have hone := hcfInsertEntries_eq A.toAllocator (root t) [x] m
  rw [List.map_singleton, hrun, List.foldlM_cons] at hone
  simpa only [List.foldlM_nil, bind_pure] using hone

/-- Freeing a whole tree frees its footprint and nothing else. -/
theorem hcfFreeNode_spec (hs : Stored m t) (hnd : (addrs t).Nodup) :
    ∃ m', hcfFreeNode (root t) m = .ok m' ∧ addrs t + m'.allocated = m.allocated ∧
      ∀ c, c ∉ addrs t → m'.lookup c = m.lookup c := by
  refine freeTree_spec _ hs hnd ?_
  exact (height_le_card t).trans (Multiset.card_le_card (hs.addrs_le hnd))

end Librefw
