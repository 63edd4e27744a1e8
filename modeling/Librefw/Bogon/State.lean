import Librefw.Bogon.Tree
import Librefw.Common.Footprint

/-!
# The bogon list between its functions

`LfwBgInv` is what holds of the state whenever no function is running: the
published tree and the replaced ones that wait for their callback are
stored, without sharing. A load publishes the trie of its list
(`lfwLoadBgTree_spec`), whatever the state; a callback frees one replaced
tree and leaves the published one alone (`lfwFreeBgTree_spec`).

An allocation that fails ends a load early, with the old list in place,
or, once the root is there, in a fault; so a load that returns has either
changed nothing or gone as with a supply (`lfwLoadBgTree_cases`).

The lookup answers membership in one of the prefixes, for every list of
them that the counter of the load can count (`lfwLookupBgTree_mem_iff`).
-/

namespace Librefw

open PtrTrie

variable {s s' : LfwBgState} {a : Addr} {t : PtrTrie Bool} {olds : List (Addr × PtrTrie Bool)}
variable {m m' : Mem LfwBgNode} {e : Endian} {A : Allocator} {prefixes : List LfwIpPrefix}

/-- The invariant of the bogon list: its tree, and the replaced ones. -/
structure LfwBgInv (s : LfwBgState) (a : Addr) (t : PtrTrie Bool)
    (olds : List (Addr × PtrTrie Bool)) : Prop where
  tree_eq : s.tree = some a
  header : s.trees.lookup a = some ⟨root t⟩
  stored : Stored s.nodes t
  rcu_eq : s.rcu = olds.map fun x => some x.1
  old : ∀ x ∈ olds, s.trees.lookup x.1 = some ⟨root x.2⟩ ∧ Stored s.nodes x.2
  nodes_le : addrs t + held (fun x => addrs x.2) olds ≤ s.nodes.allocated
  trees_le : a ::ₘ held (fun x => {x.1}) olds ≤ s.trees.allocated

/-- **The list starts empty.** -/
theorem lfwInitBgState_spec (A : Supply) :
    ∃ s a, lfwInitBgState A.toAllocator = .ok s ∧ LfwBgInv s a .nil [] := by
  obtain ⟨a, trees, halloc, hext⟩ := Mem.zalloc_supply A (Mem.empty : Mem LfwBgTree) ⟨none⟩
  refine ⟨⟨Mem.empty, trees, Mem.empty, some a, [], []⟩, a, ?_, rfl, hext.lookup_self, trivial, rfl,
    fun x hx => ?_, ?_, ?_⟩
  · simp only [lfwInitBgState, halloc, pure_eq_ok]
  · cases hx
  · simp
  · simp [hext.allocated]

/-- **The lookup answers for the published trie.** -/
theorem lfwLookupBgTree_spec (htree : s.tree = some a) (hhead : s.trees.lookup a = some ⟨root t⟩)
    (hs : Stored s.nodes t) (ip : U32) :
    ∃ r, lfwLookupBgTree s ip = .ok r ∧ (0 < r ↔ (vals t).marks (ipPath ip 32) = true) := by
  unfold lfwLookupBgTree
  rw [htree, Mem.load_of_lookup hhead, ok_bind]
  cases hroot : root t with
  | none =>
    refine ⟨-1, rfl, ?_⟩
    rw [root_eq_none.1 hroot]
    simp [BitTrie.marks]
  | some runner =>
    obtain ⟨r, hrun, hr⟩ := lfwLookupFrom_spec ip (le_refl 32) hs hroot
    rw [ipBits_eq_ipPath] at hr
    exact ⟨r, hrun, hr⟩

theorem LfwBgInv.lookup (h : LfwBgInv s a t olds) (ip : U32) :
    ∃ r, lfwLookupBgTree s ip = .ok r ∧ (0 < r ↔ (vals t).marks (ipPath ip 32) = true) :=
  lfwLookupBgTree_spec h.tree_eq h.header h.stored ip

/-! ## Loading -/

/-- What a load leaves behind: a fresh tree, published, next to what was there. -/
structure LfwLoaded (e : Endian) (prefixes : List LfwIpPrefix) (s s' : LfwBgState) (a : Addr)
    (t : PtrTrie Bool) : Prop where
  tree_eq : s'.tree = some a
  header : s'.trees.lookup a = some ⟨root t⟩
  stored : Stored s'.nodes t
  vals_eq : ∃ c, vals t = lfwMarked e c prefixes
  rcu_eq : s'.rcu = s.rcu ++ [s.tree]
  nodes_eq : s'.nodes.allocated = addrs t + s.nodes.allocated
  nodes_keep : ∀ c ∈ s.nodes, s'.nodes.lookup c = s.nodes.lookup c
  trees_eq : s'.trees.allocated = a ::ₘ s.trees.allocated
  trees_keep : ∀ c ∈ s.trees, s'.trees.lookup c = s.trees.lookup c
  bufs_eq : s'.bufs = s.bufs

/-- **A load publishes the trie of its list**, in any state. -/
theorem lfwLoadBgTree_spec (e : Endian) (A : Supply) (s : LfwBgState)
    (hlen : ∀ p ∈ prefixes, p.ipPrefixLen.toNat ≤ 32) (hmax : prefixes.length ≤ 2 ^ 31) :
    ∃ s' a t, lfwLoadBgTree e A.toAllocator prefixes prefixes.length s = .ok s' ∧
      LfwLoaded e prefixes s s' a t := by
  obtain ⟨a, trees, htree, hexta⟩ := Mem.zalloc_supply A s.trees ⟨none⟩
  obtain ⟨c, nodes, hnode, hextc⟩ := Mem.zalloc_supply A s.nodes (Cell.zero false)
  have hne : lfwBlank c ≠ .nil := by simp [lfwBlank]
  have hs : Stored nodes (lfwBlank c) := ⟨hextc.lookup_self, fun _ => trivial⟩
  have haddrs : addrs (lfwBlank c) = {c} := rfl
  -- the loop is a run of insertions into the trie of the fresh root
  obtain ⟨nodes', t, hrun, hg, hvals⟩ := putAll_spec A false
    (prefixes.map (LfwIpPrefix.put e)) hs hne (by simp [haddrs])
  obtain ⟨log, hloop⟩ := lfwInsertPrefixes_of_putAll (e := e) (A := A.toAllocator) hlen hmax
    (Nat.zero_add _) s.log hrun
  refine ⟨{ s with
    nodes := nodes', trees := trees.set a ⟨some c⟩, tree := some a, rcu := s.rcu ++ [s.tree],
    log := log }, a, t, ?_, rfl, ?_, hg.stored, ⟨c, hvals⟩, rfl, ?_, fun d hd => ?_, ?_,
    fun d hd => ?_, rfl⟩
  · have hloop' : lfwInsertPrefixes e A.toAllocator (some c) prefixes prefixes.length 0 s.log nodes =
        .ok (log, nodes') := hloop
    simp only [lfwLoadBgTree, htree, lfwCreateNode, hnode, Mem.store_of_mem hexta.mem_self, hloop',
      ok_bind, pure_eq_ok]
  · rw [Mem.lookup_set_self, hg.root_eq]
    rfl
  · have hacc := hg.account
    rw [haddrs, hextc.allocated] at hacc
    ext d
    have hd := congrArg (Multiset.count d) hacc
    simp only [Multiset.count_add, Multiset.count_cons, Multiset.count_singleton] at hd ⊢
    omega
  · have hdc : d ∉ addrs (lfwBlank c) := by
      rw [haddrs, Multiset.mem_singleton]
      exact hextc.ne_of_mem hd
    rw [hg.lookup_eq d (hextc.mem_of_mem hd) hdc, hextc.lookup_of_mem hd]
  · rw [Mem.allocated_set_of_mem hexta.mem_self, hexta.allocated]
  · rw [Mem.lookup_set_ne (hexta.ne_of_mem hd), hexta.lookup_of_mem hd]

/-- A load keeps the invariant, the old tree among the replaced ones. -/
theorem LfwLoaded.inv {a' : Addr} {t' : PtrTrie Bool} (hl : LfwLoaded e prefixes s s' a' t')
    (h : LfwBgInv s a t olds) : LfwBgInv s' a' t' (olds ++ [(a, t)]) := by
  have hnodes : addrs t + held (fun x : Addr × PtrTrie Bool => addrs x.2) olds ≤
      s.nodes.allocated := h.nodes_le
  have hmem : ∀ {u : PtrTrie Bool}, Stored s.nodes u → Stored s'.nodes u := fun hu =>
    hu.congr fun c hc => hl.nodes_keep c (hu.mem_of_addrs hc)
  refine ⟨hl.tree_eq, hl.header, hl.stored, ?_, fun x hx => ?_, ?_, ?_⟩
  · rw [hl.rcu_eq, h.rcu_eq, h.tree_eq, List.map_append]
    rfl
  · rcases List.mem_append.1 hx with hx | hx
    · obtain ⟨hhead, hs⟩ := h.old x hx
      exact ⟨(hl.trees_keep _ (Mem.mem_of_lookup hhead)).trans hhead, hmem hs⟩
    · obtain rfl := List.mem_singleton.1 hx
      exact ⟨(hl.trees_keep _ (Mem.mem_of_lookup h.header)).trans h.header, hmem h.stored⟩
  · rw [held_append, held_cons, held_nil, add_zero, hl.nodes_eq, add_comm (held _ olds)]
    exact add_le_add (le_refl _) hnodes
  · rw [held_append, held_cons, held_nil, add_zero, hl.trees_eq, add_comm (held _ olds),
      Multiset.singleton_add]
    exact Multiset.cons_le_cons _ h.trees_le

/-! ## Callbacks -/

/-- Trees stored without sharing: their headers, and their nodes. -/
structure LfwBgForest (s : LfwBgState) (xs : List (Addr × PtrTrie Bool)) : Prop where
  stored : ∀ x ∈ xs, s.trees.lookup x.1 = some ⟨root x.2⟩ ∧ Stored s.nodes x.2
  nodes_le : held (fun x => addrs x.2) xs ≤ s.nodes.allocated
  trees_le : held (fun x => {x.1}) xs ≤ s.trees.allocated

theorem LfwBgInv.forest (h : LfwBgInv s a t olds) : LfwBgForest s ((a, t) :: olds) where
  stored := by
    intro x hx
    rcases List.mem_cons.1 hx with rfl | hx
    · exact ⟨h.header, h.stored⟩
    · exact h.old x hx
  nodes_le := by
    rw [held_cons]
    exact h.nodes_le
  trees_le := by
    rw [held_cons, Multiset.singleton_add]
    exact h.trees_le

theorem LfwBgForest.inv (h : LfwBgForest s ((a, t) :: olds)) (htree : s.tree = some a)
    (hrcu : s.rcu = olds.map fun x => some x.1) : LfwBgInv s a t olds where
  tree_eq := htree
  header := (h.stored (a, t) List.mem_cons_self).1
  stored := (h.stored (a, t) List.mem_cons_self).2
  rcu_eq := hrcu
  old := fun x hx => h.stored x (List.mem_cons_of_mem _ hx)
  nodes_le := by
    have hle := h.nodes_le
    rwa [held_cons] at hle
  trees_le := by
    have hle := h.trees_le
    rwa [held_cons, Multiset.singleton_add] at hle

/-- **A callback frees its tree** and leaves the others alone. -/
theorem LfwBgForest.free {xs : List (Addr × PtrTrie Bool)} {i j : ℕ} {b : Addr} {u : PtrTrie Bool}
    (h : LfwBgForest s xs) (hj : xs[j]? = some (b, u)) (hi : s.rcu[i]? = some (some b)) :
    ∃ s', lfwFreeBgTree i s = .ok s' ∧ s'.tree = s.tree ∧ s'.rcu = s.rcu.eraseIdx i ∧
      LfwBgForest s' (xs.eraseIdx j) ∧ addrs u + s'.nodes.allocated = s.nodes.allocated := by
  obtain ⟨hhead, hs⟩ := h.stored (b, u) (List.mem_of_getElem? hj)
  have hnle := h.nodes_le
  have htle := h.trees_le
  have hnnd := nodup_of_le_allocated hnle
  have htnd := Multiset.nodup_of_le htle s.trees.nodup_allocated
  have hndu : (addrs u).Nodup :=
    Multiset.nodup_of_le (le_held (f := fun x : Addr × PtrTrie Bool => addrs x.2)
      (List.mem_of_getElem? hj)) hnnd
  obtain ⟨nodes, hrun, hacc, hkeep⟩ := freeTree_spec s.nodes.objs.keys.card hs hndu
    ((height_le_card u).trans (Multiset.card_le_card (hs.addrs_le hndu)))
  have hbm : b ∈ s.trees := Mem.mem_of_lookup hhead
  refine ⟨⟨nodes, s.trees.erase b, s.bufs, s.tree, s.rcu.eraseIdx i, s.log⟩, ?_, rfl, rfl,
    ⟨fun x hx => ⟨?_, ?_⟩, ?_, ?_⟩, hacc⟩
  · simp only [lfwFreeBgTree, hi, Mem.load_of_lookup hhead, ok_bind, hrun, Mem.free_of_mem hbm,
      pure_eq_ok]
  · -- the other trees have no header and no node of this one
    have hne : x.1 ≠ b := fun heq => disjoint_of_eraseIdx
      (f := fun x : Addr × PtrTrie Bool => {x.1}) hj htnd hx (Multiset.mem_singleton_self x.1)
      (Multiset.mem_singleton.2 heq)
    rw [Mem.lookup_erase_ne hne, (h.stored x (List.mem_of_mem_eraseIdx hx)).1]
  · exact (h.stored x (List.mem_of_mem_eraseIdx hx)).2.congr fun d hd => hkeep d
      (disjoint_of_eraseIdx (f := fun x : Addr × PtrTrie Bool => addrs x.2) hj hnnd hx hd)
  · rw [held_eraseIdx hj, ← hacc] at hnle
    exact Multiset.add_le_add_iff_left.1 hnle
  · rw [held_eraseIdx hj, Multiset.singleton_add] at htle
    rw [Mem.allocated_erase, ← Multiset.erase_cons_head b (held _ (xs.eraseIdx j))]
    exact Multiset.erase_le_erase b htle

/-- **A callback frees a replaced tree** and nothing else. -/
theorem lfwFreeBgTree_spec (i : ℕ) (h : LfwBgInv s a t olds) :
    ∃ s', lfwFreeBgTree i s = .ok s' ∧ LfwBgInv s' a t (olds.eraseIdx i) ∧
      held (fun x => addrs x.2) olds + s'.nodes.allocated =
        held (fun x => addrs x.2) (olds.eraseIdx i) + s.nodes.allocated := by
  cases hi : olds[i]? with
  | none =>
    have hrcu : s.rcu[i]? = none := by rw [h.rcu_eq, List.getElem?_map, hi, Option.map_none]
    refine ⟨s, by rw [lfwFreeBgTree, hrcu]; rfl, ?_⟩
    rw [List.eraseIdx_of_length_le (List.getElem?_eq_none_iff.1 hi)]
    exact ⟨h, rfl⟩
  | some x =>
    have hrcu : s.rcu[i]? = some (some x.1) := by
      rw [h.rcu_eq, List.getElem?_map, hi, Option.map_some]
    -- the published tree comes first in the forest
    have hj : ((a, t) :: olds)[i + 1]? = some (x.1, x.2) := by rw [List.getElem?_cons_succ, hi]
    obtain ⟨s', hrun, htree, hrcu', hforest, hacc⟩ := h.forest.free hj hrcu
    rw [List.eraseIdx_cons_succ] at hforest
    refine ⟨s', hrun, hforest.inv (htree.trans h.tree_eq) ?_, ?_⟩
    · rw [hrcu', h.rcu_eq, List.eraseIdx_map]
    · rw [held_eraseIdx hi, ← hacc, add_comm (addrs x.2), add_assoc]

/-! ## Allocations that fail -/

/-- A load that finds no memory for the tree header or the root gives up. -/
def lfwLoadAborts (A : Allocator) (s : LfwBgState) : Prop :=
  (s.trees.zalloc A ⟨none⟩).1 = none ∨ (lfwCreateNode A s.nodes).1 = none

instance (A : Allocator) (s : LfwBgState) : Decidable (lfwLoadAborts A s) :=
  inferInstanceAs (Decidable (_ ∨ _))

/-- A loop that ends at a node had memory for every node before it. -/
theorem lfwInsertPath_complete {ip : U32} {k j : ℕ} {runner : Ptr} {x : Addr}
    {ip_path ip_path' : List Char} {num num' : ℕ}
    (h : lfwInsertPath A ip k j runner ip_path num m = .ok (some x, ip_path', num', m')) :
    lfwInsertPath A.complete.toAllocator ip k j runner ip_path num m =
      .ok (some x, ip_path', num', m') := by
  induction k generalizing j runner ip_path num m with
  | zero => exact h
  | succ k ih =>
    rw [lfwInsertPath] at h ⊢
    obtain ⟨bit, hbit, h⟩ := bind_eq_ok.1 h
    obtain ⟨path, hpath, h⟩ := bind_eq_ok.1 h
    obtain ⟨n, hn, h⟩ := bind_eq_ok.1 h
    rw [hbit, ok_bind, hpath, ok_bind, hn, ok_bind]
    -- only a missing child asks for memory
    cases hc : n.child bit with
    | some c =>
      simp only [hc] at h ⊢
      exact ih h
    | none =>
      simp only [hc] at h ⊢
      obtain ⟨m₂, hmod, h⟩ := bind_eq_ok.1 h
      cases hz : lfwCreateNode A m with
      | mk c m₁ =>
        rw [hz] at hmod h
        cases c with
        | none =>
          -- the walk would go on from NULL
          cases k with
          | zero => cases h
          | succ k =>
            rw [lfwInsertPath] at h
            obtain ⟨_, _, h⟩ := bind_eq_ok.1 h
            obtain ⟨_, _, h⟩ := bind_eq_ok.1 h
            cases h
        | some c =>
          have hz' : lfwCreateNode A.complete.toAllocator m = (some c, m₁) :=
            Mem.zalloc_complete hz
          rw [hz']
          simp only at hmod h ⊢
          rw [hmod, ok_bind]
          exact ih h

theorem lfwInsertPrefix_complete {r : Ptr} {p : LfwIpPrefix} {line : LfwBgLog}
    (h : lfwInsertPrefix e A r p m = .ok (line, m')) :
    lfwInsertPrefix e A.complete.toAllocator r p m = .ok (line, m') := by
  unfold lfwInsertPrefix at h ⊢
  obtain ⟨⟨runner, ip_path, num, m₁⟩, hloop, h⟩ := bind_eq_ok.1 h
  cases runner with
  | none => cases h
  | some x =>
    simp only [lfwInsertPath_complete hloop, ok_bind]
    exact h

theorem lfwInsertPrefixes_complete {r : Ptr} {k i : ℕ} {log log' : List LfwBgLog}
    (h : lfwInsertPrefixes e A r prefixes k i log m = .ok (log', m')) :
    lfwInsertPrefixes e A.complete.toAllocator r prefixes k i log m = .ok (log', m') := by
  induction k generalizing i log m with
  | zero => exact h
  | succ k ih =>
    obtain ⟨hmax, hi, line, m₁, hone, hrest⟩ := lfwInsertPrefixes_cases h
    rw [lfwInsertPrefixes_succ e A.complete.toAllocator r hmax hi, lfwInsertPrefix_complete hone]
    exact ih hrest

/-- A loop that ends took no more bits than an address has. -/
theorem lfwInsertPath_le {ip : U32} {k j : ℕ} {runner : Ptr} {ip_path : List Char} {num : ℕ}
    {r : Ptr × List Char × ℕ × Mem LfwBgNode} (hj : j ≤ 32)
    (h : lfwInsertPath A ip k j runner ip_path num m = .ok r) : j + k ≤ 32 := by
  induction k generalizing j runner ip_path num m with
  | zero => exact hj
  | succ k ih =>
    rw [lfwInsertPath] at h
    obtain ⟨bit, hbit, h⟩ := bind_eq_ok.1 h
    obtain ⟨path, -, h⟩ := bind_eq_ok.1 h
    obtain ⟨n, -, h⟩ := bind_eq_ok.1 h
    have hlt : j + 1 ≤ 32 := by
      unfold in4GetBit IPV4_BITS at hbit
      split at hbit
      · omega
      · cases hbit
    cases hc : n.child bit with
    | some c =>
      simp only [hc] at h
      have := ih hlt h
      omega
    | none =>
      simp only [hc] at h
      obtain ⟨m₂, -, h⟩ := bind_eq_ok.1 h
      have := ih hlt h
      omega

/-- A build that ends had no prefix longer than an address. -/
theorem lfwInsertPrefixes_le {r : Ptr} {k i : ℕ} {log : List LfwBgLog}
    {x : List LfwBgLog × Mem LfwBgNode}
    (h : lfwInsertPrefixes e A r prefixes k i log m = .ok x) :
    ∀ p ∈ (prefixes.drop i).take k, p.ipPrefixLen.toNat ≤ 32 := by
  induction k generalizing i log m with
  | zero => simp
  | succ k ih =>
    obtain ⟨-, hi, line, m₁, hone, hrest⟩ := lfwInsertPrefixes_cases h
    rw [List.drop_eq_getElem_cons hi, List.take_succ_cons]
    intro q hq
    rcases List.mem_cons.1 hq with rfl | hq
    · unfold lfwInsertPrefix at hone
      obtain ⟨_, hloop, -⟩ := bind_eq_ok.1 hone
      have := lfwInsertPath_le (Nat.zero_le _) hloop
      omega
    · exact ih hrest q hq

/-- And it took no turn past the array, or past the counter. -/
theorem lfwInsertPrefixes_turns {r : Ptr} {k i : ℕ} {log : List LfwBgLog}
    {x : List LfwBgLog × Mem LfwBgNode}
    (h : lfwInsertPrefixes e A r prefixes k i log m = .ok x) :
    k = 0 ∨ (i + k ≤ prefixes.length ∧ i + k ≤ 2 ^ 31) := by
  induction k generalizing i log m with
  | zero => exact Or.inl rfl
  | succ k ih =>
    obtain ⟨hmax, hi, line, m₁, -, hrest⟩ := lfwInsertPrefixes_cases h
    rcases ih hrest with rfl | ⟨hread, hcount⟩
    · exact Or.inr ⟨hi, hmax⟩
    · exact Or.inr ⟨by omega, by omega⟩

/-- What a load that gives up leaves behind: the list as it was, and perhaps a
header that nothing points to. -/
structure LfwGaveUp (s s' : LfwBgState) : Prop where
  tree_eq : s'.tree = s.tree
  rcu_eq : s'.rcu = s.rcu
  log_eq : s'.log = s.log
  nodes_eq : s'.nodes.objs = s.nodes.objs
  trees_keep : ∀ c ∈ s.trees, s'.trees.lookup c = s.trees.lookup c
  trees_le : s.trees.allocated ≤ s'.trees.allocated

theorem LfwGaveUp.inv (hg : LfwGaveUp s s') (h : LfwBgInv s a t olds) : LfwBgInv s' a t olds := by
  have hmem : ∀ {u : PtrTrie Bool}, Stored s.nodes u → Stored s'.nodes u := fun hu =>
    hu.congr fun c _ => by rw [Mem.lookup, hg.nodes_eq, Mem.lookup]
  refine ⟨hg.tree_eq.trans h.tree_eq, ?_, hmem h.stored, hg.rcu_eq.trans h.rcu_eq, fun x hx => ?_,
    ?_, h.trees_le.trans hg.trees_le⟩
  · rw [hg.trees_keep _ (Mem.mem_of_lookup h.header), h.header]
  · obtain ⟨hhead, hs⟩ := h.old x hx
    exact ⟨(hg.trees_keep _ (Mem.mem_of_lookup hhead)).trans hhead, hmem hs⟩
  · rw [Mem.allocated, hg.nodes_eq, ← Mem.allocated]
    exact h.nodes_le

/-- **A load that returns**, told to read all of its array at least, has given up, or gone as
with a supply. -/
theorem lfwLoadBgTree_cases {len : ℕ} (hall : prefixes.length ≤ len)
    (hrun : lfwLoadBgTree e A prefixes len s = .ok s') :
    (lfwLoadAborts A s ∧ LfwGaveUp s s') ∨
      (¬ lfwLoadAborts A s ∧ len = prefixes.length ∧ prefixes.length ≤ 2 ^ 31 ∧
        (∀ p ∈ prefixes, p.ipPrefixLen.toNat ≤ 32) ∧ ∃ a t, LfwLoaded e prefixes s s' a t) := by
  unfold lfwLoadBgTree at hrun
  unfold lfwLoadAborts
  cases htree : s.trees.zalloc A ⟨none⟩ with
  | mk tree trees =>
    have hkeep : ∀ c ∈ s.trees, trees.lookup c = s.trees.lookup c := fun c hc => by
      have := Mem.lookup_zalloc (A := A) (v := ⟨none⟩) hc
      rwa [htree] at this
    have hle : s.trees.allocated ≤ trees.allocated := by
      have := Mem.allocated_le_zalloc A s.trees ⟨none⟩
      rwa [htree] at this
    rw [htree] at hrun
    cases tree with
    | none =>
      obtain rfl := Except.ok.inj hrun
      exact Or.inl ⟨Or.inl rfl, rfl, rfl, rfl, rfl, hkeep, hle⟩
    | some x =>
      simp only at hrun
      cases hnode : lfwCreateNode A s.nodes with
      | mk node nodes =>
        rw [hnode] at hrun
        cases node with
        | none =>
          obtain rfl := Except.ok.inj hrun
          exact Or.inl ⟨Or.inr rfl, rfl, rfl, rfl, Mem.objs_of_zalloc_none hnode, hkeep, hle⟩
        | some c =>
          have htree' := Mem.zalloc_complete htree
          have hnode' : lfwCreateNode A.complete.toAllocator s.nodes = (some c, nodes) :=
            Mem.zalloc_complete hnode
          simp only at hrun
          obtain ⟨trees', hstore, hrun⟩ := bind_eq_ok.1 hrun
          obtain ⟨⟨log, nodes'⟩, hloop, hend⟩ := bind_eq_ok.1 hrun
          have hturns := lfwInsertPrefixes_turns hloop
          have hmax : prefixes.length ≤ 2 ^ 31 := by omega
          obtain rfl : len = prefixes.length := by omega
          have hlen := lfwInsertPrefixes_le hloop
          rw [List.drop_zero, List.take_length] at hlen
          refine Or.inr ⟨by simp, rfl, hmax, hlen, ?_⟩
          obtain ⟨s₁, a, t, hrun₁, hl⟩ := lfwLoadBgTree_spec e A.complete s hlen hmax
          -- the loop ended, so none of its allocations failed
          have hsame : lfwLoadBgTree e A.complete.toAllocator prefixes prefixes.length s = .ok s' := by
            simp only [lfwLoadBgTree, htree', hnode', hstore, lfwInsertPrefixes_complete hloop,
              ok_bind]
            exact hend
          obtain rfl := Except.ok.inj (hrun₁.symm.trans hsame)
          exact ⟨a, t, hl⟩

/-- With a supply a load is never given up. -/
theorem not_lfwLoadAborts (A : Supply) (s : LfwBgState) : ¬ lfwLoadAborts A.toAllocator s := by
  obtain ⟨tree, trees, htree, -⟩ := Mem.zalloc_supply A s.trees ⟨none⟩
  obtain ⟨root, nodes, hnode, -⟩ := Mem.zalloc_supply A s.nodes (Cell.zero false)
  unfold lfwLoadAborts lfwCreateNode
  rw [htree, hnode]
  simp

/-! ## Membership -/

/-- A load of these prefixes, their addresses in network order, goes through, and from then on
the lookup is positive exactly for the addresses one of them contains; the empty prefix contains
every address and a full one its own alone. -/
def LfwMembership (e : Endian) (A : Supply) (s : LfwBgState) (l : List (U32 × U8)) : Prop :=
  ∃ s', lfwLoadBgTree e A.toAllocator (l.map fun x => ⟨htonl e x.1, x.2⟩) l.length s = .ok s' ∧
    (∀ ip, ∃ r, lfwLookupBgTree s' ip = .ok r ∧
      (0 < r ↔ ∃ x ∈ l, in4GetMasked ip x.2.toNat = in4GetMasked x.1 x.2.toNat)) ∧
    ∀ ip p : U32, in4GetMasked ip 0 = in4GetMasked p 0 ∧
      (in4GetMasked ip 32 = in4GetMasked p 32 ↔ ip = p)

/-- **The bogon list answers prefix membership.** For any list of prefixes no longer than an
address, on either host, exactly as long as the counter of the load can count them. -/
theorem lfwLookupBgTree_mem_iff (e : Endian) (A : Supply) (s : LfwBgState) (l : List (U32 × U8))
    (hlen : ∀ x ∈ l, x.2.toNat ≤ 32) : LfwMembership e A s l ↔ l.length ≤ 2 ^ 31 := by
  have hlen' : ∀ p ∈ l.map (fun x => (⟨htonl e x.1, x.2⟩ : LfwIpPrefix)),
      p.ipPrefixLen.toNat ≤ 32 := by
    intro p hp
    obtain ⟨x, hx, rfl⟩ := List.mem_map.1 hp
    exact hlen x hx
  constructor
  · rintro ⟨s', hrun, -⟩
    rcases lfwLoadBgTree_cases (List.length_map _).le hrun with ⟨habort, -⟩ | ⟨-, -, hmax, -⟩
    · exact absurd habort (not_lfwLoadAborts A s)
    · rwa [List.length_map] at hmax
  · intro hmax
    have hmax' : (l.map fun x => (⟨htonl e x.1, x.2⟩ : LfwIpPrefix)).length ≤ 2 ^ 31 := by
      rwa [List.length_map]
    obtain ⟨s', a, t, hrun, hl⟩ := lfwLoadBgTree_spec e A s hlen' hmax'
    rw [List.length_map] at hrun
    refine ⟨s', hrun, fun ip => ?_, fun ip p => ⟨rfl, ?_⟩⟩
    · obtain ⟨r, hr, hiff⟩ := lfwLookupBgTree_spec hl.tree_eq hl.header hl.stored ip
      obtain ⟨c, hvals⟩ := hl.vals_eq
      refine ⟨r, hr, ?_⟩
      rw [hiff, hvals, marks_lfwMarked hlen']
      simp only [List.mem_map, exists_exists_and_eq_and, LfwIpPrefix.Contains, LfwIpPrefix.host,
        getUnalignedBe32_htonl]
    · rw [in4GetMasked_32, in4GetMasked_32]

/-- Nested prefixes, the longest between the others: a host in all of them and
one in the shortest alone are found, on a little-endian host. -/
theorem lfwLookupBgTree_mem_iff_nested :
    ∃ s' r r', lfwLoadBgTree .little Supply.next.toAllocator
        [⟨0x0000000A#32, 8⟩, ⟨0x0302010A#32, 32⟩, ⟨0xFF00010A#32, 16⟩] 3
        ⟨Mem.empty, Mem.empty.set 0 ⟨none⟩, Mem.empty, some 0, [], []⟩ = .ok s' ∧
      lfwLookupBgTree s' 0x0A010203#32 = .ok r ∧ 0 < r ∧
      lfwLookupBgTree s' 0x0A090909#32 = .ok r' ∧ 0 < r' := by
  obtain ⟨s', hload, hlookup, -⟩ := (lfwLookupBgTree_mem_iff .little Supply.next
    ⟨Mem.empty, Mem.empty.set 0 ⟨none⟩, Mem.empty, some 0, [], []⟩
    [(0x0A000000#32, 8), (0x0A010203#32, 32), (0x0A0100FF#32, 16)] (by simp)).2 (by decide)
  obtain ⟨r, hr, hpos⟩ := hlookup 0x0A010203#32
  obtain ⟨r', hr', hpos'⟩ := hlookup 0x0A090909#32
  -- the host entry holds the first address, the shorter one over it the second
  have hhost : 0 < r := hpos.2 ⟨(0x0A010203#32, 32), by simp, rfl⟩
  have hnet : 0 < r' := hpos'.2 ⟨(0x0A000000#32, 8), by simp, by decide⟩
  exact ⟨s', r, r', hload, hr, hhost, hr', hnet⟩

/-- A list with one prefix more than the counter can count is not loaded. -/
theorem lfwLookupBgTree_mem_past :
    ¬ ∀ (e : Endian) (A : Supply) (s : LfwBgState) (l : List (U32 × U8)),
      (∀ x ∈ l, x.2.toNat ≤ 32) → LfwMembership e A s l := by
  intro hall
  have hshort : ∀ x ∈ List.replicate (2 ^ 31 + 1) ((0x0A000000#32, 8#8) : U32 × U8),
      x.2.toNat ≤ 32 := by
    intro x hx
    rw [List.eq_of_mem_replicate hx]
    decide
  have hmember := hall .little Supply.next
    ⟨Mem.empty, Mem.empty.set 0 ⟨none⟩, Mem.empty, some 0, [], []⟩ _ hshort
  rw [lfwLookupBgTree_mem_iff _ _ _ _ hshort, List.length_replicate] at hmember
  omega

end Librefw
