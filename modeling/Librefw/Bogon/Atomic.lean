import Librefw.Bogon.Set
import Librefw.Common.Budget

/-!
# Replacing the list where memory runs out

A request is atomic if it replaces the list, or fails and leaves everything
as it was (`LfwSetAtomic`). The buffer's allocation is checked and undone;
of the load's, the header's and the root's are checked but end it without
an error, and a node's is not checked at all. So a request is atomic
exactly where it does not get to the load, or the load lacks for nothing
(`lfwBogonSet_atomic_iff`): it asks for a header, a root, and one node for
each non-empty initial segment of its prefixes.
-/

namespace Librefw

open PtrTrie

variable {e : Endian} {A : Allocator} {info : GenlInfo} {s s' : LfwBgState} {a : Addr}
variable {t : PtrTrie Bool} {olds : List (Addr × PtrTrie Bool)} {prefixes : List LfwIpPrefix}
variable {m : Mem LfwBgNode}

/-- A well-formed request: its attributes have a length that is an `int`, with a container for
each prefix it announces, each with an address and a length of at most 32. -/
structure LfwWellFormed (e : Endian) (info : GenlInfo) : Prop where
  attrlen : info.attrlen < 2 ^ 31
  count : (lfwPrefixAttrs e info).length = lfwNumPrefix e info
  whole : ∀ pos ∈ lfwPrefixAttrs e info,
    ∃ p, lfwCarried e pos = some p ∧ p.ipPrefixLen.toNat ≤ 32

/-- The new list is installed: a tree that was not there, which blocks what is listed, the old
one handed to `call_rcu`, and no buffer left. -/
structure LfwReplaced (e : Endian) (info : GenlInfo) (s s' : LfwBgState) : Prop where
  fresh : ∃ a, s'.tree = some a ∧ a ∉ s.trees
  rcu_eq : s'.rcu = s.rcu ++ [s.tree]
  blocked : ∀ ip, LfwBlocked s' ip ↔ LfwListed e info ip
  bufs_eq : s'.bufs.objs = s.bufs.objs

/-- The old list is still installed, and what is allocated is what was. -/
structure LfwUndone (s s' : LfwBgState) : Prop where
  tree_eq : s'.tree = s.tree
  rcu_eq : s'.rcu = s.rcu
  nodes_eq : s'.nodes.objs = s.nodes.objs
  trees_eq : s'.trees.objs = s.trees.objs
  bufs_eq : s'.bufs.objs = s.bufs.objs

/-- The request returns, with the new list installed or with an error and nothing changed. -/
def LfwSetAtomic (e : Endian) (A : Allocator) (info : GenlInfo) (s : LfwBgState) : Prop :=
  ∃ ret s', lfwBogonSet e A info s = .ok (ret, s') ∧
    ((ret = 0 ∧ LfwReplaced e info s s') ∨ (ret < 0 ∧ LfwUndone s s'))

/-- The nodes of the trie of a list: one for each initial segment of a key, the root among
them. -/
def lfwNodeCount (e : Endian) (prefixes : List LfwIpPrefix) : ℕ :=
  (insert [] (prefixes.flatMap fun p => (p.key e).inits).toFinset).card

/-- The condition: the request announces nothing, or its buffer is denied, or the header and
all nodes of its list are granted. -/
def LfwSetMemory (e : Endian) (A : Allocator) (info : GenlInfo) (s : LfwBgState) : Prop :=
  lfwNumPrefix e info = 0 ∨ ¬ s.bufs.Grants A 1 ∨
    (s.trees.Grants A 1 ∧ s.nodes.Grants A (lfwNodeCount e (lfwInstalled e info)))

instance (e : Endian) (A : Allocator) (info : GenlInfo) (s : LfwBgState) :
    Decidable (LfwSetMemory e A info s) := inferInstanceAs (Decidable (_ ∨ _))

/-! ## What a well-formed request lists -/

/-- So many containers do not fit in it that their buffer would wrap. -/
theorem LfwWellFormed.numPrefix_lt (h : LfwWellFormed e info) :
    lfwNumPrefix e info < 2 ^ 29 := by
  rw [← h.count]
  exact lfwPrefixAttrs_lt h.attrlen

theorem LfwWellFormed.installed_eq (h : LfwWellFormed e info) :
    lfwInstalled e info = (lfwPrefixAttrs e info).map (lfwSlot e) := by
  rw [lfwInstalled, h.count, Nat.sub_self, List.replicate_zero, List.append_nil]

theorem LfwWellFormed.slot_eq (h : LfwWellFormed e info) {pos : NlAttr}
    (hpos : pos ∈ lfwPrefixAttrs e info) :
    lfwCarried e pos = some (lfwSlot e pos) ∧ (lfwSlot e pos).ipPrefixLen.toNat ≤ 32 := by
  obtain ⟨p, hp, hlen⟩ := h.whole pos hpos
  have hslot : p = lfwSlot e pos := by
    simp only [lfwCarried, Option.bind_eq_bind, Option.bind_eq_some_iff] at hp
    obtain ⟨addr, haddr, len, hl, hp⟩ := hp
    rw [lfwSlot_eq, haddr, hl]
    exact (Option.some.inj hp).symm
  exact ⟨hslot ▸ hp, hslot ▸ hlen⟩

theorem LfwWellFormed.len_le (h : LfwWellFormed e info) :
    ∀ p ∈ lfwInstalled e info, p.ipPrefixLen.toNat ≤ 32 := by
  intro p hp
  rw [h.installed_eq] at hp
  obtain ⟨pos, hpos, rfl⟩ := List.mem_map.1 hp
  exact (h.slot_eq hpos).2

theorem LfwWellFormed.length_le (h : LfwWellFormed e info) :
    (lfwInstalled e info).length ≤ 2 ^ 31 := by
  have hlt := h.numPrefix_lt
  rw [h.installed_eq, List.length_map, h.count]
  omega

theorem LfwWellFormed.listed_iff (h : LfwWellFormed e info) (ip : U32) :
    (∃ p ∈ lfwInstalled e info, p.Contains e ip) ↔ LfwListed e info ip := by
  rw [h.installed_eq]
  constructor
  · rintro ⟨p, hp, hcontains⟩
    obtain ⟨pos, hpos, rfl⟩ := List.mem_map.1 hp
    exact ⟨pos, hpos, _, (h.slot_eq hpos).1, hcontains⟩
  · rintro ⟨pos, hpos, p, hp, hcontains⟩
    obtain rfl := Option.some.inj (hp.symm.trans (h.slot_eq hpos).1)
    exact ⟨_, List.mem_map_of_mem hpos, hcontains⟩

/-! ## The load -/

/-- The loop over the prefixes faults where the run of insertions does. -/
theorem lfwInsertPrefixes_error {root : Ptr} {err : Fault}
    (hlen : ∀ p ∈ prefixes, p.ipPrefixLen.toNat ≤ 32) (hmax : prefixes.length ≤ 2 ^ 31) {k i : ℕ}
    (hk : i + k = prefixes.length) (log : List LfwBgLog)
    (h : putAll A false root ((prefixes.drop i).map (LfwIpPrefix.put e)) m = .error err) :
    lfwInsertPrefixes e A root prefixes k i log m = .error err := by
  induction k generalizing i log m with
  | zero =>
    rw [List.drop_of_length_le (by omega)] at h
    cases h
  | succ k ih =>
    have hi : i < prefixes.length := by omega
    obtain ⟨ip_path, hone⟩ := lfwInsertPrefix_eq e A root (hlen _ (List.getElem_mem hi)) m
    rw [List.drop_eq_getElem_cons hi, List.map_cons, putAll] at h
    rw [lfwInsertPrefixes_succ e A root (by omega) hi, hone]
    cases hput : PtrTrie.put A false (prefixes[i].put e).2 (prefixes[i].put e).1 root m with
    | error err' =>
      rw [hput, error_bind] at h
      rw [Except.error.inj h]
      rfl
    | ok x =>
      rw [hput, ok_bind] at h
      exact ih (by omega) _ h

/-- **The loop asks for the nodes of its list**, the root aside. -/
theorem lfwInsertPrefixes_serve (hlen : ∀ p ∈ prefixes, p.ipPrefixLen.toNat ≤ 32)
    (hmax : prefixes.length ≤ 2 ^ 31) {c : Addr} (hs : Stored m (lfwBlank c)) (log : List LfwBgLog) :
    ∃ n, lfwNodeCount e prefixes = n + 1 ∧
      if m.Grants A n then
        ∃ x, lfwInsertPrefixes e A (some c) prefixes prefixes.length 0 log m = .ok x
      else lfwInsertPrefixes e A (some c) prefixes prefixes.length 0 log m = .error .nullDeref := by
  have hnd : (addrs (lfwBlank c)).Nodup := by simp [lfwBlank, addrs]
  obtain ⟨m', t', hrun, -⟩ := putAll_spec A.complete false
    (prefixes.map (LfwIpPrefix.put e)) hs (by simp [lfwBlank]) hnd
  obtain ⟨n, hn, hserve⟩ := putAll_serve A.le_complete hrun
  refine ⟨n, ?_, ?_⟩
  · have hcount := putAll_count hs hrun hn
    rwa [List.flatMap_map] at hcount
  · split
    · next hgrants =>
      obtain ⟨log', hloop⟩ := lfwInsertPrefixes_of_putAll (e := e) hlen hmax (Nat.zero_add _) log
        (hserve.grants_iff.1 hgrants)
      exact ⟨_, hloop⟩
    · next hgrants =>
      exact lfwInsertPrefixes_error hlen hmax (Nat.zero_add _) log (hserve.of_not hgrants)

/-- A load without a header or a root returns, with the old tree still published. -/
theorem lfwLoadBgTree_aborted {len : ℕ} (s : LfwBgState) (habort : lfwLoadAborts A s) :
    ∃ s', lfwLoadBgTree e A prefixes len s = .ok s' ∧ s'.tree = s.tree ∧ s'.bufs = s.bufs := by
  unfold lfwLoadAborts at habort
  unfold lfwLoadBgTree
  rcases Mem.zalloc_cases A s.trees ⟨none⟩ with ⟨tree, trees, htree, -⟩ | htree
  · rcases Mem.zalloc_cases A s.nodes (Cell.zero false) with ⟨c, nodes, hnode, -⟩ | hnode
    · simp [htree, lfwCreateNode, hnode] at habort
    · simp only [htree, lfwCreateNode, hnode, pure_eq_ok]
      exact ⟨_, rfl, rfl, rfl⟩
  · simp only [htree, pure_eq_ok]
    exact ⟨_, rfl, rfl, rfl⟩

/-- So it is not granted what it asks for. -/
theorem not_grants_of_aborts (prefixes : List LfwIpPrefix) (habort : lfwLoadAborts A s) :
    ¬ (s.trees.Grants A 1 ∧ s.nodes.Grants A (lfwNodeCount e prefixes)) := by
  rintro ⟨htrees, hnodes⟩
  have hcount : lfwNodeCount e prefixes = 1 + (lfwNodeCount e prefixes - 1) := by
    have := Finset.card_pos.2 (Finset.insert_nonempty []
      (prefixes.flatMap fun p => (p.key e).inits).toFinset)
    unfold lfwNodeCount
    omega
  have hone : s.nodes.Grants A 1 := by
    unfold Mem.Grants at hnodes ⊢
    rw [hcount, Allocator.serve_add] at hnodes
    exact Option.isSome_of_isSome_bind hnodes
  obtain ⟨b, trees, htree⟩ := (Mem.grants_one (v := ⟨none⟩)).1 htrees
  obtain ⟨c, nodes, hnode⟩ := (Mem.grants_one (v := Cell.zero false)).1 hone
  simp [lfwLoadAborts, htree, lfwCreateNode, hnode] at habort

/-- **The load asks for a header and the nodes of its list.** It goes through if they are
granted, and otherwise dereferences NULL, or returns with the old tree. -/
theorem lfwLoadBgTree_serve (A : Allocator) (hlen : ∀ p ∈ prefixes, p.ipPrefixLen.toNat ≤ 32)
    (hmax : prefixes.length ≤ 2 ^ 31) (s : LfwBgState) :
    if s.trees.Grants A 1 ∧ s.nodes.Grants A (lfwNodeCount e prefixes) then
      ∃ s' a t, lfwLoadBgTree e A prefixes prefixes.length s = .ok s' ∧
        LfwLoaded e prefixes s s' a t
    else
      lfwLoadBgTree e A prefixes prefixes.length s = .error .nullDeref ∨
        lfwLoadAborts A s ∧ ∃ s', lfwLoadBgTree e A prefixes prefixes.length s = .ok s' ∧
          s'.tree = s.tree ∧ s'.bufs = s.bufs := by
  by_cases habort : lfwLoadAborts A s
  · rw [if_neg (not_grants_of_aborts prefixes habort)]
    exact Or.inr ⟨habort, lfwLoadBgTree_aborted s habort⟩
  · rcases Mem.zalloc_cases A s.trees ⟨none⟩ with ⟨tree, trees, htree, hextt⟩ | htree
    swap
    · exact absurd (Or.inl (by rw [htree])) habort
    rcases Mem.zalloc_cases A s.nodes (Cell.zero false) with ⟨c, nodes, hnode, hextc⟩ | hnode
    swap
    · exact absurd (Or.inr (by rw [lfwCreateNode, hnode])) habort
    obtain ⟨n, hn, hloop⟩ := lfwInsertPrefixes_serve (A := A) (e := e) hlen hmax
      (⟨hextc.lookup_self, fun _ => trivial⟩ : Stored nodes (lfwBlank c)) s.log
    have htrees : s.trees.Grants A 1 := Mem.grants_one.2 ⟨tree, trees, htree⟩
    have hiff : s.nodes.Grants A (lfwNodeCount e prefixes) ↔ nodes.Grants A n := by
      rw [hn, Mem.Grants, Mem.serve_of_some hnode, Mem.Grants]
    have hrun : lfwLoadBgTree e A prefixes prefixes.length s =
        lfwInsertPrefixes e A (some c) prefixes prefixes.length 0 s.log nodes >>= fun x =>
          pure { s with
            nodes := x.2, trees := trees.set tree ⟨some c⟩, tree := some tree,
            rcu := s.rcu ++ [s.tree], log := x.1 } := by
      simp only [lfwLoadBgTree, htree, lfwCreateNode, hnode, Mem.store_of_mem hextt.mem_self,
        ok_bind]
    simp only [htrees, hiff, true_and]
    split
    · next hgrants =>
      rw [if_pos hgrants] at hloop
      obtain ⟨x, hx⟩ := hloop
      rw [hx, ok_bind] at hrun
      rcases lfwLoadBgTree_cases (le_refl _) hrun with ⟨hgave, -⟩ | ⟨-, -, -, -, b, u, hl⟩
      · exact absurd hgave habort
      · exact ⟨_, b, u, hrun, hl⟩
    · next hgrants =>
      rw [if_neg hgrants] at hloop
      rw [hrun, hloop]
      exact Or.inl rfl

/-! ## The command -/

/-- With its buffer granted, a request fills it, loads it and frees it. -/
theorem lfwBogonSet_load (A : Allocator) (hwf : LfwWellFormed e info)
    (hnum : lfwNumPrefix e info ≠ 0) {buf : Addr} {bufs : Mem (List LfwIpPrefix)}
    (halloc : lfwVzalloc A s.bufs (lfwNumPrefix e info) = (some buf, bufs)) (hmem : buf ∈ bufs) :
    lfwBogonSet e A info s =
      lfwLoadBgTree e A (lfwInstalled e info) (lfwInstalled e info).length
          { s with bufs := bufs.set buf (lfwInstalled e info) } >>= fun s =>
        s.bufs.free buf >>= fun bufs => pure (0, { s with bufs := bufs }) := by
  have hparse := lfwParsePrefixes_spec e (lfwPrefixAttrs e info) (le_of_eq hwf.count) []
  rw [List.nil_append, List.nil_append, List.length_nil] at hparse
  have hsize : (lfwInstalled e info).length = lfwNumPrefix e info := by
    rw [hwf.installed_eq, List.length_map, hwf.count]
  have hentries := lfwBufEntries_of_lt A hwf.numPrefix_lt
  rw [hsize]
  unfold lfwBogonSet
  simp only [hnum, if_false, hentries, halloc, hparse, ok_bind, Mem.store_of_mem hmem]
  rfl

/-- A buffer that is freed again leaves no trace. -/
theorem Mem.Extends.erase_set {ν : Type} {m m' : Mem ν} {v w : ν} (h : m.Extends a v m') :
    ((m'.set a w).erase a).objs = m.objs := by
  refine Finmap.ext_lookup fun b => ?_
  by_cases hb : b = a
  · rw [hb]
    exact (Finmap.lookup_erase a _).trans (Mem.lookup_eq_none.2 h.fresh).symm
  · exact (Mem.lookup_erase_ne hb).trans ((Mem.lookup_set_ne hb).trans (h.lookup_ne b hb))

/-- A load that goes through replaces the list. -/
theorem LfwLoaded.replaced {bufs bufs' : Mem (List LfwIpPrefix)} {s₁ : LfwBgState} {a' : Addr}
    {t' : PtrTrie Bool} (h : LfwBgInv s a t olds) (hwf : LfwWellFormed e info)
    (hl : LfwLoaded e (lfwInstalled e info) { s with bufs := bufs } s₁ a' t')
    (hbufs : bufs'.objs = s.bufs.objs) : LfwReplaced e info s { s₁ with bufs := bufs' } where
  fresh := by
    refine ⟨a', hl.tree_eq, fun hin => ?_⟩
    have hnd := s₁.trees.nodup_allocated
    rw [hl.trees_eq, Multiset.nodup_cons] at hnd
    exact hnd.1 (Mem.mem_allocated.2 hin)
  rcu_eq := hl.rcu_eq
  blocked ip := by
    obtain ⟨c, hvals⟩ := hl.vals_eq
    rw [((hl.inv (h.bufs bufs)).bufs bufs').blocked_iff, hvals, marks_lfwMarked hwf.len_le,
      hwf.listed_iff]
  bufs_eq := hbufs

/-- A request that returns zero with the old tree in place is not atomic. -/
theorem not_lfwSetAtomic_of_ok (h : LfwBgInv s a t olds)
    (hrun : lfwBogonSet e A info s = .ok (0, s')) (htree : s'.tree = s.tree) :
    ¬ LfwSetAtomic e A info s := by
  rintro ⟨ret, s₁, hrun₁, hcase⟩
  obtain ⟨rfl, rfl⟩ := Prod.mk.inj (Except.ok.inj (hrun.symm.trans hrun₁))
  rcases hcase with ⟨-, hrep⟩ | ⟨hneg, -⟩
  · obtain ⟨c, hc, hnot⟩ := hrep.fresh
    rw [htree, h.tree_eq] at hc
    obtain rfl := Option.some.inj hc
    exact hnot (Mem.mem_of_lookup h.header)
  · omega

theorem not_lfwSetAtomic_of_error {err : Fault} (hrun : lfwBogonSet e A info s = .error err) :
    ¬ LfwSetAtomic e A info s := by
  rintro ⟨ret, s₁, hrun₁, -⟩
  rw [hrun] at hrun₁
  cases hrun₁

/-- **Where a request is atomic.** From any installed list and for every well-formed request,
whatever the allocator denies. -/
theorem lfwBogonSet_atomic_iff (A : Allocator) (h : LfwBgInv s a t olds)
    (hwf : LfwWellFormed e info) : LfwSetAtomic e A info s ↔ LfwSetMemory e A info s := by
  unfold LfwSetMemory
  by_cases hnum : lfwNumPrefix e info = 0
  · have hrun : lfwBogonSet e A info s = .ok (-EINVAL, s) := by
      unfold lfwBogonSet
      simp only [hnum, if_true, pure_eq_ok]
    exact iff_of_true ⟨_, s, hrun, Or.inr ⟨by decide, rfl, rfl, rfl, rfl, rfl⟩⟩ (Or.inl hnum)
  have hentries := lfwBufEntries_of_lt A hwf.numPrefix_lt
  have hvzalloc := lfwVzalloc_of_ne A s.bufs hnum
  rcases Mem.zalloc_cases A s.bufs (List.replicate (lfwNumPrefix e info) LfwIpPrefix.zero) with
    ⟨buf, bufs, halloc, hext⟩ | halloc
  swap
  · -- a buffer that is denied is reported
    have hrun : lfwBogonSet e A info s =
        .ok (-ENOMEM, { s with bufs := { s.bufs with tick := s.bufs.tick + 1 } }) := by
      unfold lfwBogonSet
      simp only [hnum, if_false, hentries, hvzalloc, halloc, pure_eq_ok]
    refine iff_of_true ⟨_, _, hrun, Or.inr ⟨by decide, rfl, rfl, rfl, rfl, rfl⟩⟩
      (Or.inr (Or.inl fun hgrants => ?_))
    obtain ⟨b, m', hsome⟩ := Mem.grants_one.1 hgrants
    rw [halloc] at hsome
    cases hsome
  have hbuf : s.bufs.Grants A 1 := Mem.grants_one.2 ⟨buf, bufs, halloc⟩
  have hrun := lfwBogonSet_load A hwf hnum (hvzalloc.trans halloc) hext.mem_self
  have hload := lfwLoadBgTree_serve (e := e) A hwf.len_le hwf.length_le
    { s with bufs := bufs.set buf (lfwInstalled e info) }
  simp only [hnum, hbuf, not_true, false_or]
  by_cases hgrants : s.trees.Grants A 1 ∧ s.nodes.Grants A (lfwNodeCount e (lfwInstalled e info))
  · rw [if_pos hgrants] at hload
    obtain ⟨s₁, a', t', hload, hl⟩ := hload
    have hfree : buf ∈ s₁.bufs := by
      rw [hl.bufs_eq]
      exact Mem.mem_set.2 (Or.inl rfl)
    rw [hload, ok_bind, Mem.free_of_mem hfree, ok_bind] at hrun
    refine iff_of_true ⟨0, _, hrun, Or.inl ⟨rfl, hl.replaced h hwf ?_⟩⟩ hgrants
    rw [hl.bufs_eq]
    exact hext.erase_set
  · rw [if_neg hgrants] at hload
    refine iff_of_false ?_ hgrants
    rcases hload with hload | ⟨-, s₁, hload, htree, hbufs⟩
    · rw [hload] at hrun
      exact not_lfwSetAtomic_of_error hrun
    · -- the load reports nothing, so the command does not either
      have hfree : buf ∈ s₁.bufs := by
        rw [hbufs]
        exact Mem.mem_set.2 (Or.inl rfl)
      rw [hload, ok_bind, Mem.free_of_mem hfree, ok_bind] at hrun
      exact not_lfwSetAtomic_of_ok h hrun htree

theorem lfwSampleRequest_wellFormed : LfwWellFormed .little (lfwSampleRequest 1) := by
  have hcarried : ∀ pos ∈ lfwPrefixAttrs .little (lfwSampleRequest 1),
      ((lfwCarried .little pos).any fun p => p.ipPrefixLen.toNat ≤ 32) = true := by decide +kernel
  refine ⟨by decide +kernel, by decide +kernel, fun pos hpos => ?_⟩
  have hpos := hcarried pos hpos
  rw [Option.any_eq_true] at hpos
  obtain ⟨p, hp, hlen⟩ := hpos
  exact ⟨p, hp, of_decide_eq_true hlen⟩

/-- With everything granted the first request is atomic. -/
theorem lfwBogonSet_atomic_iff_sample :
    LfwSetAtomic .little Supply.next.toAllocator (lfwSampleRequest 1) lfwFirstState := by
  obtain ⟨a, t, olds, h⟩ := lfwInitBgState_inv lfwInitBgState_first
  exact (lfwBogonSet_atomic_iff _ h lfwSampleRequest_wellFormed).2 (by decide +kernel)

/-- With the sixth node of `10.0.0.0/8` denied, the request dereferences NULL. -/
theorem lfwBogonSet_atomic_denied :
    ¬ ∀ (e : Endian) (A : Allocator) (info : GenlInfo) (s : LfwBgState) (a : Addr)
      (t : PtrTrie Bool) (olds : List (Addr × PtrTrie Bool)), LfwBgInv s a t olds →
      LfwWellFormed e info → LfwSetAtomic e A info s := by
  intro h
  obtain ⟨a, t, olds, hinv⟩ := lfwInitBgState_inv lfwInitBgState_first
  have hrun : lfwBogonSet .little (Supply.next.denying 5) (lfwSampleRequest 1) lfwFirstState =
      .error .nullDeref := by rfl
  exact not_lfwSetAtomic_of_error hrun
    (h .little (Supply.next.denying 5) (lfwSampleRequest 1) lfwFirstState a t olds hinv
      lfwSampleRequest_wellFormed)

end Librefw
