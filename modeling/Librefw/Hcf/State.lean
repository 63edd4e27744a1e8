import Librefw.Hcf.Model.State
import Librefw.Hcf.Tree

/-!
# The component between its functions

`HcfInv` is what holds of the state whenever no function is running: the
published tree is stored without sharing, and every other allocated node
waits for its callback. Each function keeps it and has one law, in terms
of the trie the tree means: a register work puts one leaf
(`hcfRegisterIpWork_spec`), a history message builds its tree from nothing
(`hcfRegisterIpHistory_spec`), a callback changes nothing
(`hcfFreeNodeRcu_spec`).
-/

namespace Librefw

open PtrTrie

variable {s : HcfState} {t u : PtrTrie HcfMeta} {m m' : Mem HcfNode}

/-- The invariant of the component, with the tree it publishes. -/
structure HcfInv (s : HcfState) (t : PtrTrie HcfMeta) : Prop where
  root_eq : root t = s.tree
  ne_nil : t ≠ .nil
  stored : Stored s.mem t
  account : s.mem.allocated = addrs t + s.rcu

theorem HcfInv.nodup (h : HcfInv s t) : (addrs t).Nodup :=
  nodup_of_le_allocated (h.account ▸ Multiset.le_add_right _ _)

/-- The cell a found key leads to. -/
theorem Stored.lookup_of_find {p : List Bool} {v : HcfMeta} (hs : Stored m t)
    (h : (vals t).find p = some v) :
    ∃ a n, root (t.descend p) = some a ∧ m.lookup a = some n ∧ n.data = v := by
  cases hr : root (t.descend p) with
  | none => rw [find_eq_none_of_descend hr] at h; cases h
  | some a =>
    obtain ⟨n, hn, hv⟩ := hs.data_of_descend hr
    exact ⟨a, n, rfl, hn, Option.some.inj (hv.symm.trans h)⟩

/-! ## Initialisation -/

theorem hcfCreateNode_supply (A : Supply) (m : Mem HcfNode) :
    ∃ a m', hcfCreateNode A.toAllocator m = (some a, m') ∧
      m.Extends a (Cell.zero HcfMeta.zero) m' :=
  Mem.zalloc_supply A m (Cell.zero HcfMeta.zero)

/-- The trie of a single fresh node. -/
def hcfBlank (a : Addr) : PtrTrie HcfMeta := .node (a, HcfMeta.zero) fun _ => .nil

theorem addrs_hcfBlank (a : Addr) : addrs (hcfBlank a) = {a} := rfl

theorem stored_hcfBlank {a : Addr} (h : m.lookup a = some (Cell.zero HcfMeta.zero)) :
    Stored m (hcfBlank a) := ⟨h, fun _ => trivial⟩

/-- No key of 24 bits is found in a fresh tree. -/
theorem find_hcfBlank (a : Addr) (ip : U32) : (vals (hcfBlank a)).find (ipPath ip 24) = none := by
  have hlen : (ipPath ip 24).length = 24 := length_ipPath ip 24
  generalize ipPath ip 24 = p at hlen ⊢
  cases p with
  | nil => simp at hlen
  | cons b p => exact BitTrie.find_nil p

/-- **The component starts with an empty tree.** -/
theorem hcfInitState_spec (A : Supply) :
    ∃ a s, hcfInitState A.toAllocator = .ok s ∧ HcfInv s (hcfBlank a) := by
  obtain ⟨a, m, hcreate, hext⟩ := hcfCreateNode_supply A Mem.empty
  refine ⟨a, ⟨m, some a, []⟩, ?_, rfl, by simp [hcfBlank], stored_hcfBlank hext.lookup_self, ?_⟩
  · simp only [hcfInitState, hcreate, pure_eq_ok]
  · simp [hext.allocated, addrs_hcfBlank]

/-- The component after its initialisation. -/
def hcfFirstState : HcfState :=
  ⟨{ (Mem.empty.set 0 (Cell.zero .zero)) with tick := 1 }, some 0, []⟩

theorem hcfInitState_first : hcfInitState Supply.next.toAllocator = .ok hcfFirstState := rfl

theorem hcfFirstState_inv : ∃ a, HcfInv hcfFirstState (hcfBlank a) := by
  obtain ⟨a, s, hinit, h⟩ := hcfInitState_spec Supply.next
  obtain rfl := Except.ok.inj (hcfInitState_first.symm.trans hinit)
  exact ⟨a, h⟩

/-! ## A register work -/

/-- What a work announces on a tree that means `u`: its own entry, if it had to
create nodes for it. -/
def hcfAnnounced (u : BitTrie HcfMeta) (task : HcfAddNodeTask) : Option HcfIpCtx :=
  if (u.find (ipPath task.source_ip 24)).isSome then none
  else some ⟨task.source_ip, task.ttl, (hcfMetaOf task.ttl).hc⟩

/-- The leaf a work reads after its critical section is the one it wrote, while
the cell is as it left it. -/
theorem hcfLogNewIp_of_registered {task : HcfAddNodeTask} {pub : HcfPublished}
    (hreg : HcfRegistered task m t pub.new_root pub.new_runner pub.nodes_created
      pub.nodes_to_free m' u) :
    hcfLogNewIp m' task pub = .ok (hcfAnnounced (vals t) task) := by
  unfold hcfLogNewIp hcfAnnounced
  by_cases hzero : pub.nodes_created = 0
  · rw [if_neg (by omega), if_pos (hreg.created_eq_zero.1 hzero)]
    rfl
  · have hfind : (vals u).find (ipPath task.source_ip 24) = some (hcfMetaOf task.ttl) := by
      rw [hreg.vals_eq, BitTrie.find_put_self]
    obtain ⟨a, n, hroot, hn, hdata⟩ := Stored.lookup_of_find hreg.stored hfind
    rw [if_pos (by omega), if_neg (mt hreg.created_eq_zero.2 hzero), hreg.last_eq, hroot,
      Mem.load_of_lookup hn, ok_bind, ok_bind, hdata]
    rfl

/-- **The law of a register work.** -/
theorem hcfRegisterIpWork_spec (A : Supply) (task : HcfAddNodeTask) (h : HcfInv s t) :
    ∃ s' t', hcfRegisterIpWork A.toAllocator task s = .ok (hcfAnnounced (vals t) task, s') ∧
      HcfInv s' t' ∧
      vals t' = BitTrie.put HcfMeta.zero (fun _ => hcfMetaOf task.ttl)
        (ipPath task.source_ip 24) (vals t) := by
  obtain ⟨pub, m', t', hrun, hreg⟩ := hcfRegisterIpLocked_spec A task h.stored h.ne_nil h.nodup
  refine ⟨⟨m', pub.new_root, s.rcu ++ pub.nodes_to_free⟩, t', ?_, ?_, hreg.vals_eq⟩
  · rw [hcfRegisterIpWork, ← h.root_eq, hrun, ok_bind]
    simp only [hcfLogNewIp_of_registered hreg, ok_bind, pure_eq_ok]
  · refine ⟨hreg.root_eq, hreg.ne_nil, hreg.stored, ?_⟩
    have hacc := hreg.account
    rw [h.account] at hacc
    ext d
    have hd := congrArg (Multiset.count d) hacc
    simp only [Multiset.count_add, ← Multiset.coe_add] at hd ⊢
    omega

/-! ## A history message -/

/-- What the trie of a history means, built on a tree that means `u`. -/
def hcfBuilt (u : BitTrie HcfMeta) (entries : List HcfHistoryEntry) : BitTrie HcfMeta :=
  putVals HcfMeta.zero (entries.map HcfHistoryEntry.put) u

/-- **A list of entries is installed.** The tree is what they build on a fresh root; the old one
is gone. -/
theorem hcfInstall_spec (A : Supply) (entries : List HcfHistoryEntry) (h : HcfInv s t) :
    ∃ a m₁ m₂ m₃ t', hcfCreateNode A.toAllocator s.mem = (some a, m₁) ∧
      entries.foldlM (fun m x => hcfInsertEntry A.toAllocator (some a) x m) m₁ = .ok m₂ ∧
      hcfFreeNode s.tree m₂ = .ok m₃ ∧ HcfInv ⟨m₃, some a, s.rcu⟩ t' ∧
      vals t' = hcfBuilt (vals (hcfBlank a)) entries := by
  obtain ⟨a, m₁, hcreate, hext⟩ := hcfCreateNode_supply A s.mem
  have hblank : hcfBlank a ≠ .nil := by simp [hcfBlank]
  obtain ⟨m₂, t', hrun, hg, hvals⟩ := putAll_spec A HcfMeta.zero
    (entries.map HcfHistoryEntry.put) (stored_hcfBlank hext.lookup_self)
    hblank (by simp [addrs_hcfBlank])
  -- the old tree is where it was while the new one grows
  have hold : ∀ c ∈ s.mem, m₂.lookup c = s.mem.lookup c := fun c hc => by
    rw [hg.lookup_eq c (hext.mem_of_mem hc) ?_, hext.lookup_of_mem hc]
    rw [addrs_hcfBlank, Multiset.mem_singleton]
    exact hext.ne_of_mem hc
  have hs₂ : Stored m₂ t := h.stored.congr fun c hc => hold c (h.stored.mem_of_addrs hc)
  obtain ⟨m₃, hfree, hall, hkeep₃⟩ := hcfFreeNode_spec hs₂ h.nodup
  have hsum : m₂.allocated = addrs t' + (addrs t + s.rcu) := by
    have hacc := hg.account
    rw [hext.allocated, addrs_hcfBlank, h.account] at hacc
    ext d
    have hd := congrArg (Multiset.count d) hacc
    simp only [Multiset.count_add, Multiset.count_cons, Multiset.count_singleton] at hd ⊢
    omega
  -- the two trees share no node, so freeing the old one leaves the new one
  have hdis : ∀ c ∈ addrs t', c ∉ addrs t := by
    have hnd := m₂.nodup_allocated
    rw [hsum, Multiset.nodup_add] at hnd
    exact fun c hc hct =>
      Multiset.disjoint_left.1 hnd.2.2 hc (Multiset.mem_add.2 (Or.inl hct))
  refine ⟨a, m₁, m₂, m₃, t', hcreate, ?_, ?_, ⟨hg.root_eq, hg.ne_nil hblank, ?_, ?_⟩, hvals⟩
  · rw [hcfInsertEntries_eq]
    exact hrun
  · rw [← h.root_eq]
    exact hfree
  · exact hg.stored.congr fun c hc => hkeep₃ c (hdis c hc)
  · rw [hsum] at hall
    ext d
    have hd := congrArg (Multiset.count d) hall
    simp only [Multiset.count_add] at hd ⊢
    omega

/-- **The law of a history message.** -/
theorem hcfRegisterIpHistory_spec (e : Endian) (A : Supply) (info : GenlInfo) (h : HcfInv s t) :
    ∃ s' t' a, hcfRegisterIpHistory e A.toAllocator info s = .ok (0, s') ∧ HcfInv s' t' ∧
      vals t' = hcfBuilt (vals (hcfBlank a)) (hcfHistoryEntries e info) := by
  obtain ⟨a, m₁, m₂, m₃, t', hcreate, hrun, hfree, hinv, hvals⟩ :=
    hcfInstall_spec A (hcfHistoryEntries e info) h
  refine ⟨⟨m₃, some a, s.rcu⟩, t', a, ?_, hinv, hvals⟩
  simp only [hcfRegisterIpHistory, hcreate, hrun, ok_bind, hcfSwapTree, hfree, pure_eq_ok]

/-! ## A callback -/

/-- **A callback frees a node the tree does not have.** -/
theorem hcfFreeNodeRcu_spec (i : ℕ) (h : HcfInv s t) :
    ∃ s', hcfFreeNodeRcu i s = .ok s' ∧ HcfInv s' t := by
  unfold hcfFreeNodeRcu
  cases hi : s.rcu[i]? with
  | none => exact ⟨s, rfl, h⟩
  | some node =>
    obtain ⟨hlt, hnode⟩ := List.getElem?_eq_some_iff.1 hi
    have hperm : (s.rcu : Multiset Addr) = node ::ₘ (s.rcu.eraseIdx i : Multiset Addr) := by
      rw [Multiset.cons_coe, Multiset.coe_eq_coe, ← hnode]
      exact (List.getElem_cons_eraseIdx_perm hlt).symm
    have hacc := h.account
    rw [hperm] at hacc
    have hmem : node ∈ s.mem := by
      rw [← Mem.mem_allocated, hacc]
      simp
    -- the account has the node once, and there it is a callback's
    have hnot : node ∉ addrs t := by
      intro hin
      have hnd := s.mem.nodup_allocated
      rw [hacc, Multiset.nodup_add] at hnd
      exact Multiset.disjoint_left.1 hnd.2.2 hin (Multiset.mem_cons_self _ _)
    refine ⟨⟨s.mem.erase node, s.tree, s.rcu.eraseIdx i⟩, ?_, h.root_eq, h.ne_nil, ?_, ?_⟩
    · simp only [Mem.free_of_mem hmem, ok_bind, pure_eq_ok]
    · exact h.stored.congr fun c hc => Mem.lookup_erase_ne fun heq => hnot (heq ▸ hc)
    · rw [Mem.allocated_erase, hacc, Multiset.add_cons, Multiset.erase_cons_head]

end Librefw
