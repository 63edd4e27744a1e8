import Librefw.Bogon.State

/-!
# The trees of the bogon list

Any number of trees side by side, named by their headers: the headers are
exactly those allocated, and the nodes of their trees are exactly those
allocated, each once (`LfwBgStore`). A fresh tree, an insertion and a free
each keep that and leave the other trees as they were (`LfwBgKeeps`).
-/

namespace Librefw

open PtrTrie

variable {nodes nodes' : Mem LfwBgNode} {trees trees' : Mem LfwBgTree} {hs : Multiset Ptr}
variable {p q : Ptr} {a c : Addr} {t t' : PtrTrie Bool}

/-! ## Trees by their headers -/

/-- The root that a header points to. -/
def lfwRootAt (trees : Mem LfwBgTree) (p : Ptr) : Ptr := p.bind fun a => (trees.lookup a).bind (·.root)

theorem lfwRootAt_some {r : LfwBgTree} (h : trees.lookup a = some r) :
    lfwRootAt trees (some a) = r.root := by
  rw [lfwRootAt, Option.bind_some, h, Option.bind_some]

/-- The headers `hs` and the nodes of their trees are all there is. -/
structure LfwBgStore (nodes : Mem LfwBgNode) (trees : Mem LfwBgTree) (hs : Multiset Ptr) : Prop where
  trees_eq : hs = trees.allocated.map some
  stored : ∀ p ∈ hs, IsTrie nodes (lfwRootAt trees p)
  nodes_eq : nodes.allocated = hs.bind fun p => footprint nodes (lfwRootAt trees p)

/-- A tree is in the second store as it was in the first. -/
structure LfwBgKeeps (nodes : Mem LfwBgNode) (trees : Mem LfwBgTree) (nodes' : Mem LfwBgNode)
    (trees' : Mem LfwBgTree) (p : Ptr) : Prop where
  header : ∀ a, p = some a → trees'.lookup a = trees.lookup a
  node : ∀ c ∈ footprint nodes (lfwRootAt trees p), nodes'.lookup c = nodes.lookup c

namespace LfwBgKeeps

theorem refl (p : Ptr) : LfwBgKeeps nodes trees nodes trees p := ⟨fun _ _ => rfl, fun _ _ => rfl⟩

theorem root_eq (h : LfwBgKeeps nodes trees nodes' trees' p) :
    lfwRootAt trees' p = lfwRootAt trees p := by
  cases p with
  | none => rfl
  | some a => rw [lfwRootAt, Option.bind_some, h.header a rfl]; rfl

theorem frame (h : LfwBgKeeps nodes trees nodes' trees' p)
    (hs : IsTrie nodes (lfwRootAt trees p)) :
    IsTrie nodes' (lfwRootAt trees' p) ∧
      footprint nodes' (lfwRootAt trees' p) = footprint nodes (lfwRootAt trees p) := by
  rw [h.root_eq]
  exact hs.frame h.node

end LfwBgKeeps

namespace LfwBgStore

/-- A header is allocated. -/
theorem header (h : LfwBgStore nodes trees hs) (hp : p ∈ hs) :
    ∃ a r, p = some a ∧ trees.lookup a = some r := by
  rw [h.trees_eq, Multiset.mem_map] at hp
  obtain ⟨a, ha, rfl⟩ := hp
  obtain ⟨r, hr⟩ := Mem.mem_iff_lookup.1 (Mem.mem_allocated.1 ha)
  exact ⟨a, r, rfl, hr⟩

theorem nodup (h : LfwBgStore nodes trees hs) : hs.Nodup := by
  rw [h.trees_eq]
  exact trees.nodup_allocated.map (Option.some_injective Addr)

theorem mem_nodes (h : LfwBgStore nodes trees hs) (hp : p ∈ hs)
    (hc : c ∈ footprint nodes (lfwRootAt trees p)) : c ∈ nodes := by
  rw [← Mem.mem_allocated, h.nodes_eq]
  exact Multiset.mem_bind.2 ⟨p, hp, hc⟩

/-- One tree and the others. -/
theorem split (h : LfwBgStore nodes trees hs) (hp : p ∈ hs) :
    nodes.allocated = footprint nodes (lfwRootAt trees p) +
      (hs.erase p).bind fun p => footprint nodes (lfwRootAt trees p) := by
  rw [h.nodes_eq]
  conv_lhs => rw [← Multiset.cons_erase hp]
  rw [Multiset.cons_bind]

theorem nodup_footprint (h : LfwBgStore nodes trees hs) (hp : p ∈ hs) :
    (footprint nodes (lfwRootAt trees p)).Nodup := by
  have hnd := nodes.nodup_allocated
  rw [h.split hp] at hnd
  exact (Multiset.nodup_add.1 hnd).1

/-- Trees have no node in common. -/
theorem disjoint (h : LfwBgStore nodes trees hs) (hp : p ∈ hs) (hq : q ∈ hs.erase p)
    (hc : c ∈ footprint nodes (lfwRootAt trees q)) : c ∉ footprint nodes (lfwRootAt trees p) := by
  have hnd := nodes.nodup_allocated
  rw [h.split hp, Multiset.nodup_add] at hnd
  exact fun hin => Multiset.disjoint_left.1 hnd.2.2 hin (Multiset.mem_bind.2 ⟨q, hq, hc⟩)

/-- The trees of `qs` are kept. -/
theorem bind_kept {qs : Multiset Ptr} (h : LfwBgStore nodes trees hs) (hsub : ∀ q ∈ qs, q ∈ hs)
    (hkeep : ∀ q ∈ qs, LfwBgKeeps nodes trees nodes' trees' q) :
    (qs.bind fun p => footprint nodes' (lfwRootAt trees' p)) =
      qs.bind fun p => footprint nodes (lfwRootAt trees p) :=
  Multiset.bind_congr fun q hq => ((hkeep q hq).frame (h.stored q (hsub q hq))).2

/-- **A fresh tree** next to the others. -/
theorem start (h : LfwBgStore nodes trees hs) (hexta : trees.Extends a ⟨none⟩ trees')
    (hextc : nodes.Extends c (Cell.zero false) nodes') :
    LfwBgStore nodes' (trees'.set a ⟨some c⟩) (some a ::ₘ hs) ∧
      lfwRootAt (trees'.set a ⟨some c⟩) (some a) = some c ∧ Stored nodes' (lfwBlank c) ∧
      ∀ p ∈ hs, LfwBgKeeps nodes trees nodes' (trees'.set a ⟨some c⟩) p := by
  have hblank : Stored nodes' (lfwBlank c) := ⟨hextc.lookup_self, fun _ => trivial⟩
  have hroot : lfwRootAt (trees'.set a ⟨some c⟩) (some a) = some c :=
    lfwRootAt_some (Mem.lookup_set_self trees' a _)
  have hfoot : footprint nodes' (some c) = {c} := hblank.footprint_eq rfl
  have hkeep : ∀ p ∈ hs, LfwBgKeeps nodes trees nodes' (trees'.set a ⟨some c⟩) p := by
    intro p hp
    refine ⟨fun b hb => ?_, fun d hd => hextc.lookup_of_mem (h.mem_nodes hp hd)⟩
    obtain ⟨b', r, rfl, hr⟩ := h.header hp
    obtain rfl := Option.some.inj hb
    have hmem : b' ∈ trees := Mem.mem_of_lookup hr
    rw [Mem.lookup_set_ne (hexta.ne_of_mem hmem), hexta.lookup_of_mem hmem]
  refine ⟨⟨?_, fun p hp => ?_, ?_⟩, hroot, hblank, hkeep⟩
  · rw [Mem.allocated_set_of_mem hexta.mem_self, hexta.allocated, Multiset.map_cons, h.trees_eq]
  · rcases Multiset.mem_cons.1 hp with rfl | hp
    · rw [hroot]
      exact hblank.isTrie
    · exact ((hkeep p hp).frame (h.stored p hp)).1
  · rw [Multiset.cons_bind, hroot, hfoot, h.bind_kept (fun _ hq => hq) hkeep, ← h.nodes_eq,
      hextc.allocated, Multiset.singleton_add]

/-- **A tree grows** and leaves the others alone. -/
theorem grow (h : LfwBgStore nodes trees hs) (hp : p ∈ hs) (hroot : root t = lfwRootAt trees p)
    (hst : Stored nodes t) (hg : Grows nodes t nodes' t') :
    LfwBgStore nodes' trees hs ∧ ∀ q ∈ hs, q ≠ p → LfwBgKeeps nodes trees nodes' trees q := by
  have hfoot : footprint nodes (lfwRootAt trees p) = addrs t := hst.footprint_eq hroot
  have hfoot' : footprint nodes' (lfwRootAt trees p) = addrs t' :=
    hg.stored.footprint_eq (hg.root_eq.trans hroot)
  have hkeep : ∀ q ∈ hs, q ≠ p → LfwBgKeeps nodes trees nodes' trees q := by
    intro q hq hne
    refine ⟨fun _ _ => rfl, fun d hd => hg.lookup_eq d (h.mem_nodes hq hd) ?_⟩
    rw [← hfoot]
    exact h.disjoint hp ((Multiset.mem_erase_of_ne hne).2 hq) hd
  have hrest : ∀ q ∈ hs.erase p, q ∈ hs ∧ q ≠ p := fun q hq =>
    ⟨Multiset.mem_of_mem_erase hq, (h.nodup.mem_erase_iff.1 hq).1⟩
  refine ⟨⟨h.trees_eq, fun q hq => ?_, ?_⟩, hkeep⟩
  · by_cases hqp : q = p
    · exact hqp ▸ ⟨t', hg.root_eq.trans hroot, hg.stored⟩
    · exact ((hkeep q hq hqp).frame (h.stored q hq)).1
  · -- what the insertion allocates is in the tree that grows
    have hsplit := h.split hp
    rw [hfoot] at hsplit
    have hacc := hg.account
    rw [hsplit] at hacc
    rw [← Multiset.cons_erase hp, Multiset.cons_bind, hfoot',
      h.bind_kept (fun q hq => (hrest q hq).1) fun q hq => hkeep q (hrest q hq).1 (hrest q hq).2]
    ext d
    have hd := congrArg (Multiset.count d) hacc
    simp only [Multiset.count_add] at hd ⊢
    omega

/-- **A tree is freed** with its header, and the others are left alone. -/
theorem free (h : LfwBgStore nodes trees hs) (hp : some a ∈ hs) :
    ∃ r nodes', trees.lookup a = some r ∧
      freeTree nodes.objs.keys.card r.root nodes = .ok nodes' ∧
      LfwBgStore nodes' (trees.erase a) (hs.erase (some a)) ∧
      ∀ q ∈ hs.erase (some a), LfwBgKeeps nodes trees nodes' (trees.erase a) q := by
  obtain ⟨b, r, hb, hr⟩ := h.header hp
  obtain rfl := Option.some.inj hb
  obtain ⟨u, hroot, hst⟩ := h.stored _ hp
  rw [lfwRootAt_some hr] at hroot
  have hfoot : footprint nodes (lfwRootAt trees (some a)) = addrs u := by
    rw [lfwRootAt_some hr, hst.footprint_eq hroot]
  have hnd : (addrs u).Nodup := hfoot ▸ h.nodup_footprint hp
  obtain ⟨nodes', hrun, hacc, hkeepn⟩ := freeTree_spec nodes.objs.keys.card hst hnd
    ((height_le_card u).trans (Multiset.card_le_card (hst.addrs_le hnd)))
  rw [hroot] at hrun
  have hkeep : ∀ q ∈ hs.erase (some a), LfwBgKeeps nodes trees nodes' (trees.erase a) q := by
    intro q hq
    refine ⟨fun b hqb => Mem.lookup_erase_ne fun hba => ?_,
      fun d hd => hkeepn d (hfoot ▸ h.disjoint hp hq hd)⟩
    exact (h.nodup.mem_erase_iff.1 hq).1 (hba ▸ hqb)
  have hsub : ∀ q ∈ hs.erase (some a), q ∈ hs := fun q hq => Multiset.mem_of_mem_erase hq
  refine ⟨r, nodes', hr, hrun, ⟨?_, fun q hq => ?_, ?_⟩, hkeep⟩
  · rw [Mem.allocated_erase, h.trees_eq, Multiset.map_erase _ (Option.some_injective Addr)]
  · exact ((hkeep q hq).frame (h.stored q (hsub q hq))).1
  · have hsplit := h.split hp
    rw [hfoot, ← hacc] at hsplit
    rw [h.bind_kept hsub hkeep]
    exact Multiset.add_right_inj.1 hsplit

end LfwBgStore

/-- **A prefix marks its key**, and grows the tree no further. -/
theorem lfwInsertPrefix_spec (e : Endian) (A : Supply) {x : LfwIpPrefix}
    (hx : x.ipPrefixLen.toNat ≤ 32) (hst : Stored nodes t) (hne : t ≠ .nil)
    (hnd : (addrs t).Nodup) :
    ∃ line nodes' t', lfwInsertPrefix e A.toAllocator (root t) x nodes = .ok (line, nodes') ∧
      Grows nodes t nodes' t' ∧
      vals t' = BitTrie.put false (fun _ => true) (x.key e) (vals t) := by
  obtain ⟨nodes', t', hrun, hg, hvals⟩ := putAll_spec A false [x.put e] hst hne hnd
  rw [putAll] at hrun
  obtain ⟨⟨last, created, m₁⟩, hput, hrun⟩ := bind_eq_ok.1 hrun
  obtain rfl := Except.ok.inj hrun
  obtain ⟨ip_path, hone⟩ := lfwInsertPrefix_eq e A.toAllocator (root t) hx nodes
  rw [hput, ok_bind] at hone
  exact ⟨_, _, t', hone, hg, hvals⟩

end Librefw
