import Librefw.Bogon.Bounds
import Librefw.Common.Budget

/-!
# What a load makes and what it says of it

A prefix needs a node for each initial segment of its key, and a load makes
those that no prefix before it has made. It says so: the lines it logs are
those of `lfwLines`, one a prefix, with the number of nodes made for it, and
the numbers add up to the nodes of the new list but its root
(`lfwLoadBgTree_lines`).
-/

namespace Librefw

open PtrTrie

section Created

variable {α : Type} {m m' : Mem (Cell α)} {t : PtrTrie α} {z : α} {f : α → α} {p : List Bool}
variable {last : Ptr} {k : ℕ}

/-- An insertion creates the nodes of its path that are missing. -/
theorem PtrTrie.put_created (A : Supply) (hs : Stored m t) (hne : t ≠ .nil)
    (hnd : (addrs t).Nodup) (h : put A.toAllocator z f p (root t) m = .ok (last, k, m')) :
    k = (p.inits.toFinset \ (vals t).paths).card := by
  cases t with
  | nil => exact absurd rfl hne
  | node x kids =>
    obtain ⟨a, v⟩ := x
    obtain ⟨last', k', m₁, t', hput, hres⟩ := put_spec A z f p m a v kids hs hnd
    obtain ⟨rfl, heq⟩ := Prod.mk.inj (Except.ok.inj (h.symm.trans hput))
    obtain ⟨rfl, rfl⟩ := Prod.mk.inj heq
    -- it asks for as many nodes as it creates, and the trie grows by them
    have hgrown : m'.allocated.card = m.allocated.card + k := (Allocator.serve_count (put_supply hput)).2
    have hcard := congrArg Multiset.card hres.allocated
    have hpaths := congrArg BitTrie.paths hres.vals_eq
    have hunion := Finset.card_sdiff_add_card p.inits.toFinset (vals (.node (a, v) kids)).paths
    rw [BitTrie.paths_put, Finset.union_comm] at hpaths
    rw [Multiset.card_add, Multiset.card_add, card_addrs, card_addrs, hpaths, hgrown] at hcard
    omega

end Created

variable {e : Endian} {made : Finset (List Bool)} {prefixes : List LfwIpPrefix}
variable {m : Mem LfwBgNode} {t : PtrTrie Bool}

/-- The paths a prefix needs a node for. -/
def LfwIpPrefix.segments (e : Endian) (p : LfwIpPrefix) : Finset (List Bool) := (p.key e).inits.toFinset

/-- What is logged for a prefix if there are nodes for `made`. -/
def LfwIpPrefix.line (e : Endian) (made : Finset (List Bool)) (p : LfwIpPrefix) : LfwBgLog :=
  ⟨p.ipPrefix, p.text e, (p.segments e \ made).card⟩

/-- What is logged for prefixes one after another. -/
def lfwLines (e : Endian) : Finset (List Bool) → List LfwIpPrefix → List LfwBgLog
  | _, [] => []
  | made, p :: prefixes => p.line e made :: lfwLines e (made ∪ p.segments e) prefixes

/-- The paths that prefixes make nodes for, beside those there are. -/
def lfwMade (e : Endian) (made : Finset (List Bool)) (prefixes : List LfwIpPrefix) :
    Finset (List Bool) :=
  prefixes.foldl (fun made p => made ∪ p.segments e) made

theorem mem_lfwMade {q : List Bool} :
    q ∈ lfwMade e made prefixes ↔ q ∈ made ∨ ∃ p ∈ prefixes, q <+: p.key e := by
  induction prefixes generalizing made with
  | nil => simp [lfwMade]
  | cons p prefixes ih =>
    rw [lfwMade, List.foldl_cons]
    have hrest : q ∈ lfwMade e (made ∪ p.segments e) prefixes ↔ _ := ih
    refine hrest.trans ?_
    simp only [LfwIpPrefix.segments, Finset.mem_union, List.mem_toFinset, List.mem_inits,
      List.exists_mem_cons_iff, or_assoc]

theorem length_lfwLines : (lfwLines e made prefixes).length = prefixes.length := by
  induction prefixes generalizing made with
  | nil => rfl
  | cons p prefixes ih => rw [lfwLines, List.length_cons, List.length_cons, ih]

/-- The line of a prefix counts what the prefixes before it have not made. -/
theorem getElem?_lfwLines (i : ℕ) :
    (lfwLines e made prefixes)[i]? =
      prefixes[i]?.map (LfwIpPrefix.line e (lfwMade e made (prefixes.take i))) := by
  induction prefixes generalizing made i with
  | nil => rfl
  | cons p prefixes ih =>
    cases i with
    | zero => rfl
    | succ i =>
      rw [lfwLines, List.getElem?_cons_succ, ih, List.getElem?_cons_succ, List.take_succ_cons]
      rfl

/-- The lines add up to what is made. -/
theorem sum_lfwLines :
    ((lfwLines e made prefixes).map LfwBgLog.num_nodes).sum + made.card =
      (lfwMade e made prefixes).card := by
  induction prefixes generalizing made with
  | nil => simp [lfwLines, lfwMade]
  | cons p prefixes ih =>
    have hunion := Finset.card_sdiff_add_card (p.segments e) made
    have hrest : _ + (made ∪ p.segments e).card =
        (lfwMade e (made ∪ p.segments e) prefixes).card := ih
    rw [Finset.union_comm] at hunion
    rw [lfwLines, List.map_cons, List.sum_cons]
    show (p.segments e \ made).card + _ + _ = (lfwMade e (made ∪ p.segments e) prefixes).card
    omega

/-- One prefix, inserted into a trie. -/
theorem lfwInsertPrefix_line (A : Supply) (hs : Stored m t) (hne : t ≠ .nil)
    (hnd : (addrs t).Nodup) {p : LfwIpPrefix} (hp : p.ipPrefixLen.toNat ≤ 32) :
    ∃ m' t', lfwInsertPrefix e A.toAllocator (root t) p m = .ok (p.line e (vals t).paths, m') ∧
      Grows m t m' t' ∧ (vals t').paths = (vals t).paths ∪ p.segments e := by
  cases t with
  | nil => exact absurd rfl hne
  | node x kids =>
    obtain ⟨a, v⟩ := x
    obtain ⟨last, k, m', t', hput, hres⟩ := put_spec A false (p.put e).2 (p.put e).1 m a v kids hs hnd
    obtain ⟨path, hone⟩ := lfwInsertPrefix_eq e A.toAllocator (some a) hp m
    have hk := put_created A hs hne hnd hput
    refine ⟨m', t', ?_, hres.grows, ?_⟩
    · rw [hput, ok_bind] at hone
      change _ = Except.ok _ at hone
      -- the text is the one the loop over the bits leaves
      have htext : path = p.text e := by
        have hcopy := hone
        unfold lfwInsertPrefix at hcopy
        obtain ⟨r, hloop, hcopy⟩ := bind_eq_ok.1 hcopy
        obtain ⟨m₂, -, hcopy⟩ := bind_eq_ok.1 hcopy
        obtain ⟨hline, -⟩ := Prod.mk.inj (Except.ok.inj hcopy)
        exact (congrArg LfwBgLog.ip_path hline).symm.trans (lfwInsertPath_text hloop)
      rw [root_node, hone, htext, hk]
      rfl
    · rw [hres.vals_eq, BitTrie.paths_put]
      rfl

/-- **The loop over the prefixes** logs a line for each. -/
theorem lfwInsertPrefixes_lines (A : Supply) (hlen : ∀ p ∈ prefixes, p.ipPrefixLen.toNat ≤ 32)
    (hmax : prefixes.length ≤ 2 ^ 31) {k i : ℕ} (hk : i + k = prefixes.length) (hs : Stored m t) (hne : t ≠ .nil)
    (hnd : (addrs t).Nodup) (log : List LfwBgLog) :
    ∃ m' t', lfwInsertPrefixes e A.toAllocator (root t) prefixes k i log m =
        .ok (log ++ lfwLines e (vals t).paths (prefixes.drop i), m') ∧ Grows m t m' t' ∧
      (vals t').paths = lfwMade e (vals t).paths (prefixes.drop i) := by
  induction k generalizing i m t log with
  | zero =>
    rw [List.drop_of_length_le (by omega)]
    exact ⟨m, t, by rw [lfwLines, List.append_nil]; rfl, .refl hs, rfl⟩
  | succ k ih =>
    have hi : i < prefixes.length := by omega
    obtain ⟨m₁, t₁, hone, hg, hpaths⟩ :=
      lfwInsertPrefix_line (e := e) A hs hne hnd (hlen _ (List.getElem_mem hi))
    have hk' : i + 1 + k = prefixes.length := by omega
    obtain ⟨m₂, t₂, hrun, hg', hpaths'⟩ := ih hk' hg.stored (hg.ne_nil hne) (hg.nodup hs hnd)
      (log ++ [LfwIpPrefix.line e (vals t).paths prefixes[i]])
    refine ⟨m₂, t₂, ?_, hg.trans hg', ?_⟩
    · rw [hg.root_eq] at hrun
      rw [lfwInsertPrefixes_succ e A.toAllocator _ (by omega) hi, hone, ok_bind, hrun, hpaths,
        List.drop_eq_getElem_cons hi, lfwLines, List.append_assoc]
      rfl
    · rw [hpaths', hpaths, List.drop_eq_getElem_cons hi]
      rfl

/-- **What a load says is what it makes.** It logs a line for each prefix, and
the nodes it allocates are the new root and those the lines count. -/
theorem lfwLoadBgTree_lines (e : Endian) (A : Supply) (s : LfwBgState)
    (hlen : ∀ p ∈ prefixes, p.ipPrefixLen.toNat ≤ 32) (hmax : prefixes.length ≤ 2 ^ 31) :
    ∃ s', lfwLoadBgTree e A.toAllocator prefixes prefixes.length s = .ok s' ∧
      s'.log = s.log ++ lfwLines e {[]} prefixes ∧
      s'.nodes.allocated.card = s.nodes.allocated.card + 1 +
        ((lfwLines e {[]} prefixes).map LfwBgLog.num_nodes).sum := by
  obtain ⟨a, trees, htree, hexta⟩ := Mem.zalloc_supply A s.trees ⟨none⟩
  obtain ⟨c, nodes, hnode, hextc⟩ := Mem.zalloc_supply A s.nodes (Cell.zero false)
  have hs : Stored nodes (lfwBlank c) := ⟨hextc.lookup_self, fun _ => trivial⟩
  have haddrs : addrs (lfwBlank c) = {c} := rfl
  have hpaths : (vals (lfwBlank c)).paths = {[]} := rfl
  obtain ⟨nodes', t, hrun, hg, hmade⟩ := lfwInsertPrefixes_lines (e := e) A hlen hmax (Nat.zero_add _) hs
    (by simp [lfwBlank]) (by simp [haddrs]) s.log
  rw [List.drop_zero, hpaths] at hrun hmade
  refine ⟨{ s with
    nodes := nodes', trees := trees.set a ⟨some c⟩, tree := some a, rcu := s.rcu ++ [s.tree],
    log := s.log ++ lfwLines e {[]} prefixes }, ?_, rfl, ?_⟩
  · have hloop : lfwInsertPrefixes e A.toAllocator (some c) prefixes prefixes.length 0 s.log nodes =
        .ok (s.log ++ lfwLines e {[]} prefixes, nodes') := hrun
    simp only [lfwLoadBgTree, htree, lfwCreateNode, hnode, Mem.store_of_mem hexta.mem_self, hloop,
      ok_bind, pure_eq_ok]
  · have hsum : _ + ({[]} : Finset (List Bool)).card = (lfwMade e {[]} prefixes).card :=
      sum_lfwLines
    have hcard := congrArg Multiset.card hg.account
    rw [Multiset.card_add, Multiset.card_add, card_addrs, hmade, ← hsum, haddrs,
      Finset.card_singleton, Multiset.card_singleton, hextc.allocated, Multiset.card_cons] at hcard
    show nodes'.allocated.card = _
    omega

end Librefw
