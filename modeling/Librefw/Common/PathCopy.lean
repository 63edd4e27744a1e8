import Librefw.Common.TrieMem

/-!
# Path copying

The persistent update of a stored trie: clone the nodes along a path as
far as it exists, hang new nodes for the rest, and change the payload at
the end. The old trie stays as it is, the new one shares every subtrie
off the path with it, and the nodes cloned are the ones the new trie no
longer needs.

`cowBelow_spec` is the update below a root that is already cloned, by
induction on the path; where the path leaves the trie the update is an
in-place insertion into the clone (`cowBelow_eq_put`), so `put_spec`
finishes it. `cowPut_spec` adds the root.
-/

namespace Librefw

namespace PtrTrie

open BitTrie

variable {α : Type} {m m' : Mem (Cell α)} {t u : PtrTrie α} {kids : Bool → PtrTrie α}
variable {a c : Addr} {v z : α} {f : α → α} {b : Bool} {p : List Bool}

/-- `*new = *old` into a fresh node, which may be NULL. -/
def clone (A : Allocator) (z : α) (old : Addr) (m : Mem (Cell α)) :
    Except Fault (Ptr × Mem (Cell α)) :=
  match m.zalloc A (Cell.zero z) with
  | (none, m) => pure (none, m)
  | (some a, m) => do
    let n ← m.load (some old)
    let m ← m.store (some a) n
    pure (some a, m)

/-- Clone the children along a path below `old` and hang them below `new`,
until the path leaves the old trie. Yields the rest of the path, the last
clone and the nodes cloned. -/
def clonePath (A : Allocator) (z : α) :
    List Bool → Addr → Ptr → Mem (Cell α) →
      Except Fault (List Bool × Ptr × List Addr × Mem (Cell α))
  | [], _, new, m => pure ([], new, [], m)
  | b :: p, old, new, m => do
    let n ← m.load (some old)
    match n.child b with
    | none => pure (b :: p, new, [], m)
    | some c => do
      let (c', m) ← clone A z c m
      let m ← m.modify new (Cell.setChild b c')
      let (rest, last, olds, m) ← clonePath A z p c c' m
      pure (rest, last, c :: olds, m)

/-- Hang a chain of zeroed nodes along a path. Yields its last node and how
many were created. -/
def growPath (A : Allocator) (z : α) :
    List Bool → Ptr → Mem (Cell α) → Except Fault (Ptr × ℕ × Mem (Cell α))
  | [], runner, m => pure (runner, 0, m)
  | b :: p, runner, m => do
    let (c, m) := m.zalloc A (Cell.zero z)
    let m ← m.modify runner (Cell.setChild b c)
    let (last, created, m) ← growPath A z p c m
    pure (last, created + 1, m)

/-- The update below the clone `new` of the node `old`. -/
def cowBelow (A : Allocator) (z : α) (f : α → α) (p : List Bool) (old : Addr) (new : Ptr)
    (m : Mem (Cell α)) : Except Fault (Ptr × ℕ × List Addr × Mem (Cell α)) := do
  let (rest, last, olds, m) ← clonePath A z p old new m
  let (last, created, m) ← growPath A z rest last m
  let m ← m.modify last (Cell.mapData f)
  pure (last, created, olds, m)

/-- The update of the trie at `old`: the new root, the last node, how many
nodes were created and the nodes the new trie no longer needs. -/
def cowPut (A : Allocator) (z : α) (f : α → α) (p : List Bool) (old : Addr)
    (m : Mem (Cell α)) : Except Fault (Ptr × Ptr × ℕ × List Addr × Mem (Cell α)) := do
  let (new, m) ← clone A z old m
  let (last, created, olds, m) ← cowBelow A z f p old new m
  pure (new, last, created, old :: olds, m)

/-- What the update of the trie `t`, rooted at `a`, yields and leaves behind,
its clone being rooted at `c` already. -/
structure CowResult (z : α) (f : α → α) (p : List Bool) (m : Mem (Cell α)) (t : PtrTrie α)
    (a c : Addr) (last : Ptr) (created : ℕ) (olds : List Addr) (m' : Mem (Cell α))
    (t' : PtrTrie α) : Prop where
  root_eq : root t' = some c
  stored : Stored m' t'
  vals_eq : vals t' = BitTrie.put z f p (vals t)
  last_eq : last = root (t'.descend p)
  descend_eq : ∀ q, ¬ q <+: p → t'.descend q = t.descend q
  created_eq_zero : created = 0 ↔ ((vals t).find p).isSome
  olds_eq : a :: olds = pathAddrs t p
  length_le : olds.length ≤ p.length
  olds_le : a ::ₘ (olds : Multiset Addr) ≤ addrs t
  account : addrs t' + a ::ₘ (olds + m.allocated) = addrs t + c ::ₘ m'.allocated
  lookup_eq : ∀ d ∈ m, d ≠ c → m'.lookup d = m.lookup d

/-- A successful clone: a fresh node with the contents of the old one. -/
theorem clone_of_zalloc {A : Allocator} {n : Cell α} {m₁ : Mem (Cell α)}
    (halloc : m.zalloc A (Cell.zero z) = (some c, m₁)) (hext : m.Extends c (Cell.zero z) m₁)
    (h : m.lookup a = some n) :
    clone A z a m = .ok (some c, m₁.set c n) ∧ m.Extends c n (m₁.set c n) := by
  have hload : m₁.lookup a = some n := (hext.lookup_of_mem (Mem.mem_of_lookup h)).trans h
  refine ⟨?_, hext.fresh, Mem.lookup_set_self _ _ _, fun d hd => ?_, ?_⟩
  · simp [clone, halloc, Mem.load_of_lookup hload, Mem.store_of_mem hext.mem_self]
  · rw [Mem.lookup_set_ne hd, hext.lookup_ne d hd]
  · rw [Mem.allocated_set_of_mem hext.mem_self, hext.allocated]

theorem clone_supply (A : Supply) (z : α) {n : Cell α} (h : m.lookup a = some n) :
    ∃ c m', clone A.toAllocator z a m = .ok (some c, m') ∧ m.Extends c n m' := by
  obtain ⟨c, m₁, halloc, hext⟩ := Mem.zalloc_supply A m (Cell.zero z)
  exact ⟨c, m₁.set c n, clone_of_zalloc halloc hext h⟩

/-- From NULL neither gets further than its first node. -/
theorem growPath_null (A : Allocator) (z : α) (p : List Bool) (m : Mem (Cell α)) :
    growPath A z p none m = extend A z p none m := by
  cases p with
  | nil => rfl
  | cons b p => rfl

/-- Growing a path at a node that has no child there is extending it. -/
theorem growPath_eq_extend (A : Allocator) (z : α) (p : List Bool) {n : Cell α}
    (hn : m.lookup a = some n) (hmiss : ∀ b q, p = b :: q → n.child b = none) :
    growPath A z p (some a) m = extend A z p (some a) m := by
  induction p generalizing m a n with
  | nil => rfl
  | cons b p ih =>
    rcases Mem.zalloc_cases A m (Cell.zero z) with ⟨c, m₁, halloc, hext⟩ | halloc
    · have hn₁ : m₁.lookup a = some n := (hext.lookup_of_mem (Mem.mem_of_lookup hn)).trans hn
      have hca : c ≠ a := (hext.ne_of_mem (Mem.mem_of_lookup hn)).symm
      have hc : (m₁.set a (n.setChild b (some c))).lookup c = some (Cell.zero z) :=
        (Mem.lookup_set_ne hca).trans hext.lookup_self
      simp only [growPath, extend, Mem.load_of_lookup hn, hmiss b p rfl, halloc,
        Mem.modify_of_lookup hn₁, ok_bind, ih hc fun _ _ _ => rfl]
    · simp only [growPath, extend, Mem.load_of_lookup hn, hmiss b p rfl, halloc, ok_bind,
        growPath_null]

theorem clonePath_cons_of_missing {A : Allocator} {n : Cell α} {new : Ptr}
    (hn : m.lookup a = some n) (hc : n.child b = none) :
    clonePath A z (b :: p) a new m = .ok (b :: p, new, [], m) := by
  simp [clonePath, Mem.load_of_lookup hn, hc]

theorem cowBelow_cons_of_child {A : Allocator} {n : Cell α} {new c' : Ptr}
    {m₁ m₂ : Mem (Cell α)} (hn : m.lookup a = some n) (hc : n.child b = some c)
    (hclone : clone A z c m = .ok (c', m₁))
    (hmod : m₁.modify new (Cell.setChild b c') = .ok m₂) :
    cowBelow A z f (b :: p) a new m =
      (do let (last, k, olds, m) ← cowBelow A z f p c c' m₂; pure (last, k, c :: olds, m)) := by
  simp only [cowBelow, clonePath, Mem.load_of_lookup hn, hc, hclone, hmod, ok_bind, bind_assoc,
    pure_bind]

/-- Where the path leaves the trie at its root, the update is an insertion
into the clone. -/
theorem cowBelow_eq_put (A : Allocator) (hs : Stored m (node (a, v) kids))
    (hc : m.lookup c = some ⟨fun b => root (kids b), v⟩)
    (hmiss : ∀ b q, p = b :: q → kids b = nil) :
    cowBelow A z f p a (some c) m =
      put A z f p (some c) m >>= fun y => pure (y.1, y.2.1, [], y.2.2) := by
  have hclone : clonePath A z p a (some c) m = .ok (p, some c, [], m) := by
    cases p with
    | nil => rfl
    | cons b q => exact clonePath_cons_of_missing hs.1 (by simp [hmiss b q rfl])
  have hgrow : growPath A z p (some c) m = extend A z p (some c) m :=
    growPath_eq_extend A z p hc fun b q h => by simp [hmiss b q h]
  simp only [cowBelow, hclone, ok_bind, hgrow, put, bind_assoc, pure_bind]

/-- **The update where the path leaves the trie at its root**: an insertion
into the clone, which is the only old node it writes. -/
theorem cowBelow_of_missing (A : Supply) (hs : Stored m (node (a, v) kids))
    (hnd : (addrs (node (a, v) kids)).Nodup)
    (hc : m.lookup c = some ⟨fun b => root (kids b), v⟩) (hcnot : c ∉ addrs (node (a, v) kids))
    (hmiss : ∀ b q, p = b :: q → kids b = nil) :
    ∃ last k m' t', cowBelow A.toAllocator z f p a (some c) m = .ok (last, k, [], m') ∧
      CowResult z f p m (node (a, v) kids) a c last k [] m' t' := by
  have hs' : Stored m (node (c, v) kids) := ⟨hc, hs.2⟩
  have hnd' : (addrs (node (c, v) kids)).Nodup := by
    rw [addrs, Multiset.nodup_cons] at hnd ⊢
    exact ⟨fun h => hcnot (Multiset.mem_cons_of_mem h), hnd.2⟩
  have hlast : lastOnPath (node (c, v) kids) p = some c := by
    cases p with
    | nil => rfl
    | cons b q => rw [lastOnPath, hmiss b q rfl]; rfl
  -- the clone is a node of its own with the old children, and is inserted into
  obtain ⟨last, k, m', u, hput, hres⟩ := put_spec A z f p m c v kids hs' hnd'
  refine ⟨last, k, m', u, ?_, ?_⟩
  · rw [cowBelow_eq_put _ hs hc hmiss, hput]
    rfl
  · exact {
      root_eq := hres.root_eq
      stored := hres.stored
      vals_eq := hres.vals_eq
      last_eq := hres.last_eq
      descend_eq := fun q hq => by
        rw [hres.descend_eq q hq]
        cases q with
        | nil => exact absurd List.nil_prefix hq
        | cons d q => rfl
      created_eq_zero := hres.created_eq_zero
      olds_eq := by
        cases p with
        | nil => rfl
        | cons b q => rw [pathAddrs, hmiss b q rfl, pathAddrs]
      length_le := Nat.zero_le _
      olds_le := Multiset.singleton_le.2 (Multiset.mem_cons_self _ _)
      account := by
        ext d
        have h := congrArg (Multiset.count d) hres.allocated
        simp only [addrs, Multiset.count_add, Multiset.count_cons, Multiset.coe_nil,
          zero_add] at h ⊢
        omega
      lookup_eq := fun d hd hdc =>
        hres.lookup_eq d hd fun h => hdc (Option.some.inj (h.symm.trans hlast)) }

/-- **The update under a child, seen from its parent.** The child's clone is
`c'`, hung below the parent's clone `c`. -/
theorem cowResult_of_kid {x : Addr × α} {kids' : Bool → PtrTrie α} {c' : Addr} {last : Ptr}
    {k : ℕ} {olds : List Addr} {m₂ : Mem (Cell α)} (hs : Stored m (node (a, v) kids))
    (hk : kids b = node x kids') (hcm : c ∈ m) (hcnot : c ∉ addrs (node (a, v) kids))
    (hfresh : c' ∉ m)
    (hcell : m₂.lookup c = some ⟨Function.update (fun d => root (kids d)) b (some c'), v⟩)
    (hold : ∀ d ∈ m, d ≠ c → m₂.lookup d = m.lookup d)
    (hall : m₂.allocated = c' ::ₘ m.allocated)
    (hres : CowResult z f p m₂ (node x kids') x.1 c' last k olds m' u) :
    CowResult z f (b :: p) m (node (a, v) kids) a c last k (x.1 :: olds) m'
      (node (c, v) (Function.update kids b u)) := by
  have hkeep : ∀ d ∈ m, d ≠ c → m'.lookup d = m.lookup d := fun d hd hdc => by
    have hd₂ : d ∈ m₂ := by
      obtain ⟨w, hw⟩ := Mem.mem_iff_lookup.1 hd
      exact Mem.mem_of_lookup ((hold d hd hdc).trans hw)
    rw [hres.lookup_eq d hd₂ fun h => hfresh (h ▸ hd), hold d hd hdc]
  have hdescend : ∀ q, ¬ q <+: p → u.descend q = (kids b).descend q := hk ▸ hres.descend_eq
  refine { root_eq := rfl, stored := ?_, vals_eq := ?_, last_eq := ?_,
           descend_eq := fun _ hq => descend_update hdescend hq, created_eq_zero := ?_,
           olds_eq := ?_, length_le := ?_, olds_le := ?_, account := ?_, lookup_eq := hkeep }
  · refine stored_node_update ?_ hres.stored ((hs.2 (!b)).congr fun d hd => ?_)
    · rw [hres.lookup_eq c (Mem.mem_of_lookup hcell) fun h => hfresh (h ▸ hcm), hcell,
        hres.root_eq]
    · have hd' : d ∈ addrs (node (a, v) kids) := Multiset.mem_of_le (addrs_kid_le _ kids (!b)) hd
      exact hkeep d (hs.mem_of_addrs hd') fun h => hcnot (h ▸ hd')
  · rw [vals, map_node_update]
    change node v (Function.update _ b (vals u)) = _
    rw [hres.vals_eq, ← hk]
    rfl
  · rw [hres.last_eq, descend_cons, kid_node, Function.update_self]
  · rw [hres.created_eq_zero, ← hk]
    rfl
  · rw [pathAddrs, hk, hres.olds_eq]
  · simpa using hres.length_le
  · rw [addrs_node _ kids b, hk, ← Multiset.cons_coe]
    exact Multiset.cons_le_cons _ (hres.olds_le.trans (Multiset.le_add_right _ _))
  · have h := addrs_update (c, v) kids b u
    ext d
    have h₁ := congrArg (Multiset.count d) h
    have h₂ := congrArg (Multiset.count d) hres.account
    rw [hall, ← hk] at h₂
    simp only [addrs, Multiset.count_add, Multiset.count_cons, ← Multiset.cons_coe] at h₁ h₂ ⊢
    omega

/-- **The update below a cloned root**, by induction on the path: as long as
the child is there it is cloned and hung below the clone, and the update
goes on from there. -/
theorem cowBelow_spec (A : Supply) (z : α) (f : α → α) (p : List Bool) (m : Mem (Cell α))
    (a : Addr) (v : α) (kids : Bool → PtrTrie α) (c : Addr)
    (hs : Stored m (node (a, v) kids)) (hnd : (addrs (node (a, v) kids)).Nodup)
    (hc : m.lookup c = some ⟨fun b => root (kids b), v⟩)
    (hcnot : c ∉ addrs (node (a, v) kids)) :
    ∃ last k olds m' t', cowBelow A.toAllocator z f p a (some c) m = .ok (last, k, olds, m') ∧
      CowResult z f p m (node (a, v) kids) a c last k olds m' t' := by
  induction p generalizing m a v kids c with
  | nil =>
    obtain ⟨last, k, m', t', hrun, hres⟩ :=
      cowBelow_of_missing (z := z) (f := f) (p := []) A hs hnd hc hcnot fun _ _ h => nomatch h
    exact ⟨last, k, [], m', t', hrun, hres⟩
  | cons b p ih =>
    cases hk : kids b with
    | nil =>
      obtain ⟨last, k, m', t', hrun, hres⟩ :=
        cowBelow_of_missing (z := z) (f := f) (p := b :: p) A hs hnd hc hcnot
          fun d q h => by cases h; exact hk
      exact ⟨last, k, [], m', t', hrun, hres⟩
    | node x kids' =>
      obtain ⟨a', w⟩ := x
      have hcm : c ∈ m := Mem.mem_of_lookup hc
      have hle : addrs (kids b) ≤ addrs (node (a, v) kids) := addrs_kid_le _ kids b
      have hsk : Stored m (node (a', w) kids') := hk ▸ hs.2 b
      -- the child is cloned, and the clone hung below the parent's
      obtain ⟨c', m₁, hclone, hext⟩ := clone_supply A z hsk.1
      have hc₁ : m₁.lookup c = some ⟨fun d => root (kids d), v⟩ := (hext.lookup_of_mem hcm).trans hc
      have hcc' : c ≠ c' := hext.ne_of_mem hcm
      set m₂ := m₁.set c ⟨Function.update (fun d => root (kids d)) b (some c'), v⟩
      have hmod : m₁.modify (some c) (Cell.setChild b (some c')) = .ok m₂ :=
        Mem.modify_of_lookup hc₁
      have hold : ∀ d ∈ m, d ≠ c → m₂.lookup d = m.lookup d := fun d hd hdc =>
        (Mem.lookup_set_ne hdc).trans (hext.lookup_of_mem hd)
      -- the old child is not touched by that
      have hs₂ : Stored m₂ (node (a', w) kids') := hsk.congr fun d hd => by
        have hd' : d ∈ addrs (node (a, v) kids) := Multiset.mem_of_le hle (hk ▸ hd)
        exact hold d (hs.mem_of_addrs hd') fun h => hcnot (h ▸ hd')
      have hc'not : c' ∉ addrs (node (a', w) kids') := fun h => hext.fresh (hsk.mem_of_addrs h)
      obtain ⟨last, k, olds, m', u, hrun, hres⟩ := ih m₂ a' w kids' c' hs₂
        (hk ▸ Multiset.nodup_of_le hle hnd)
        ((Mem.lookup_set_ne hcc'.symm).trans hext.lookup_self) hc'not
      refine ⟨last, k, a' :: olds, m', node (c, v) (Function.update kids b u), ?_, ?_⟩
      · rw [cowBelow_cons_of_child hs.1 (by simp [hk]) hclone hmod, hrun]
        rfl
      · refine cowResult_of_kid hs hk hcm hcnot hext.fresh (Mem.lookup_set_self _ _ _) hold ?_ hres
        rw [Mem.allocated_set_of_mem (Mem.mem_of_lookup hc₁), hext.allocated]

/-- What path copying the trie `t` yields and leaves behind: a trie `t'` that
means `t` with the path put in, next to the old one, every cell of which is
as it was; `olds` are exactly the nodes that `t'` does not share. -/
structure CowPutResult (z : α) (f : α → α) (p : List Bool) (m : Mem (Cell α)) (t : PtrTrie α)
    (new last : Ptr) (created : ℕ) (olds : List Addr) (m' : Mem (Cell α)) (t' : PtrTrie α) :
    Prop where
  root_eq : root t' = new
  ne_nil : t' ≠ nil
  stored : Stored m' t'
  vals_eq : vals t' = BitTrie.put z f p (vals t)
  last_eq : last = root (t'.descend p)
  descend_eq : ∀ q, ¬ q <+: p → t'.descend q = t.descend q
  created_eq_zero : created = 0 ↔ ((vals t).find p).isSome
  olds_eq : olds = pathAddrs t p
  length_le : olds.length ≤ p.length + 1
  olds_le : (olds : Multiset Addr) ≤ addrs t
  account : addrs t' + (olds + m.allocated) = addrs t + m'.allocated
  lookup_eq : ∀ d ∈ m, m'.lookup d = m.lookup d

/-- **Path copying.** -/
theorem cowPut_spec (A : Supply) (z : α) (f : α → α) (p : List Bool) (m : Mem (Cell α))
    (a : Addr) (v : α) (kids : Bool → PtrTrie α) (hs : Stored m (node (a, v) kids))
    (hnd : (addrs (node (a, v) kids)).Nodup) :
    ∃ new last k olds m' t',
      cowPut A.toAllocator z f p a m = .ok (new, last, k, olds, m') ∧
      CowPutResult z f p m (node (a, v) kids) new last k olds m' t' := by
  obtain ⟨c, m₁, hclone, hext⟩ := clone_supply A z hs.1
  have hs₁ : Stored m₁ (node (a, v) kids) := hs.congr fun d hd =>
    hext.lookup_of_mem (hs.mem_of_addrs hd)
  have hcnot : c ∉ addrs (node (a, v) kids) := fun h => hext.fresh (hs.mem_of_addrs h)
  obtain ⟨last, k, olds, m', t', hrun, hres⟩ :=
    cowBelow_spec A z f p m₁ a v kids c hs₁ hnd hext.lookup_self hcnot
  refine ⟨some c, last, k, a :: olds, m', t', by simp [cowPut, hclone, hrun],
    { root_eq := hres.root_eq, ne_nil := ?_, stored := hres.stored, vals_eq := hres.vals_eq,
      last_eq := hres.last_eq, descend_eq := hres.descend_eq,
      created_eq_zero := hres.created_eq_zero, olds_eq := hres.olds_eq,
      length_le := by simpa using hres.length_le, olds_le := hres.olds_le, account := ?_,
      lookup_eq := ?_ }⟩
  · rintro rfl
    exact nomatch hres.root_eq
  · have h := hres.account
    rw [hext.allocated] at h
    ext d
    have hd := congrArg (Multiset.count d) h
    simp only [Multiset.count_add, Multiset.count_cons, ← Multiset.cons_coe] at hd ⊢
    omega
  · intro d hd
    rw [hres.lookup_eq d (hext.mem_of_mem hd) (hext.ne_of_mem hd), hext.lookup_of_mem hd]

end PtrTrie

end Librefw
