import Librefw.Common.BitTrie
import Librefw.Common.Mem

/-!
# Tries in an object store

A pointer trie is a `BitTrie` each node of which names the address it
lives at, so one inductive type serves for the shape in the store and,
through `vals`, for what the shape means. `Stored` says that a store
holds a trie, `addrs` is its footprint, and everything proved of a trie
survives a change of the store outside the footprint (`Stored.congr`).

`put` is the in-place insertion: descend, adding zeroed nodes where the
path is missing, and change the last node. Its result is the trie
`BitTrie.put` names (`put_spec`), the footprint grows by what was
allocated, and nothing outside it is written.
-/

namespace Librefw

/-- A node of a binary trie: `child[2]` and its payload. -/
structure Cell (α : Type) where
  child : Bool → Ptr
  data : α

namespace Cell

variable {α : Type}

/-- A zeroed node. -/
def zero (z : α) : Cell α := ⟨fun _ => none, z⟩

/-- `node->child[b] = p`. -/
def setChild (b : Bool) (p : Ptr) (n : Cell α) : Cell α :=
  { n with child := Function.update n.child b p }

/-- A change of the payload. -/
def mapData (f : α → α) (n : Cell α) : Cell α := { n with data := f n.data }

end Cell

/-- A trie whose nodes carry their addresses. -/
abbrev PtrTrie (α : Type) := BitTrie (Addr × α)

namespace PtrTrie

open BitTrie

variable {α : Type} {m m' : Mem (Cell α)} {t u : PtrTrie α} {kids : Bool → PtrTrie α}
variable {a : Addr} {v : α} {b : Bool}

/-- The pointer to a trie. -/
def root : PtrTrie α → Ptr
  | nil => none
  | node (a, _) _ => some a

/-- The footprint of a trie. -/
def addrs : PtrTrie α → Multiset Addr
  | nil => 0
  | node (a, _) kids => a ::ₘ (addrs (kids false) + addrs (kids true))

/-- What a trie means, its addresses forgotten. -/
def vals (t : PtrTrie α) : BitTrie α := t.map Prod.snd

/-- The deepest node a path meets. -/
def lastOnPath : PtrTrie α → List Bool → Ptr
  | nil, _ => none
  | node (a, _) _, [] => some a
  | node (a, _) kids, b :: p => lastOnPath (kids b) p <|> some a

/-- The nodes a path meets, from the root on. -/
def pathAddrs : PtrTrie α → List Bool → List Addr
  | nil, _ => []
  | node (a, _) _, [] => [a]
  | node (a, _) kids, b :: p => a :: pathAddrs (kids b) p

/-- The length of the longest path, in nodes. -/
def height : PtrTrie α → ℕ
  | nil => 0
  | node _ kids => max (height (kids false)) (height (kids true)) + 1

/-- The store holds the trie: each node is a cell with the payload, and its
child pointers are the children's roots. -/
def Stored (m : Mem (Cell α)) : PtrTrie α → Prop
  | nil => True
  | node (a, v) kids =>
    m.lookup a = some ⟨fun b => root (kids b), v⟩ ∧ ∀ b, Stored m (kids b)

@[simp] theorem root_nil : root (nil : PtrTrie α) = none := rfl
@[simp] theorem root_node (x : Addr × α) (kids : Bool → PtrTrie α) :
    root (node x kids) = some x.1 := rfl
@[simp] theorem addrs_nil : addrs (nil : PtrTrie α) = 0 := rfl
@[simp] theorem stored_nil : Stored m (nil : PtrTrie α) := trivial
@[simp] theorem vals_nil : vals (nil : PtrTrie α) = nil := rfl

theorem root_eq_none : root t = none ↔ t = nil := by
  cases t <;> simp

theorem addrs_eq_zero : addrs t = 0 ↔ t = nil := by
  cases t with
  | nil => exact iff_of_true rfl rfl
  | node x kids => exact iff_of_false Multiset.cons_ne_zero nofun

theorem root_eq_some : root t = some a ↔ ∃ v kids, t = node (a, v) kids := by
  cases t with
  | nil => simp
  | node x kids => obtain ⟨c, w⟩ := x; simp

theorem addrs_node (x : Addr × α) (kids : Bool → PtrTrie α) (b : Bool) :
    addrs (node x kids) = x.1 ::ₘ (addrs (kids b) + addrs (kids !b)) := by
  cases b
  · rfl
  · simp only [Bool.not_true, addrs, add_comm]

theorem root_mem_addrs (h : root t = some a) : a ∈ addrs t := by
  obtain ⟨v, kids, rfl⟩ := root_eq_some.1 h
  exact Multiset.mem_cons_self a _

theorem addrs_kid_le (x : Addr × α) (kids : Bool → PtrTrie α) (b : Bool) :
    addrs (kids b) ≤ addrs (node x kids) := by
  rw [addrs_node x kids b]
  exact (Multiset.le_add_right _ _).trans (Multiset.le_cons_self _ _)

/-- Replacing a child moves the footprint by the difference. -/
theorem addrs_update (x : Addr × α) (kids : Bool → PtrTrie α) (b : Bool) (u : PtrTrie α) :
    addrs (node x (Function.update kids b u)) + addrs (kids b) =
      addrs (node x kids) + addrs u := by
  rw [addrs_node x _ b, addrs_node x kids b]
  simp only [Function.update_self, Function.update_of_ne (Bool.not_ne_self b), Multiset.cons_add]
  congr 1
  ac_rfl

/-- A subtrie's footprint is part of the trie's. -/
theorem addrs_descend_le (t : PtrTrie α) (p : List Bool) : addrs (t.descend p) ≤ addrs t := by
  induction p generalizing t with
  | nil => exact le_refl _
  | cons b p ih =>
    cases t with
    | nil => simp
    | node x kids => exact (ih (kids b)).trans (addrs_kid_le x kids b)

theorem lastOnPath_mem {p : List Bool} (h : lastOnPath t p = some a) : a ∈ addrs t := by
  induction t generalizing p with
  | nil => cases h
  | node x kids ih =>
    obtain ⟨c, w⟩ := x
    cases p with
    | nil => exact Option.some.inj h ▸ Multiset.mem_cons_self c _
    | cons b p =>
      cases hl : lastOnPath (kids b) p with
      | none =>
        rw [lastOnPath, hl] at h
        exact Option.some.inj h ▸ Multiset.mem_cons_self c _
      | some d =>
        rw [lastOnPath, hl] at h
        exact Multiset.mem_of_le (addrs_kid_le _ kids b) (ih b (hl.trans h))

/-- A path begins at the root. -/
theorem pathAddrs_eq_nil {p : List Bool} : pathAddrs t p = [] ↔ t = nil := by
  cases t with
  | nil => exact iff_of_true rfl rfl
  | node x kids => cases p <;> exact iff_of_false nofun nofun

/-- A path that ends at a node meets it last. -/
theorem getLast?_pathAddrs {p : List Bool} (h : root (t.descend p) = some a) :
    (pathAddrs t p).getLast? = some a := by
  induction p generalizing t with
  | nil =>
    obtain ⟨v, kids, rfl⟩ := root_eq_some.1 h
    rfl
  | cons b p ih =>
    cases t with
    | nil =>
      rw [nil_descend] at h
      cases h
    | node x kids =>
      have hrest := ih (t := kids b) h
      rw [pathAddrs, List.getLast?_cons, hrest]
      rfl

/-- A trie one child of which is another: what is below a key that does not lead there, or that
the other has as the child had it, is as it was. -/
theorem descend_update {x x' : Addr × α} {p q : List Bool}
    (hu : ∀ q, ¬ q <+: p → u.descend q = (kids b).descend q) (hq : ¬ q <+: b :: p) :
    (node x' (Function.update kids b u)).descend q = (node x kids).descend q := by
  cases q with
  | nil => exact absurd List.nil_prefix hq
  | cons d q =>
    by_cases hd : d = b
    · subst hd
      rw [descend_cons, descend_cons, kid_node, kid_node, Function.update_self]
      exact hu q fun hpre => hq (List.cons_prefix_cons.2 ⟨rfl, hpre⟩)
    · rw [descend_cons, descend_cons, kid_node, kid_node, Function.update_of_ne hd]

/-- Along a child that is there, the deepest node is the child's. -/
theorem lastOnPath_cons_node {x : Addr × α} {kids' : Bool → PtrTrie α} {p : List Bool}
    (h : kids b = node x kids') :
    lastOnPath (node (a, v) kids) (b :: p) = lastOnPath (kids b) p := by
  have hsome : ∃ d, lastOnPath (node x kids') p = some d := by
    cases p with
    | nil => exact ⟨x.1, rfl⟩
    | cons e p => cases hl : lastOnPath (kids' e) p <;> simp [lastOnPath, hl]
  obtain ⟨d, hd⟩ := hsome
  rw [lastOnPath, h, hd]
  rfl

/-- Where no address repeats, a node is not in its children's footprints,
and these are disjoint. -/
theorem nodup_node (h : (addrs (node (a, v) kids)).Nodup) (b : Bool) :
    a ∉ addrs (kids b) ∧ (addrs (kids b)).Nodup ∧
      Disjoint (addrs (kids b)) (addrs (kids !b)) := by
  rw [addrs_node _ kids b, Multiset.nodup_cons, Multiset.nodup_add] at h
  obtain ⟨hnot, hb, -, hdis⟩ := h
  exact ⟨fun ha => hnot (Multiset.mem_add.2 (Or.inl ha)), hb, hdis⟩

/-! ## What a store holds -/

theorem Stored.kid (h : Stored m t) (b : Bool) : Stored m (t.kid b) := by
  cases t with
  | nil => trivial
  | node x kids => exact h.2 b

theorem Stored.descend (h : Stored m t) (p : List Bool) : Stored m (t.descend p) := by
  induction p generalizing t with
  | nil => exact h
  | cons b p ih => exact ih (h.kid b)

/-- A stored trie's nodes are allocated. -/
theorem Stored.mem_of_addrs (h : Stored m t) : ∀ {c}, c ∈ addrs t → c ∈ m := by
  induction t with
  | nil => intro c hc; simp at hc
  | node x kids ih =>
    intro c hc
    rw [addrs, Multiset.mem_cons, Multiset.mem_add] at hc
    rcases hc with rfl | hc | hc
    · exact Mem.mem_of_lookup h.1
    · exact ih false (h.2 false) hc
    · exact ih true (h.2 true) hc

/-- **The frame rule.** A trie stays stored while its own cells stay as they
are. -/
theorem Stored.congr (h : Stored m t) (heq : ∀ c ∈ addrs t, m'.lookup c = m.lookup c) :
    Stored m' t := by
  induction t with
  | nil => trivial
  | node x kids ih =>
    refine ⟨(heq _ (Multiset.mem_cons_self _ _)).trans h.1, fun b => ih b (h.2 b) fun c hc => ?_⟩
    exact heq c (Multiset.mem_of_le (addrs_kid_le x kids b) hc)

/-- A store holds at most one trie at a pointer. -/
theorem Stored.unique (ht : Stored m t) (hu : Stored m u) (hroot : root t = root u) : t = u := by
  induction t generalizing u with
  | nil => exact (root_eq_none.1 hroot.symm).symm
  | node x kids ih =>
    obtain ⟨w, kids', rfl⟩ := root_eq_some.1 hroot.symm
    have hcell := Option.some.inj (ht.1.symm.trans hu.1)
    simp only [Cell.mk.injEq] at hcell
    obtain ⟨hkids, rfl⟩ := hcell
    have : kids = kids' := funext fun b => ih b (ht.2 b) (hu.2 b) (congrFun hkids b)
    rw [this]

/-- What is reached from a pointer by following child pointers. -/
inductive Reach (m : Mem (Cell α)) : Ptr → Addr → Prop
  | here {a : Addr} : a ∈ m → Reach m (some a) a
  | child {a c : Addr} {n : Cell α} {b : Bool} :
      m.lookup a = some n → Reach m (n.child b) c → Reach m (some a) c

/-- **The footprint is what is reached.** -/
theorem Stored.reach_iff (h : Stored m t) {c : Addr} : Reach m (root t) c ↔ c ∈ addrs t := by
  induction t with
  | nil =>
    constructor
    · intro hr; cases hr
    · intro hc; simp at hc
  | node x kids ih =>
    obtain ⟨a, v⟩ := x
    constructor
    · intro hr
      cases hr with
      | here _ => exact Multiset.mem_cons_self _ _
      | @child _ _ n b hn hr =>
        obtain rfl := Option.some.inj (hn.symm.trans h.1)
        exact Multiset.mem_of_le (addrs_kid_le _ kids b) ((ih b (h.2 b)).1 hr)
    · intro hc
      rw [addrs_node _ kids false, Multiset.mem_cons, Multiset.mem_add] at hc
      rcases hc with rfl | hc | hc
      · exact Reach.here (Mem.mem_of_lookup h.1)
      · exact Reach.child (b := false) h.1 ((ih false (h.2 false)).2 hc)
      · exact Reach.child (b := true) h.1 ((ih true (h.2 true)).2 hc)

/-- A trie is no higher than it has nodes. -/
theorem height_le_card (t : PtrTrie α) : height t ≤ (addrs t).card := by
  induction t with
  | nil => exact le_refl _
  | node x kids ih =>
    have h0 := ih false
    have h1 := ih true
    simp only [height, addrs, Multiset.card_cons, Multiset.card_add]
    omega

/-! ## In-place insertion -/

/-- Descend from a node along a path, hanging a zeroed node wherever a child
is missing. Yields the last node and how many were created. -/
def extend (A : Allocator) (z : α) :
    List Bool → Ptr → Mem (Cell α) → Except Fault (Ptr × ℕ × Mem (Cell α))
  | [], runner, m => pure (runner, 0, m)
  | b :: p, runner, m => do
    let n ← m.load runner
    match n.child b with
    | some c => extend A z p (some c) m
    | none => do
      let (c, m) := m.zalloc A (Cell.zero z)
      let m ← m.modify runner (Cell.setChild b c)
      let (last, created, m) ← extend A z p c m
      pure (last, created + 1, m)

/-- Extend the path and change the payload at its end. -/
def put (A : Allocator) (z : α) (f : α → α) (p : List Bool) (runner : Ptr)
    (m : Mem (Cell α)) : Except Fault (Ptr × ℕ × Mem (Cell α)) := do
  let (last, created, m) ← extend A z p runner m
  let m ← m.modify last (Cell.mapData f)
  pure (last, created, m)

/-- What an insertion into the trie `t` at a path yields and leaves behind. -/
structure PutResult (z : α) (f : α → α) (p : List Bool) (m : Mem (Cell α)) (t : PtrTrie α)
    (last : Ptr) (created : ℕ) (m' : Mem (Cell α)) (t' : PtrTrie α) : Prop where
  root_eq : root t' = root t
  stored : Stored m' t'
  vals_eq : vals t' = BitTrie.put z f p (vals t)
  last_eq : last = root (t'.descend p)
  descend_eq : ∀ q, ¬ q <+: p → t'.descend q = t.descend q
  created_eq_zero : created = 0 ↔ ((vals t).find p).isSome
  allocated : addrs t' + m.allocated = addrs t + m'.allocated
  lookup_eq : ∀ c ∈ m, lastOnPath t p ≠ some c → m'.lookup c = m.lookup c

theorem put_cons_of_child {A : Allocator} {z : α} {f : α → α} {p : List Bool} {n : Cell α}
    {c : Addr} (hn : m.lookup a = some n) (hc : n.child b = some c) :
    put A z f (b :: p) (some a) m = put A z f p (some c) m := by
  simp [put, extend, Mem.load_of_lookup hn, hc]

theorem put_cons_of_missing {A : Allocator} {z : α} {f : α → α} {p : List Bool} {n : Cell α}
    {c : Ptr} {m₁ m₂ : Mem (Cell α)} (hn : m.lookup a = some n) (hc : n.child b = none)
    (halloc : m.zalloc A (Cell.zero z) = (c, m₁))
    (hmod : m₁.modify (some a) (Cell.setChild b c) = .ok m₂) :
    put A z f (b :: p) (some a) m =
      (do let (last, k, m) ← put A z f p c m₂; pure (last, k + 1, m)) := by
  simp only [put, extend, Mem.load_of_lookup hn, hc, halloc, hmod, ok_bind, bind_assoc]
  rfl

/-- What a node's cell becomes when a child is replaced. -/
theorem stored_node_update {u : PtrTrie α} (h : m.lookup a =
      some ⟨Function.update (fun c => root (kids c)) b (root u), v⟩)
    (hu : Stored m u) (hother : Stored m (kids !b)) :
    Stored m (node (a, v) (Function.update kids b u)) := by
  refine ⟨?_, fun c => ?_⟩
  · rw [h]
    congr 2
    funext c
    by_cases hc : c = b
    · subst hc; simp
    · simp [Function.update_of_ne hc]
  · by_cases hc : c = b
    · subst hc; simpa using hu
    · rw [Function.update_of_ne hc, Bool.eq_not.2 hc]
      exact hother

/-- Insertion under a child, seen from its parent. -/
theorem putResult_of_kid {z : α} {f : α → α} {p : List Bool} {u : PtrTrie α}
    {last : Ptr} {created : ℕ}
    (hcell : m'.lookup a = some ⟨Function.update (fun c => root (kids c)) b (root u), v⟩)
    (hu : Stored m' u) (hother : Stored m' (kids !b))
    (hvals : vals u = BitTrie.put z f p (vals (kids b)))
    (hlast : last = root (u.descend p))
    (hdescend : ∀ q, ¬ q <+: p → u.descend q = (kids b).descend q)
    (hcreated : created = 0 ↔ ((vals (kids b)).find p).isSome)
    (halloc : addrs u + m.allocated = addrs (kids b) + m'.allocated)
    (hframe : ∀ c ∈ m, lastOnPath (node (a, v) kids) (b :: p) ≠ some c →
      m'.lookup c = m.lookup c) :
    PutResult z f (b :: p) m (node (a, v) kids) last created m'
      (node (a, v) (Function.update kids b u)) where
  root_eq := rfl
  stored := stored_node_update hcell hu hother
  vals_eq := by
    rw [vals, map_node_update]
    change node v (Function.update _ b (vals u)) = _
    rw [hvals]
    rfl
  last_eq := by rw [hlast, descend_cons, kid_node, Function.update_self]
  descend_eq := fun _ hq => descend_update hdescend hq
  created_eq_zero := hcreated
  allocated := by
    have h := addrs_update (a, v) kids b u
    ext c
    have h₁ := congrArg (Multiset.count c) h
    have h₂ := congrArg (Multiset.count c) halloc
    simp only [Multiset.count_add] at h₁ h₂ ⊢
    omega
  lookup_eq := hframe

/-- Insertion below a child that is there. -/
theorem putResult_of_child {z : α} {f : α → α} {p : List Bool} {kids' : Bool → PtrTrie α}
    {u : PtrTrie α} {c : Addr} {w : α} {last : Ptr} {created : ℕ}
    (hs : Stored m (node (a, v) kids)) (hnd : (addrs (node (a, v) kids)).Nodup)
    (hk : kids b = node (c, w) kids')
    (hres : PutResult z f p m (node (c, w) kids') last created m' u) :
    PutResult z f (b :: p) m (node (a, v) kids) last created m'
      (node (a, v) (Function.update kids b u)) := by
  obtain ⟨ha, -, hdis⟩ := nodup_node hnd b
  rw [hk] at ha hdis
  have hchild : (fun d => root (kids d)) b = some c := by simp [hk]
  -- the child keeps its address, so its parent keeps its cell
  have hroot : Function.update (fun d => root (kids d)) b (root u) =
      fun d => root (kids d) := by
    rw [hres.root_eq, root_node, ← hchild, Function.update_eq_self]
  refine putResult_of_kid ?_ hres.stored ?_ (hk ▸ hres.vals_eq) hres.last_eq
    (hk ▸ hres.descend_eq) (hk ▸ hres.created_eq_zero) (hk ▸ hres.allocated) ?_
  · have hfixed : m'.lookup a = m.lookup a :=
      hres.lookup_eq a (Mem.mem_of_lookup hs.1) fun h => ha (lastOnPath_mem h)
    rw [hroot, hfixed, hs.1]
  · refine (hs.2 (!b)).congr fun d hd => ?_
    have hd' : d ∈ addrs (node (a, v) kids) := Multiset.mem_of_le (addrs_kid_le _ kids (!b)) hd
    exact hres.lookup_eq d (hs.mem_of_addrs hd')
      fun hlast => Multiset.disjoint_left.1 hdis (lastOnPath_mem hlast) hd
  · intro d hd hnot
    rw [lastOnPath_cons_node hk, hk] at hnot
    exact hres.lookup_eq d hd hnot

/-- Insertion below a zeroed child hung where there was none. -/
theorem putResult_of_missing {z : α} {f : α → α} {p : List Bool} {u : PtrTrie α} {c : Addr}
    {m₁ : Mem (Cell α)} {last : Ptr} {created : ℕ} (hs : Stored m (node (a, v) kids))
    (hnd : (addrs (node (a, v) kids)).Nodup) (hk : kids b = nil)
    (hext : m.Extends c (Cell.zero z) m₁)
    (hres : PutResult z f p
      (m₁.set a ⟨Function.update (fun d => root (kids d)) b (some c), v⟩)
      (node (c, z) fun _ => nil) last created m' u) :
    PutResult z f (b :: p) m (node (a, v) kids) last (created + 1) m'
      (node (a, v) (Function.update kids b u)) := by
  have ham : a ∈ m := Mem.mem_of_lookup hs.1
  have hac : a ≠ c := hext.ne_of_mem ham
  have ham₁ : a ∈ m₁ := Mem.mem_of_lookup ((hext.lookup_of_mem ham).trans hs.1)
  set m₂ := m₁.set a ⟨Function.update (fun d => root (kids d)) b (some c), v⟩ with hm₂
  -- the parent's cell is written once, by the hanging; the insertion goes on in the new node
  have hold : ∀ d ∈ m, d ≠ a → m₂.lookup d = m.lookup d := fun d hd hda =>
    (Mem.lookup_set_ne hda).trans (hext.lookup_of_mem hd)
  have hkeep : ∀ d ∈ m₂, d ≠ c → m'.lookup d = m₂.lookup d := fun d hd hdc =>
    hres.lookup_eq d hd fun h => hdc (by simpa [addrs] using lastOnPath_mem h)
  have hsame : ∀ d ∈ m, d ≠ a → m'.lookup d = m.lookup d := by
    intro d hd hda
    rw [hkeep d (Mem.mem_set.2 (Or.inr (hext.mem_of_mem hd))) (hext.ne_of_mem hd), hold d hd hda]
  -- a key that is not on the path leads nowhere below the new child
  have hdescend : ∀ q, ¬ q <+: p → u.descend q = (kids b).descend q := by
    intro q hq
    rw [hres.descend_eq q hq, hk, nil_descend]
    cases q with
    | nil => exact absurd List.nil_prefix hq
    | cons d q => rw [descend_cons, kid_node, nil_descend]
  refine putResult_of_kid ?_ hres.stored ?_ ?_ hres.last_eq hdescend ?_ ?_ ?_
  · rw [hkeep a (Mem.mem_set.2 (Or.inl rfl)) hac, Mem.lookup_set_self, hres.root_eq]
    rfl
  · refine (hs.2 (!b)).congr fun d hd => hsame d ?_ ?_
    · exact hs.mem_of_addrs (Multiset.mem_of_le (addrs_kid_le _ kids (!b)) hd)
    · rintro rfl
      exact (nodup_node hnd (!b)).1 hd
  · rw [hres.vals_eq, hk]
    cases p <;> rfl
  · simp [hk]
  · have hall : m₂.allocated = c ::ₘ m.allocated := by
      rw [hm₂, Mem.allocated_set_of_mem ham₁, hext.allocated]
    have h := hres.allocated
    rw [hall] at h
    ext d
    have hd := congrArg (Multiset.count d) h
    simp only [hk, addrs_nil, addrs, Multiset.count_add, Multiset.count_cons, add_zero,
      Multiset.count_zero, zero_add] at hd ⊢
    omega
  · intro d hd hnot
    refine hsame d hd ?_
    rintro rfl
    exact hnot (by rw [lastOnPath, hk]; rfl)

/-- **In-place insertion.** In a store that holds a nonempty trie without
sharing, an insertion whose allocations succeed leaves the trie with the
path added and its last payload changed. -/
theorem put_spec (A : Supply) (z : α) (f : α → α) (p : List Bool) (m : Mem (Cell α))
    (a : Addr) (v : α) (kids : Bool → PtrTrie α) (hs : Stored m (node (a, v) kids))
    (hnd : (addrs (node (a, v) kids)).Nodup) :
    ∃ last created m' t', put A.toAllocator z f p (some a) m = .ok (last, created, m') ∧
      PutResult z f p m (node (a, v) kids) last created m' t' := by
  induction p generalizing m a v kids with
  | nil =>
    have hcell := hs.1
    refine ⟨some a, 0, m.set a ⟨fun b => root (kids b), f v⟩, node (a, f v) kids, ?_,
      rfl, ?_, rfl, rfl, ?_, ?_, ?_, ?_⟩
    · simp [put, extend, Mem.modify_of_lookup hcell, Cell.mapData]
    · refine ⟨Mem.lookup_set_self _ _ _, fun b => (hs.2 b).congr fun c hc => ?_⟩
      exact Mem.lookup_set_ne fun h => (nodup_node hnd b).1 (h ▸ hc)
    · intro q hq
      cases q with
      | nil => exact absurd List.nil_prefix hq
      | cons d q => rfl
    · exact ⟨fun _ => rfl, fun _ => rfl⟩
    · rw [Mem.allocated_set_of_mem (Mem.mem_of_lookup hcell)]
      rfl
    · intro c _ hc
      exact Mem.lookup_set_ne fun h => hc (h ▸ rfl)
  | cons b p ih =>
    have hcell := hs.1
    cases hk : kids b with
    | node x kids' =>
      obtain ⟨c, w⟩ := x
      have hsk : Stored m (node (c, w) kids') := hk ▸ hs.2 b
      have hnk : (addrs (node (c, w) kids')).Nodup := hk ▸ (nodup_node hnd b).2.1
      obtain ⟨last, k, m', u, hput, hres⟩ := ih m c w kids' hsk hnk
      have hchild : (fun d => root (kids d)) b = some c := by simp [hk]
      refine ⟨last, k, m', _, ?_, putResult_of_child hs hnd hk hres⟩
      rw [put_cons_of_child hcell hchild, hput]
    | nil =>
      obtain ⟨c, m₁, halloc, hext⟩ := Mem.zalloc_supply A m (Cell.zero z)
      have ham : a ∈ m := Mem.mem_of_lookup hcell
      have hmod : m₁.modify (some a) (Cell.setChild b (some c)) =
          .ok (m₁.set a ⟨Function.update (fun d => root (kids d)) b (some c), v⟩) :=
        Mem.modify_of_lookup ((hext.lookup_of_mem ham).trans hcell)
      have hs₂ : Stored (m₁.set a ⟨Function.update (fun d => root (kids d)) b (some c), v⟩)
          (node (c, z) fun _ => (nil : PtrTrie α)) :=
        ⟨(Mem.lookup_set_ne (hext.ne_of_mem ham).symm).trans hext.lookup_self, fun _ => trivial⟩
      obtain ⟨last, k, m', u, hput, hres⟩ := ih _ c z (fun _ => nil) hs₂ (by simp [addrs])
      refine ⟨last, k + 1, m', _, ?_, putResult_of_missing hs hnd hk hext hres⟩
      rw [put_cons_of_missing hcell (by simp [hk]) halloc hmod, hput]
      rfl

end PtrTrie

end Librefw
