import Librefw.Common.TrieMem

/-!
# Reading and releasing a stored trie

`walk` follows child pointers along a path and stops at NULL; on a stored
trie it ends at the subtrie of that key (`walk_spec`). `freeTree` is the
recursive release of a whole trie, children first; on a stored trie
without sharing it frees exactly the footprint, each node once
(`freeTree_spec`), given a stack as deep as the trie is high.
-/

namespace Librefw

namespace PtrTrie

open BitTrie

variable {α : Type} {m m' : Mem (Cell α)} {t : PtrTrie α} {kids : Bool → PtrTrie α}
variable {a : Addr} {v : α}

/-- Follow the children along a path, as far as there are any. -/
def walk (m : Mem (Cell α)) : List Bool → Ptr → Except Fault Ptr
  | [], runner => pure runner
  | b :: p, runner => do
    let n ← m.load runner
    match n.child b with
    | none => pure none
    | some c => walk m p (some c)

/-- **A walk ends at the subtrie of its key.** -/
theorem walk_spec (h : Stored m t) (hne : t ≠ nil) (p : List Bool) :
    walk m p (root t) = .ok (root (t.descend p)) := by
  induction p generalizing t with
  | nil => rfl
  | cons b p ih =>
    cases t with
    | nil => exact absurd rfl hne
    | node x kids =>
      rw [walk, root_node, Mem.load_of_lookup h.1, ok_bind, descend_cons, kid_node]
      cases hk : kids b with
      | nil => simp [hk]
      | node y kids' =>
        have hs : Stored m (node y kids') := hk ▸ h.2 b
        simpa [hk] using ih hs (by simp)

/-- What the node at the end of a key holds. -/
theorem Stored.lookup_root (h : Stored m t) (hr : root t = some a) :
    ∃ n, m.lookup a = some n ∧ (vals t).val? = some n.data := by
  obtain ⟨w, kids, rfl⟩ := root_eq_some.1 hr
  exact ⟨_, h.1, rfl⟩

/-- The node at the end of a key holds what is found there. -/
theorem Stored.data_of_descend (h : Stored m t) {p : List Bool}
    (hr : root (t.descend p) = some a) :
    ∃ n, m.lookup a = some n ∧ (vals t).find p = some n.data := by
  obtain ⟨n, hn, hv⟩ := (h.descend p).lookup_root hr
  refine ⟨n, hn, ?_⟩
  rw [find, vals, descend_map]
  exact hv

/-- Nothing is found at a key the trie does not reach. -/
theorem find_eq_none_of_descend {p : List Bool} (hr : root (t.descend p) = none) :
    (vals t).find p = none := by
  rw [vals, find_map, find, root_eq_none.1 hr]
  rfl

/-- Free a whole trie: its first child's, its second child's, the node. The
bound is the depth of the stack. -/
def freeTree : ℕ → Ptr → Mem (Cell α) → Except Fault (Mem (Cell α))
  | _, none, m => pure m
  | 0, some _, _ => throw .stackOverflow
  | depth + 1, some a, m => do
    let n ← m.load (some a)
    let m ← freeTree depth (n.child false) m
    let n ← m.load (some a)
    let m ← freeTree depth (n.child true) m
    m.free a

/-- **Releasing a trie frees its footprint and nothing else.** -/
theorem freeTree_spec (depth : ℕ) (hs : Stored m t) (hnd : (addrs t).Nodup)
    (hd : height t ≤ depth) :
    ∃ m', freeTree depth (root t) m = .ok m' ∧ addrs t + m'.allocated = m.allocated ∧
      ∀ c, c ∉ addrs t → m'.lookup c = m.lookup c := by
  induction depth generalizing m t with
  | zero =>
    cases t with
    | nil => exact ⟨m, rfl, zero_add _, fun _ _ => rfl⟩
    | node x kids => simp [height] at hd
  | succ depth ih =>
    cases t with
    | nil => exact ⟨m, by cases depth <;> rfl, zero_add _, fun _ _ => rfl⟩
    | node x kids =>
      obtain ⟨a, v⟩ := x
      obtain ⟨ha₀, hnd₀, hdis⟩ := nodup_node hnd false
      obtain ⟨ha₁, hnd₁, -⟩ := nodup_node hnd true
      have hh : height (kids false) ≤ depth ∧ height (kids true) ≤ depth := by
        simp only [height] at hd
        omega
      -- the first child's nodes go, and leave the node and the second child's alone
      obtain ⟨m₁, hrun₁, hall₁, hkeep₁⟩ := ih (hs.2 false) hnd₀ hh.1
      have hcell₁ : m₁.lookup a = some ⟨fun b => root (kids b), v⟩ := (hkeep₁ a ha₀).trans hs.1
      have hs₁ : Stored m₁ (kids true) := (hs.2 true).congr fun c hc =>
        hkeep₁ c fun hc' => Multiset.disjoint_left.1 hdis hc' hc
      obtain ⟨m₂, hrun₂, hall₂, hkeep₂⟩ := ih hs₁ hnd₁ hh.2
      have hcell₂ : m₂.lookup a = some ⟨fun b => root (kids b), v⟩ := (hkeep₂ a ha₁).trans hcell₁
      refine ⟨m₂.erase a, ?_, ?_, fun c hc => ?_⟩
      · simp [freeTree, Mem.load_of_lookup hs.1, hrun₁, Mem.load_of_lookup hcell₁, hrun₂,
          Mem.free_of_mem (Mem.mem_of_lookup hcell₂)]
      · have ham : a ∈ m₂.allocated := Mem.mem_allocated.2 (Mem.mem_of_lookup hcell₂)
        have herase : a ::ₘ (m₂.erase a).allocated = m₂.allocated := by
          rw [Mem.allocated_erase, Multiset.cons_erase ham]
        rw [← hall₁, ← hall₂, ← herase, addrs]
        simp only [Multiset.cons_add, Multiset.add_cons, add_assoc]
      · rw [addrs, Multiset.mem_cons, Multiset.mem_add, not_or, not_or] at hc
        rw [Mem.lookup_erase_ne hc.1, hkeep₂ c hc.2.2, hkeep₁ c hc.2.1]

/-- Releasing allocates nothing. -/
theorem freeTree_le {depth : ℕ} {r : Ptr} {m' : Mem (Cell α)}
    (hrun : freeTree depth r m = .ok m') : m'.allocated ≤ m.allocated := by
  induction depth generalizing r m m' with
  | zero =>
    cases r with
    | none => exact (congrArg Mem.allocated (Except.ok.inj hrun)).ge
    | some a => cases hrun
  | succ depth ih =>
    cases r with
    | none => exact (congrArg Mem.allocated (Except.ok.inj hrun)).ge
    | some a =>
      obtain ⟨n, -, hrun⟩ := bind_eq_ok.1 hrun
      obtain ⟨m₁, hfirst, hrun⟩ := bind_eq_ok.1 hrun
      obtain ⟨n', -, hrun⟩ := bind_eq_ok.1 hrun
      obtain ⟨m₂, hsecond, hrun⟩ := bind_eq_ok.1 hrun
      have hfree : m'.allocated ≤ m₂.allocated := by
        unfold Mem.free at hrun
        split at hrun
        · obtain rfl := Except.ok.inj hrun
          rw [Mem.allocated_erase]
          exact Multiset.erase_le _ _
        · cases hrun
      exact hfree.trans ((ih hsecond).trans (ih hfirst))

end PtrTrie

end Librefw
