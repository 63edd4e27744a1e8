import Librefw.Kernel.Model.State

/-!
# The flag between its functions

The published object is allocated and holds the flag, and the objects that
wait to be freed are allocated, none of them twice and none of them
published.
-/

namespace Librefw

variable {c : LfwStateCell} {flag : Bool} {a : Addr} {olds : List Addr}

/-- The invariant of the state cell, with the flag it publishes at `a`. -/
structure LfwStateInv (c : LfwStateCell) (flag : Bool) (a : Addr) (olds : List Addr) : Prop where
  state_eq : c.state = some a
  published : c.mem.lookup a = some ⟨flag⟩
  rcu_eq : c.rcu = olds.map some
  allocated_le : a ::ₘ (olds : Multiset Addr) ≤ c.mem.allocated

theorem lfwInitStateCell_spec (A : Supply) :
    ∃ c a, lfwInitStateCell A.toAllocator = .ok c ∧ LfwStateInv c false a [] := by
  obtain ⟨a, m, halloc, hext⟩ := Mem.zalloc_supply A (Mem.empty : Mem LfwState) ⟨false⟩
  refine ⟨⟨m, some a, []⟩, a, ?_, rfl, hext.lookup_self, rfl, ?_⟩
  · simp only [lfwInitStateCell, halloc, pure_eq_ok]
  · simp [hext.allocated]

theorem LfwStateInv.isUnderAttack (h : LfwStateInv c flag a olds) :
    lfwStateIsUnderAttack c = .ok flag := by
  rw [lfwStateIsUnderAttack, h.state_eq, Mem.load_of_lookup h.published]
  rfl

/-- **Setting the flag** publishes it, and the old object waits. -/
theorem LfwStateInv.set (h : LfwStateInv c flag a olds) (A : Supply) (new_value : Bool) :
    ∃ c' b, lfwStateSetUnderAttack A.toAllocator new_value c = .ok (0, c') ∧
      LfwStateInv c' new_value b (olds ++ [a]) := by
  obtain ⟨b, m, halloc, hext⟩ := Mem.zalloc_supply A c.mem ⟨false⟩
  have hold : m.lookup a = some ⟨flag⟩ :=
    (hext.lookup_of_mem (Mem.mem_of_lookup h.published)).trans h.published
  have hstored : (m.set b ⟨flag⟩).lookup b = some ⟨flag⟩ := Mem.lookup_set_self m b _
  refine ⟨⟨(m.set b ⟨flag⟩).set b ⟨new_value⟩, some b, c.rcu ++ [c.state]⟩, b, ?_, rfl,
    Mem.lookup_set_self _ b _, ?_, ?_⟩
  · simp only [lfwStateSetUnderAttack, halloc, h.state_eq, Mem.load_of_lookup hold, ok_bind,
      Mem.store_of_mem hext.mem_self, Mem.modify_of_lookup hstored, pure_eq_ok]
  · rw [h.rcu_eq, h.state_eq, List.map_append]
    rfl
  · have hmem : b ∈ m.set b ⟨flag⟩ := Mem.mem_of_lookup hstored
    rw [Mem.allocated_set_of_mem hmem, Mem.allocated_set_of_mem hext.mem_self, hext.allocated,
      ← Multiset.coe_add, Multiset.coe_singleton, add_comm, Multiset.singleton_add]
    exact Multiset.cons_le_cons b h.allocated_le

/-- The end of a grace period leaves the flag alone. -/
theorem LfwStateInv.kfreeRcu (h : LfwStateInv c flag a olds) (i : ℕ) :
    ∃ c' olds', lfwStateKfreeRcu i c = .ok c' ∧ LfwStateInv c' flag a olds' := by
  have hle := h.allocated_le
  unfold lfwStateKfreeRcu
  rw [h.rcu_eq, List.getElem?_map]
  cases hi : olds[i]? with
  | none => exact ⟨c, olds, rfl, h⟩
  | some b =>
    obtain ⟨hlt, hb⟩ := List.getElem?_eq_some_iff.1 hi
    have hperm : (olds : Multiset Addr) = b ::ₘ (olds.eraseIdx i : Multiset Addr) := by
      rw [Multiset.cons_coe, Multiset.coe_eq_coe, ← hb]
      exact (List.getElem_cons_eraseIdx_perm hlt).symm
    rw [hperm, Multiset.cons_swap] at hle
    have hnd := Multiset.nodup_of_le hle c.mem.nodup_allocated
    have hmem : b ∈ c.mem := Mem.mem_allocated.1 (Multiset.mem_of_le hle (Multiset.mem_cons_self _ _))
    have hne : a ≠ b := by
      rintro rfl
      exact (Multiset.nodup_cons.1 hnd).1 (Multiset.mem_cons_self _ _)
    refine ⟨⟨c.mem.erase b, c.state, c.rcu.eraseIdx i⟩, olds.eraseIdx i, ?_, h.state_eq, ?_, ?_, ?_⟩
    · simp only [Option.map_some, Mem.free_of_mem hmem, ok_bind, pure_eq_ok, h.rcu_eq]
    · rw [Mem.lookup_erase_ne hne, h.published]
    · rw [h.rcu_eq, List.eraseIdx_map]
    · rw [Mem.allocated_erase]
      have herase := Multiset.erase_le_erase b hle
      rwa [Multiset.erase_cons_head] at herase

end Librefw
