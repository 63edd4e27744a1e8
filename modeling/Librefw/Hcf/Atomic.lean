import Librefw.Hcf.Complete

/-!
# Updates where memory runs out

A register work asks for a node at the root and at each of the 24 steps
below it, cloned or new; a history for its root and for what its entries
need. Only the root of a history is checked. An update is atomic if it
returns, and undoes itself where a request of it was denied
(`HcfAtomic`); it is exactly where nothing is denied, or the root of a
history is (`hcfUpdates_atomic_iff`).
-/

namespace Librefw

open PtrTrie

variable {e : Endian} {A : Allocator} {s s' : HcfState} {t : PtrTrie HcfMeta} {m m' : Mem HcfNode}

/-- The tree is as it was, no node of it is queued, and what is allocated is what was. -/
structure HcfUndone (s s' : HcfState) : Prop where
  tree_eq : s'.tree = s.tree
  rcu_eq : s'.rcu = s.rcu
  mem_eq : s'.mem.objs = s.mem.objs

/-- One of the requests between two states was denied. -/
def HcfDenied (A : Allocator) (s s' : HcfState) : Prop :=
  ¬ s.mem.Grants A (s'.mem.tick - s.mem.tick)

/-- An update that returns, and has changed nothing if a request of it was denied. -/
def HcfAtomic {β : Type} (A : Allocator) (s : HcfState) (run : Except Fault (β × HcfState)) :
    Prop :=
  ∃ x s', run = .ok (x, s') ∧ (HcfDenied A s s' → HcfUndone s s')

/-- The nodes of the tree of a history: one for each initial segment of the 24 bits of an
entry, the root among them. -/
def hcfNodeCount (entries : List HcfHistoryEntry) : ℕ :=
  (insert [] (entries.flatMap fun x => (ipPath x.ip_addr 24).inits).toFinset).card

theorem not_hcfAtomic_of_error {β : Type} (err : Fault) {run : Except Fault (β × HcfState)}
    (h : run = .error err) : ¬ HcfAtomic A s run := by
  rintro ⟨x, s', hrun, -⟩
  rw [h] at hrun
  cases hrun

/-- Everything that was asked for was granted. -/
theorem not_hcfDenied {n : ℕ} {x : ℕ × Finset Addr} (h : A.serve n s.mem.asked = some x)
    (hx : s'.mem.tick = x.1) : ¬ HcfDenied A s s' := by
  have htick : x.1 = s.mem.tick + n := (Allocator.serve_count h).1
  rw [HcfDenied, hx, htick, Nat.add_sub_cancel_left, not_not, Mem.Grants, h]
  rfl

/-! ## A register work -/

/-- **Where a register work is atomic.** -/
theorem HcfInv.work_atomic_iff (h : HcfInv s t) (A : Allocator) (task : HcfAddNodeTask) :
    HcfAtomic A s (hcfRegisterIpWork A task s) ↔ s.mem.Grants A 25 := by
  obtain ⟨pub, m, hcomplete, hserve⟩ :=
    hcfRegisterIpLocked_serve A task h.stored h.ne_nil h.nodup
  rw [h.root_eq] at hserve hcomplete
  obtain ⟨s', t', hwork, -⟩ := hcfRegisterIpWork_spec A.complete task h
  rcases hserve with ⟨hs, hrun⟩ | ⟨hs, hrun⟩
  · refine iff_of_true ⟨hcfAnnounced (vals t) task, s', ?_, fun hdenied => ?_⟩ (by simp [Mem.Grants, hs])
    · rw [← hwork, hcfRegisterIpWork, hcfRegisterIpWork, hrun, hcomplete]
    · refine absurd hdenied (not_hcfDenied hs ?_)
      rw [hcfRegisterIpWork, hcomplete, ok_bind] at hwork
      obtain ⟨announced, -, hwork⟩ := bind_eq_ok.1 hwork
      obtain ⟨-, rfl⟩ := Prod.mk.inj (Except.ok.inj hwork)
      rfl
  · refine iff_of_false (not_hcfAtomic_of_error .nullDeref ?_) (by simp [Mem.Grants, hs])
    rw [hcfRegisterIpWork, hrun]
    rfl

/-! ## A history -/

/-- A history with its root: the entries, and the swap. -/
theorem hcfRegisterIpHistory_some {a : Addr} {info : GenlInfo}
    (hz : hcfCreateNode A s.mem = (some a, m)) :
    hcfRegisterIpHistory e A info s =
      putAll A HcfMeta.zero (some a) ((hcfHistoryEntries e info).map HcfHistoryEntry.put) m >>=
        fun m => hcfSwapTree (some a) { s with mem := m } >>= fun s => pure (0, s) := by
  simp only [hcfRegisterIpHistory, hz, hcfInsertEntries_eq]

/-- A swap asks for nothing. -/
theorem hcfSwapTree_tick {new_tree : Ptr} (h : hcfSwapTree new_tree s = .ok s') :
    s'.mem.tick = s.mem.tick := by
  obtain ⟨m, hfree, h⟩ := bind_eq_ok.1 h
  obtain rfl := Except.ok.inj h
  exact freeTree_tick hfree

/-- **Where a history is atomic.** -/
theorem HcfInv.history_atomic_iff (h : HcfInv s t) (e : Endian) (A : Allocator) (info : GenlInfo) :
    HcfAtomic A s (hcfRegisterIpHistory e A info s) ↔
      (s.mem.Grants A 1 → s.mem.Grants A (hcfNodeCount (hcfHistoryEntries e info))) := by
  rcases Mem.zalloc_cases A s.mem (Cell.zero HcfMeta.zero) with ⟨a, m₁, hz, hext⟩ | hz
  · have hone : s.mem.Grants A 1 := Mem.grants_one.2 ⟨a, m₁, hz⟩
    have hzc : hcfCreateNode A.complete.toAllocator s.mem = (some a, m₁) := hcfCreateNode_complete hz
    have hs₁ : Stored m₁ (hcfBlank a) := stored_hcfBlank hext.lookup_self
    obtain ⟨m₂, t', hput, -⟩ := putAll_spec A.complete HcfMeta.zero
      ((hcfHistoryEntries e info).map HcfHistoryEntry.put) hs₁ (by simp [hcfBlank])
      (by simp [addrs_hcfBlank])
    obtain ⟨n, hn, hserve⟩ := putAll_serve A.le_complete hput
    have hcount : hcfNodeCount (hcfHistoryEntries e info) = n + 1 := by
      have hcount := putAll_count hs₁ hput hn
      rwa [List.flatMap_map] at hcount
    have hnodes : A.serve (n + 1) s.mem.asked = A.serve n m₁.asked := Mem.serve_of_some hz n
    simp only [hone, true_imp_iff, hcount]
    rcases hserve with ⟨hs, hrun⟩ | ⟨hs, hrun⟩
    · -- the run is the one from a supply, and asks for no more than its build
      obtain ⟨s', t₁, a₁, hhist, -⟩ := hcfRegisterIpHistory_spec e A.complete info h
      have hsame : hcfRegisterIpHistory e A info s = .ok (0, s') := by
        rw [← hhist, hcfRegisterIpHistory_some hz, hcfRegisterIpHistory_some hzc, hrun]
        exact congrArg (· >>= _) hput.symm
      rw [hcfRegisterIpHistory_some hz, hrun, ok_bind] at hsame
      obtain ⟨s₁, hswap, hpure⟩ := bind_eq_ok.1 hsame
      obtain ⟨-, rfl⟩ := Prod.mk.inj (Except.ok.inj hpure)
      refine iff_of_true ⟨0, s₁, ?_, fun hdenied => ?_⟩ (by simp [Mem.Grants, hnodes, hs])
      · rw [hcfRegisterIpHistory_some hz, hrun]
        exact hsame
      · exact absurd hdenied (not_hcfDenied (hnodes.trans hs) (hcfSwapTree_tick hswap))
    · refine iff_of_false (not_hcfAtomic_of_error .nullDeref ?_)
        (by simp [Mem.Grants, hnodes, hs])
      rw [hcfRegisterIpHistory_some hz, hrun]
      rfl
  · -- without a root the history is refused, and nothing has changed
    have hrun : hcfRegisterIpHistory e A info s =
        .ok (-ENOMEM, { s with mem := { s.mem with tick := s.mem.tick + 1 } }) := by
      simp only [hcfRegisterIpHistory, hcfCreateNode, hz, pure_eq_ok]
    refine iff_of_true ⟨_, _, hrun, fun _ => ⟨rfl, rfl, rfl⟩⟩ fun hone => ?_
    obtain ⟨b, m', hsome⟩ := (Mem.grants_one (v := Cell.zero HcfMeta.zero)).1 hone
    rw [hz] at hsome
    cases hsome

/-! ## Both -/

/-- **Where the updates are atomic.** For every live tree, every task and every history, and
whatever the allocator denies. -/
theorem hcfUpdates_atomic_iff (e : Endian) (A : Allocator) (h : HcfInv s t) :
    (∀ task, HcfAtomic A s (hcfRegisterIpWork A task s) ↔ s.mem.Grants A 25) ∧
    ∀ info, HcfAtomic A s (hcfRegisterIpHistory e A info s) ↔
      (s.mem.Grants A 1 → s.mem.Grants A (hcfNodeCount (hcfHistoryEntries e info))) :=
  ⟨h.work_atomic_iff A, h.history_atomic_iff e A⟩

/-- With everything granted the first task and a first history are atomic. -/
theorem hcfUpdates_atomic_iff_sample :
    HcfAtomic Supply.next.toAllocator hcfFirstState
        (hcfRegisterIpWork Supply.next.toAllocator ⟨0x0A000001#32, 60⟩ hcfFirstState) ∧
      HcfAtomic Supply.next.toAllocator hcfFirstState
        (hcfRegisterIpHistory .little Supply.next.toAllocator hcfSampleHistory hcfFirstState) := by
  obtain ⟨a, h⟩ := hcfFirstState_inv
  obtain ⟨hwork, hhist⟩ := hcfUpdates_atomic_iff .little Supply.next.toAllocator h
  exact ⟨(hwork _).2 (by decide +kernel), (hhist _).2 (by decide +kernel)⟩

/-- With the third request denied, a task for `10.0.0.1` dereferences NULL. -/
theorem hcfUpdates_atomic_denied :
    ¬ ∀ (e : Endian) (A : Allocator) (s : HcfState) (t : PtrTrie HcfMeta), HcfInv s t →
      (∀ task, HcfAtomic A s (hcfRegisterIpWork A task s)) ∧
      ∀ info, HcfAtomic A s (hcfRegisterIpHistory e A info s) := by
  intro h
  obtain ⟨a, hinv⟩ := hcfFirstState_inv
  have hrun : hcfRegisterIpWork (Supply.next.denying 3) ⟨0x0A000001#32, 60⟩ hcfFirstState =
      .error .nullDeref := by rfl
  exact not_hcfAtomic_of_error _ hrun ((h .little (Supply.next.denying 3) _ _ hinv).1 _)

end Librefw
