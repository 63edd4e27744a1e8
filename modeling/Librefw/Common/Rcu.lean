import Librefw.Common.Footprint

/-!
# Versions and read sections

Read-copy-update without memory: a value is published and replaced by
others, a replaced one is retired, and a retired one is reclaimed when
every section that began before it was retired has ended. A section holds
the version it loaded. `Rcu.Safe` is what makes this sound, a version that
is held is the current one, one about to be retired, or one whose
reclamation counts the section; every operation keeps it, so a version
reclaimed on time is held by nobody (`Rcu.Safe.not_held`).

A component shows its state as an `Rcu` and its steps as these operations.
Where it keeps the queue and the stamps as two lists and its readers as a
third, `Rcu.shown` is what it shows, and the `shown_` lemmas are the steps.
-/

namespace Librefw

/-- Two lists in step, an entry of each dropped. -/
theorem zip_eraseIdx {α β : Type} (l : List α) (l' : List β) (i : ℕ) :
    (l.eraseIdx i).zip (l'.eraseIdx i) = (l.zip l').eraseIdx i := by
  induction l generalizing l' i with
  | nil => simp
  | cons x l ih =>
    cases l' with
    | nil => simp
    | cons y l' =>
      cases i with
      | zero => rfl
      | succ i =>
        simp only [List.eraseIdx_cons_succ, List.zip_cons_cons, ih]

/-- An entry replaced by itself. -/
theorem set_self {α : Type} {l : List α} {x : α} {i : ℕ} (h : l[i]? = some x) : l.set i x = l := by
  obtain ⟨hlt, rfl⟩ := List.getElem?_eq_some_iff.1 h
  exact List.set_getElem_self hlt

/-- A read section: its number, and the version it has loaded. -/
structure RcuSection (V : Type) where
  id : ℕ
  held : Option V

/-- Versions and sections. Sections are numbered by the clock as they begin; a version
retired carries the clock of that moment. -/
structure Rcu (V : Type) where
  current : V
  replaced : List V
  retired : List (V × ℕ)
  clock : ℕ
  sections : List (RcuSection V)

namespace Rcu

variable {V : Type} {x : Rcu V} {v w : V} {i n k : ℕ}

/-- Every section that began before `stamp` has ended. -/
def GraceOver (x : Rcu V) (stamp : ℕ) : Prop := ∀ q ∈ x.sections, stamp ≤ q.id

/-- A version that the section `n` may hold. -/
def Kept (x : Rcu V) (n : ℕ) (v : V) : Prop :=
  v = x.current ∨ v ∈ x.replaced ∨ ∃ k, n < k ∧ (v, k) ∈ x.retired

/-- Sections hold what they may. -/
structure Safe (x : Rcu V) : Prop where
  begun : ∀ q ∈ x.sections, q.id < x.clock
  kept : ∀ q ∈ x.sections, ∀ v ∈ q.held, x.Kept q.id v

/-! ## The operations -/

/-- A new version is published. -/
def publish (w : V) (x : Rcu V) : Rcu V :=
  { x with current := w, replaced := x.replaced ++ [x.current] }

/-- The `i`-th version replaced is retired. -/
def retire (i : ℕ) (x : Rcu V) : Rcu V :=
  match x.replaced[i]? with
  | none => x
  | some v =>
    { x with replaced := x.replaced.eraseIdx i, retired := x.retired ++ [(v, x.clock)] }

/-- The `i`-th version retired is reclaimed. -/
def reclaim (i : ℕ) (x : Rcu V) : Rcu V := { x with retired := x.retired.eraseIdx i }

/-- A section begins. -/
def enter (x : Rcu V) : Rcu V :=
  { x with sections := x.sections ++ [⟨x.clock, none⟩], clock := x.clock + 1 }

/-- The `i`-th section loads the current version. -/
def load (i : ℕ) (x : Rcu V) : Rcu V :=
  match x.sections[i]? with
  | none => x
  | some q => { x with sections := x.sections.set i ⟨q.id, some x.current⟩ }

/-- The `i`-th section ends. -/
def leave (i : ℕ) (x : Rcu V) : Rcu V := { x with sections := x.sections.eraseIdx i }

/-! ## They are safe -/

theorem Kept.publish (h : x.Kept n v) : (x.publish w).Kept n v := by
  rcases h with rfl | h | h
  · exact Or.inr (Or.inl (List.mem_append_right _ (List.mem_singleton_self _)))
  · exact Or.inr (Or.inl (List.mem_append_left _ h))
  · exact Or.inr (Or.inr h)

theorem Kept.retire (h : x.Kept n v) (hn : n < x.clock) : (x.retire i).Kept n v := by
  unfold Rcu.retire
  cases hi : x.replaced[i]? with
  | none => exact h
  | some w =>
    rcases h with h | h | ⟨k, hk, h⟩
    · exact Or.inl h
    · by_cases heq : v = w
      · -- it is retired after the section began
        subst heq
        exact Or.inr (Or.inr ⟨x.clock, hn, List.mem_append_right _ (List.mem_singleton_self _)⟩)
      · exact Or.inr (Or.inl (mem_eraseIdx_of_ne hi h heq))
    · exact Or.inr (Or.inr ⟨k, hk, List.mem_append_left _ h⟩)

theorem Kept.reclaim (h : x.Kept n v) (hi : x.retired[i]? = some (w, k)) (hk : k ≤ n) :
    (x.reclaim i).Kept n v := by
  rcases h with h | h | ⟨j, hj, h⟩
  · exact Or.inl h
  · exact Or.inr (Or.inl h)
  · refine Or.inr (Or.inr ⟨j, hj, mem_eraseIdx_of_ne hi h fun heq => ?_⟩)
    obtain ⟨-, rfl⟩ := Prod.mk.inj heq
    omega

namespace Safe

theorem publish (h : x.Safe) (w : V) : (x.publish w).Safe where
  begun := h.begun
  kept := fun q hq v hv => (h.kept q hq v hv).publish

theorem retire (h : x.Safe) (i : ℕ) : (x.retire i).Safe := by
  have hsections : (x.retire i).sections = x.sections ∧ (x.retire i).clock = x.clock := by
    unfold Rcu.retire
    cases x.replaced[i]? <;> exact ⟨rfl, rfl⟩
  refine ⟨fun q hq => ?_, fun q hq v hv => ?_⟩
  · rw [hsections.1] at hq
    rw [hsections.2]
    exact h.begun q hq
  · rw [hsections.1] at hq
    exact (h.kept q hq v hv).retire (h.begun q hq)

theorem reclaim (h : x.Safe) (hi : x.retired[i]? = some (w, k)) (hgrace : x.GraceOver k) :
    (x.reclaim i).Safe where
  begun := h.begun
  kept := fun q hq v hv => (h.kept q hq v hv).reclaim hi (hgrace q hq)

theorem enter (h : x.Safe) : x.enter.Safe := by
  refine ⟨fun q hq => ?_, fun q hq v hv => ?_⟩
  · rcases List.mem_append.1 hq with hq | hq
    · exact Nat.lt_succ_of_lt (h.begun q hq)
    · obtain rfl := List.mem_singleton.1 hq
      exact Nat.lt_succ_self _
  · rcases List.mem_append.1 hq with hq | hq
    · exact h.kept q hq v hv
    · obtain rfl := List.mem_singleton.1 hq
      exact absurd hv (Option.not_mem_none v)

theorem load (h : x.Safe) (i : ℕ) : (x.load i).Safe := by
  unfold Rcu.load
  cases hi : x.sections[i]? with
  | none => exact h
  | some q₀ =>
    have hq₀ : q₀ ∈ x.sections := List.mem_of_getElem? hi
    refine ⟨fun q hq => ?_, fun q hq v hv => ?_⟩
    · rcases List.mem_or_eq_of_mem_set hq with hq | rfl
      · exact h.begun q hq
      · exact h.begun q₀ hq₀
    · rcases List.mem_or_eq_of_mem_set hq with hq | rfl
      · exact h.kept q hq v hv
      · obtain rfl := Option.mem_some_iff.1 hv
        exact Or.inl rfl

theorem leave (h : x.Safe) (i : ℕ) : (x.leave i).Safe where
  begun := fun q hq => h.begun q (List.mem_of_mem_eraseIdx hq)
  kept := fun q hq => h.kept q (List.mem_of_mem_eraseIdx hq)

/-- **Reclaimed on time, held by nobody**: where no version is there twice, none
that is retired can be the current one or another. -/
theorem not_held (h : x.Safe) (hnd : (x.current :: (x.replaced ++ x.retired.map Prod.fst)).Nodup)
    (hi : x.retired[i]? = some (w, k)) (hgrace : x.GraceOver k) :
    ∀ q ∈ x.sections, w ∉ q.held := by
  intro q hq hw
  have hmem : (w, k) ∈ x.retired := List.mem_of_getElem? hi
  have hfst : w ∈ x.retired.map Prod.fst := List.mem_map.2 ⟨(w, k), hmem, rfl⟩
  rw [List.nodup_cons, List.nodup_append] at hnd
  obtain ⟨hcur, -, hret, hdis⟩ := hnd
  rcases h.kept q hq w hw with rfl | hrep | ⟨j, hj, hin⟩
  · exact hcur (List.mem_append_right _ hfst)
  · exact hdis w hrep w hfst rfl
  · -- the one it waits for is this one
    have hone := List.inj_on_of_nodup_map hret hin hmem rfl
    obtain ⟨-, rfl⟩ := Prod.mk.inj hone
    have := hgrace q hq
    omega

end Safe

/-! ## Components -/

section Shown

variable {R : Type} {f : R → RcuSection V} {replaced queue : List V} {stamps : List ℕ}
variable {clock : ℕ} {readers : List R} {r r' : R}

/-- The versions there are. -/
def versions (v : V) (replaced queue : List V) : Multiset V :=
  v ::ₘ ((replaced : Multiset V) + (queue : Multiset V))

/-- What a component shows: the versions retired are its queue, and its readers are in
sections. -/
def shown (f : R → RcuSection V) (v : V) (replaced queue : List V) (stamps : List ℕ)
    (clock : ℕ) (readers : List R) : Rcu V where
  current := v
  replaced := replaced
  retired := queue.zip stamps
  clock := clock
  sections := readers.map f

theorem versions_publish (v w : V) (replaced queue : List V) :
    versions w (replaced ++ [v]) queue = w ::ₘ versions v replaced queue := by
  unfold versions
  rw [← Multiset.coe_add, Multiset.coe_singleton, add_assoc, Multiset.singleton_add,
    Multiset.add_cons]

theorem versions_retire (hi : replaced[i]? = some w) :
    versions v (replaced.eraseIdx i) (queue ++ [w]) = versions v replaced queue := by
  unfold versions
  rw [coe_eraseIdx hi, Multiset.cons_add, ← Multiset.coe_add, Multiset.coe_singleton,
    add_comm (queue : Multiset V), Multiset.singleton_add, Multiset.add_cons]

theorem versions_reclaim (hi : queue[i]? = some w) :
    versions v replaced queue = w ::ₘ versions v replaced (queue.eraseIdx i) := by
  unfold versions
  rw [coe_eraseIdx hi, Multiset.add_cons, Multiset.cons_swap]

namespace Safe

/-- What a reader holds is a version. -/
theorem mem_versions (h : (shown f v replaced queue stamps clock readers).Safe)
    (hr : r ∈ readers) (hw : w ∈ (f r).held) : w ∈ versions v replaced queue := by
  rcases h.kept (f r) (List.mem_map_of_mem hr) w hw with rfl | hin | ⟨k, -, hin⟩
  · exact Multiset.mem_cons_self _ _
  · exact Multiset.mem_cons_of_mem (Multiset.mem_add.2 (Or.inl hin))
  · exact Multiset.mem_cons_of_mem (Multiset.mem_add.2 (Or.inr (List.of_mem_zip hin).1))

theorem shown_retire (h : (shown f v replaced queue stamps clock readers).Safe)
    (hlen : stamps.length = queue.length) (hi : replaced[i]? = some w) :
    (shown f v (replaced.eraseIdx i) (queue ++ [w]) (stamps ++ [clock]) clock readers).Safe := by
  have hretire := h.retire i
  unfold Rcu.retire shown at hretire
  simp only [hi] at hretire
  unfold shown
  rw [List.zip_append hlen.symm]
  exact hretire

/-- The readers that are left began after the version was retired. -/
theorem shown_reclaim (h : (shown f v replaced queue stamps clock readers).Safe)
    (hi : queue[i]? = some w) (hk : stamps[i]? = some k) (hgrace : ∀ r ∈ readers, k ≤ (f r).id) :
    (shown f v replaced (queue.eraseIdx i) (stamps.eraseIdx i) clock readers).Safe := by
  have hover : (shown f v replaced queue stamps clock readers).GraceOver k := fun q hq => by
    obtain ⟨r, hr, rfl⟩ := List.mem_map.1 hq
    exact hgrace r hr
  have hreclaim := h.reclaim (List.getElem?_zip_eq_some.2 ⟨hi, hk⟩) hover
  unfold Rcu.reclaim shown at hreclaim
  simp only [← zip_eraseIdx] at hreclaim
  exact hreclaim

/-- **Reclaimed on time, held by no reader.** -/
theorem shown_not_held (h : (shown f v replaced queue stamps clock readers).Safe)
    (hlen : stamps.length = queue.length) (hnd : (versions v replaced queue).Nodup)
    (hi : queue[i]? = some w) (hk : stamps[i]? = some k) (hgrace : ∀ r ∈ readers, k ≤ (f r).id)
    (hr : r ∈ readers) : w ∉ (f r).held := by
  have hover : (shown f v replaced queue stamps clock readers).GraceOver k := fun q hq => by
    obtain ⟨r, hr, rfl⟩ := List.mem_map.1 hq
    exact hgrace r hr
  refine h.not_held ?_ (List.getElem?_zip_eq_some.2 ⟨hi, hk⟩) hover (f r) (List.mem_map_of_mem hr)
  have hfst : (queue.zip stamps).map Prod.fst = queue := List.map_fst_zip (le_of_eq hlen.symm)
  unfold shown
  rw [hfst]
  exact Multiset.coe_nodup.1 hnd

theorem shown_enter (h : (shown f v replaced queue stamps clock readers).Safe)
    (hr : f r = ⟨clock, none⟩) :
    (shown f v replaced queue stamps (clock + 1) (readers ++ [r])).Safe := by
  have henter := h.enter
  unfold Rcu.enter shown at henter
  unfold shown
  rw [List.map_append, List.map_singleton, hr]
  exact henter

/-- A reader loads the current version. -/
theorem shown_load (h : (shown f v replaced queue stamps clock readers).Safe)
    (hi : readers[i]? = some r) (hr : f r' = ⟨(f r).id, some v⟩) :
    (shown f v replaced queue stamps clock (readers.set i r')).Safe := by
  have hload := h.load i
  have hsec : (readers.map f)[i]? = some (f r) := by rw [List.getElem?_map, hi, Option.map_some]
  unfold Rcu.load shown at hload
  simp only [hsec] at hload
  unfold shown
  rw [List.map_set, hr]
  exact hload

/-- A reader goes on with what it holds. -/
theorem shown_stay (h : (shown f v replaced queue stamps clock readers).Safe)
    (hi : readers[i]? = some r) (hr : f r' = f r) :
    (shown f v replaced queue stamps clock (readers.set i r')).Safe := by
  unfold shown
  rw [List.map_set, hr, ← List.map_set, set_self hi]
  exact h

theorem shown_leave (h : (shown f v replaced queue stamps clock readers).Safe) (i : ℕ) :
    (shown f v replaced queue stamps clock (readers.eraseIdx i)).Safe := by
  have hleave := h.leave i
  unfold Rcu.leave shown at hleave
  unfold shown
  rw [← List.eraseIdx_map]
  exact hleave

end Safe

end Shown

end Rcu

end Librefw
