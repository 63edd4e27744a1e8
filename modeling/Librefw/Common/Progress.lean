import Librefw.Common.Run
import Mathlib.Algebra.BigOperators.Group.List.Basic
import Mathlib.Algebra.GroupWithZero.Nat
import Mathlib.Data.List.Perm.Basic

/-!
# Runs that get somewhere

How far a run brings what is under way. Where the events of one party
count its own way down and no other event sets it back, enough of them
bring it to the end, whatever runs in between (`foldl_countdown` is the
count, for the simulation rule). Where every event of a kind does nothing
or lowers a measure, a run of them that never idles is no longer than the
measure was (`busy_length`), and one of them ends at rest
(`exists_atRest`).
-/

namespace Librefw

variable {σ ε : Type} {step : σ → ε → Except Fault σ} {s s' : σ} {evs : List ε}

/-- What is left after an event, if the events of one party bring it forward. -/
def countdown (mine : ε → Bool) (k : ℕ) (ev : ε) : ℕ := if mine ev then k - 1 else k

theorem foldl_countdown (mine : ε → Bool) (k : ℕ) :
    evs.foldl (countdown mine) k = k - evs.countP mine := by
  induction evs generalizing k with
  | nil => rfl
  | cons ev evs ih =>
    rw [List.foldl_cons, ih, countdown, List.countP_cons]
    split <;> omega

/-! ## Measures of lists -/

section Measure

variable {α : Type} {f : α → ℕ} {l : List α} {x y : α} {i : ℕ}

/-- One entry, and the rest. -/
theorem sum_eraseIdx (h : l[i]? = some x) :
    (l.map f).sum = f x + ((l.eraseIdx i).map f).sum := by
  obtain ⟨hlt, rfl⟩ := List.getElem?_eq_some_iff.1 h
  have hperm := ((List.getElem_cons_eraseIdx_perm hlt).map f).sum_eq
  rw [List.map_cons, List.sum_cons] at hperm
  exact hperm.symm

/-- One entry replaced. -/
theorem sum_set (h : l[i]? = some x) : ((l.set i y).map f).sum + f x = (l.map f).sum + f y := by
  obtain ⟨hlt, -⟩ := List.getElem?_eq_some_iff.1 h
  have hperm := ((List.set_perm_cons_eraseIdx hlt y).map f).sum_eq
  have hrest := sum_eraseIdx (f := f) h
  rw [List.map_cons, List.sum_cons] at hperm
  omega

end Measure

/-! ## Coming to rest -/

/-- Every event of the run does something. -/
def Busy (step : σ → ε → Except Fault σ) (s : σ) (evs : List ε) : Prop :=
  Along step (fun s ev => step s ev ≠ .ok s) s evs

/-- No event of the kind does anything. -/
def AtRest (step : σ → ε → Except Fault σ) (P : ε → Prop) (s : σ) : Prop :=
  ∀ ev, P ev → step s ev = .ok s

variable {Inv : σ → Prop} {P : ε → Prop} {μ : σ → ℕ}

/-- A run that never idles is no longer than the measure was. -/
theorem busy_length
    (hstep : ∀ s ev, Inv s → P ev → ∃ s', step s ev = .ok s' ∧ Inv s' ∧ (s' = s ∨ μ s' < μ s))
    (hs : Inv s) (hp : ∀ ev ∈ evs, P ev) (hbusy : Busy step s evs)
    (hrun : run step s evs = .ok s') : evs.length + μ s' ≤ μ s := by
  induction evs generalizing s with
  | nil =>
    obtain rfl := Except.ok.inj hrun
    rw [List.length_nil, Nat.zero_add]
  | cons ev evs ih =>
    obtain ⟨s₁, hs₁, hinv, hlow⟩ := hstep s ev hs (hp ev List.mem_cons_self)
    obtain ⟨hne, hrest⟩ := hbusy
    rw [run_cons, hs₁, ok_bind] at hrun
    have hlen := ih hinv (fun x hx => hp x (List.mem_cons_of_mem _ hx)) (hrest s₁ hs₁) hrun
    rcases hlow with rfl | hlow
    · exact absurd hs₁ hne
    · rw [List.length_cons]
      omega

/-- Some run of the kind comes to rest. -/
theorem exists_atRest
    (hstep : ∀ s ev, Inv s → P ev → ∃ s', step s ev = .ok s' ∧ Inv s' ∧ (s' = s ∨ μ s' < μ s))
    (hs : Inv s) : ∃ evs s', (∀ ev ∈ evs, P ev) ∧ run step s evs = .ok s' ∧ AtRest step P s' := by
  generalize hμ : μ s = k
  induction k using Nat.strong_induction_on generalizing s with
  | h k ih =>
    by_cases hrest : AtRest step P s
    · exact ⟨[], s, fun ev hev => absurd hev List.not_mem_nil, rfl, hrest⟩
    · -- an event that does something lowers the measure
      unfold AtRest at hrest
      push Not at hrest
      obtain ⟨ev, hev, hne⟩ := hrest
      obtain ⟨s₁, hs₁, hinv, hlow⟩ := hstep s ev hs hev
      have hlt : μ s₁ < k := by
        rcases hlow with rfl | hlow
        · exact absurd hs₁ hne
        · omega
      obtain ⟨evs, s₂, hp, hrun, hat⟩ := ih (μ s₁) hlt hinv rfl
      refine ⟨ev :: evs, s₂, fun x hx => ?_, ?_, hat⟩
      · rcases List.mem_cons.1 hx with rfl | hx
        · exact hev
        · exact hp x hx
      · rw [run_cons, hs₁, ok_bind]
        exact hrun

end Librefw
