import Librefw.Common.Run
import Mathlib.Data.List.Forall2

/-!
# What a call sees on its way

A call takes several steps among those of others, and sees the state at
some of them, one observation after another. Where each observation is
one of the state that the step met, the observations of a call are those
of states met since it began, in that order (`run_observes`). So a call
that observes once answers as it would have at one moment of its time, and
one that observes twice at two, the first not after the second.
-/

namespace Librefw

variable {σ τ ε χ : Type} {step : σ → ε → Except Fault σ} {astep : τ → ε → τ}
variable {s : σ} {t : τ} {evs : List ε}

/-- The states that the events of a run met. -/
def met (astep : τ → ε → τ) : τ → List ε → List τ
  | _, [] => []
  | t, e :: evs => t :: met astep (astep t e) evs

/-- **The rule of observations.** Where a step that is simulated adds to what a call saw no
more than an observation of the state it met, so does a run: what the call has seen more at
its end are observations of states that were met, in order. -/
theorem run_observes {R : σ → τ → Prop} {P : ε → Prop} {saw : σ → List χ → Prop}
    {Sees : χ → τ → Prop}
    (hstep : ∀ s t e, R s t → P e → ∃ s', step s e = .ok s' ∧ R s' (astep t e) ∧
      ∀ xs, saw s' xs → saw s xs ∨ ∃ xs₀ x, xs = xs₀ ++ [x] ∧ saw s xs₀ ∧ Sees x t)
    (hs : R s t) (hp : ∀ e ∈ evs, P e) :
    ∃ s', run step s evs = .ok s' ∧ R s' (evs.foldl astep t) ∧
      ∀ xs, saw s' xs → ∃ xs₀ ys, xs = xs₀ ++ ys ∧ saw s xs₀ ∧
        List.SublistForall₂ Sees ys (met astep t evs) := by
  induction evs generalizing s t with
  | nil =>
    exact ⟨s, rfl, hs, fun xs hxs => ⟨xs, [], (List.append_nil xs).symm, hxs, .nil⟩⟩
  | cons e evs ih =>
    obtain ⟨s₁, hs₁, hr₁, hsaw₁⟩ := hstep s t e hs (hp e List.mem_cons_self)
    obtain ⟨s₂, hrun, hr₂, hsaw₂⟩ := ih hr₁ fun x hx => hp x (List.mem_cons_of_mem _ hx)
    refine ⟨s₂, ?_, hr₂, fun xs hxs => ?_⟩
    · rw [run_cons, hs₁, ok_bind]
      exact hrun
    · obtain ⟨xs₁, ys, rfl, hxs₁, hys⟩ := hsaw₂ xs hxs
      rcases hsaw₁ xs₁ hxs₁ with hold | ⟨xs₀, x, rfl, hold, hx⟩
      · exact ⟨xs₁, ys, rfl, hold, .cons_right hys⟩
      · exact ⟨xs₀, x :: ys, by rw [List.append_assoc]; rfl, hold, .cons hx hys⟩

/-- A single observation is one of a state that was met. -/
theorem sublistForall₂_singleton {Sees : χ → τ → Prop} {x : χ} {ts : List τ}
    (h : List.SublistForall₂ Sees [x] ts) : ∃ t ∈ ts, Sees x t := by
  obtain ⟨l, hl, hsub⟩ := List.sublistForall₂_iff.1 h
  obtain ⟨t, l', hx, -, rfl⟩ := List.forall₂_cons_left_iff.1 hl
  exact ⟨t, hsub.subset List.mem_cons_self, hx⟩

end Librefw
