import Librefw.Common.Mem

/-!
# Runs of a step function

A run takes one event after another from a state, and fails with the
first fault. The two rules here are the inductions the rest of the
development uses: an invariant that every step keeps holds after every
run (`run_invariant`), and a step function that every step simulates is
simulated by every run (`run_simulation`). Both also say that the run
does not fault. `Along` carries a condition on the steps, each at the
state it is taken from, and `Always` one on the states reached; where a
step breaks the second exactly if it breaks the first, so does a run
(`always_iff_along`).
-/

namespace Librefw

variable {σ τ ε : Type} {step : σ → ε → Except Fault σ} {s s' : σ} {evs : List ε}

/-- The state after a list of events. -/
def run (step : σ → ε → Except Fault σ) (s : σ) (evs : List ε) : Except Fault σ :=
  evs.foldlM step s

/-- Every step of the run meets `P`, at the state it is taken from. -/
def Along (step : σ → ε → Except Fault σ) (P : σ → ε → Prop) : σ → List ε → Prop
  | _, [] => True
  | s, e :: evs => P s e ∧ ∀ s', step s e = .ok s' → Along step P s' evs

instance decidableAlong {P : σ → ε → Prop} [∀ s e, Decidable (P s e)] :
    (s : σ) → (evs : List ε) → Decidable (Along step P s evs)
  | _, [] => isTrue trivial
  | s, e :: evs =>
    match h : step s e with
    | .error _ => decidable_of_iff (P s e)
        ⟨fun hp => ⟨hp, fun _ hs' => nomatch h.symm.trans hs'⟩, fun hp => hp.1⟩
    | .ok s' =>
      have := decidableAlong (P := P) s' evs
      decidable_of_iff (P s e ∧ Along step P s' evs)
        ⟨fun hp => ⟨hp.1, fun _ hs₁ => Except.ok.inj (h.symm.trans hs₁) ▸ hp.2⟩,
          fun hp => ⟨hp.1, hp.2 s' h⟩⟩

@[simp] theorem run_nil : run step s [] = .ok s := rfl

theorem run_cons {e : ε} : run step s (e :: evs) = step s e >>= fun s' => run step s' evs := by
  simp only [run, List.foldlM_cons]

theorem run_append {evs₂ : List ε} :
    run step s (evs ++ evs₂) = run step s evs >>= fun s' => run step s' evs₂ := by
  simp only [run, List.foldlM_append]

/-- One step is a run. -/
theorem run_singleton {e : ε} : run step s [e] = step s e := by
  rw [run_cons]
  cases step s e <;> rfl

theorem along_of_forall {P : ε → Prop} (h : ∀ e ∈ evs, P e) :
    Along step (fun _ e => P e) s evs := by
  induction evs generalizing s with
  | nil => trivial
  | cons e evs ih =>
    exact ⟨h e (List.mem_cons_self ..), fun s' _ => ih fun x hx => h x (List.mem_cons_of_mem _ hx)⟩

/-- **The invariant rule.** What every step keeps, every run keeps. -/
theorem run_invariant {Inv : σ → Prop} {P : σ → ε → Prop}
    (hstep : ∀ s e, Inv s → P s e → ∃ s', step s e = .ok s' ∧ Inv s') (hs : Inv s)
    (hp : Along step P s evs) : ∃ s', run step s evs = .ok s' ∧ Inv s' := by
  induction evs generalizing s with
  | nil => exact ⟨s, rfl, hs⟩
  | cons e evs ih =>
    obtain ⟨s₁, hs₁, hinv⟩ := hstep s e hs hp.1
    rw [run_cons, hs₁, ok_bind]
    exact ih hinv (hp.2 s₁ hs₁)

/-- **The partial invariant rule.** Where steps may fault, a run that does not
keeps what its steps keep. -/
theorem run_keeps {Inv : σ → Prop} (hstep : ∀ s e s', Inv s → step s e = .ok s' → Inv s')
    (hs : Inv s) (hrun : run step s evs = .ok s') : Inv s' := by
  induction evs generalizing s with
  | nil =>
    obtain rfl := Except.ok.inj hrun
    exact hs
  | cons e evs ih =>
    rw [run_cons] at hrun
    obtain ⟨s₁, hs₁, hrun⟩ := bind_eq_ok.1 hrun
    exact ih (hstep s e s₁ hs hs₁) hrun

/-- The same where the steps meet a condition. -/
theorem run_keeps_along {Inv : σ → Prop} {P : σ → ε → Prop}
    (hstep : ∀ s e s', Inv s → P s e → step s e = .ok s' → Inv s') (hs : Inv s)
    (hp : Along step P s evs) (hrun : run step s evs = .ok s') : Inv s' := by
  induction evs generalizing s with
  | nil =>
    obtain rfl := Except.ok.inj hrun
    exact hs
  | cons e evs ih =>
    rw [run_cons] at hrun
    obtain ⟨s₁, hs₁, hrun⟩ := bind_eq_ok.1 hrun
    exact ih (hstep s e s₁ hs hp.1 hs₁) (hp.2 s₁ hs₁) hrun

/-- One condition on the steps from another, along an invariant. -/
theorem Along.imp {Inv : σ → Prop} {P Q : σ → ε → Prop}
    (hstep : ∀ s e, Inv s → P s e → Q s e ∧ ∀ s', step s e = .ok s' → Inv s') (hs : Inv s)
    (hp : Along step P s evs) : Along step Q s evs := by
  induction evs generalizing s with
  | nil => trivial
  | cons e evs ih =>
    obtain ⟨hq, hkeep⟩ := hstep s e hs hp.1
    exact ⟨hq, fun s' hs' => ih (hkeep s' hs') (hp.2 s' hs')⟩

/-- **The simulation rule.** If every step is matched by a step of `astep`,
every run is matched by a run of it. -/
theorem run_simulation {R : σ → τ → Prop} {P : ε → Prop} {astep : τ → ε → τ} {t : τ}
    (hstep : ∀ s t e, R s t → P e → ∃ s', step s e = .ok s' ∧ R s' (astep t e)) (hs : R s t)
    (hp : ∀ e ∈ evs, P e) : ∃ s', run step s evs = .ok s' ∧ R s' (evs.foldl astep t) := by
  induction evs generalizing s t with
  | nil => exact ⟨s, rfl, hs⟩
  | cons e evs ih =>
    obtain ⟨s₁, hs₁, hr⟩ := hstep s t e hs (hp e (List.mem_cons_self ..))
    rw [run_cons, hs₁, ok_bind]
    exact ih hr fun x hx => hp x (List.mem_cons_of_mem _ hx)

/-! ## Every state reached -/

/-- Every state that the run reaches meets `P`. -/
def Always (step : σ → ε → Except Fault σ) (P : σ → Prop) (s : σ) (evs : List ε) : Prop :=
  ∀ pre post s', evs = pre ++ post → run step s pre = .ok s' → P s'

theorem always_nil {P : σ → Prop} : Always step P s [] ↔ P s := by
  constructor
  · intro h
    exact h [] [] s rfl rfl
  · intro h pre post s' hsplit hrun
    obtain rfl := (List.append_eq_nil_iff.1 hsplit.symm).1
    obtain rfl := Except.ok.inj hrun
    exact h

theorem always_cons {P : σ → Prop} {e : ε} :
    Always step P s (e :: evs) ↔ P s ∧ ∀ s', step s e = .ok s' → Always step P s' evs := by
  constructor
  · intro h
    refine ⟨h [] _ s rfl rfl, fun s₁ hs₁ pre post s' hsplit hrun => ?_⟩
    refine h (e :: pre) post s' (by rw [hsplit]; rfl) ?_
    rw [run_cons, hs₁, ok_bind]
    exact hrun
  · rintro ⟨hs, hrest⟩ pre post s' hsplit hrun
    cases pre with
    | nil =>
      obtain rfl := Except.ok.inj hrun
      exact hs
    | cons x pre =>
      obtain ⟨rfl, hpost⟩ := List.cons.inj hsplit
      rw [run_cons] at hrun
      obtain ⟨s₁, hs₁, hrun⟩ := bind_eq_ok.1 hrun
      exact hrest s₁ hs₁ pre post s' hpost hrun

/-- **The invariant rule for the states reached.** Where the steps keep an invariant, and it
makes a state good, all states are. -/
theorem always_of_along {Inv P : σ → Prop} {Q : σ → ε → Prop} (hgood : ∀ s, Inv s → P s)
    (hkeep : ∀ s e s', Inv s → Q s e → step s e = .ok s' → Inv s') (hs : Inv s)
    (hq : Along step Q s evs) : Always step P s evs := by
  induction evs generalizing s with
  | nil => exact always_nil.2 (hgood s hs)
  | cons e evs ih =>
    rw [always_cons]
    exact ⟨hgood s hs, fun s' hs' => ih (hkeep s e s' hs hq.1 hs') (hq.2 s' hs')⟩

/-- **States and steps.** If a step from a good state leads to good ones exactly where it
meets `Q`, the run stays good exactly if all of its steps meet `Q`. -/
theorem always_iff_along {Inv P : σ → Prop} {Q : σ → ε → Prop}
    (hgood : ∀ s e, Inv s → P s → ((∀ s', step s e = .ok s' → P s') ↔ Q s e))
    (hkeep : ∀ s e s', Inv s → P s → step s e = .ok s' → Inv s') (hs : Inv s) (hp : P s) :
    Always step P s evs ↔ Along step Q s evs := by
  induction evs generalizing s with
  | nil => exact ⟨fun _ => trivial, fun _ => always_nil.2 hp⟩
  | cons e evs ih =>
    rw [always_cons]
    constructor
    · rintro ⟨-, hrest⟩
      have hp' : ∀ s', step s e = .ok s' → P s' := fun s' hs' => hrest s' hs' [] evs s' rfl rfl
      refine ⟨(hgood s e hs hp).1 hp', fun s' hs' => ?_⟩
      exact (ih (hkeep s e s' hs hp hs') (hp' s' hs')).1 (hrest s' hs')
    · rintro ⟨hq, hrest⟩
      have hp' := (hgood s e hs hp).2 hq
      refine ⟨hp, fun s' hs' => ?_⟩
      exact (ih (hkeep s e s' hs hp hs') (hp' s' hs')).2 (hrest s' hs')

end Librefw
