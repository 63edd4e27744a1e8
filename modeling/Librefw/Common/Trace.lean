import Librefw.Common.Run

/-!
# Runs that are seen

A step that shows something, and what a run of such steps shows. Where an
event of a kind shows nothing and changes nothing, `purge` takes the
events of that kind out of a run, each looked at in the state it meets,
and the rest shows the same and ends in the same state (`trace_purge`).
So two runs that are one but for such events are not told apart
(`trace_eq_of_purge_eq`).
-/

namespace Librefw

variable {σ ε ω : Type} {step : σ → ε → Except Fault (List ω × σ)} {hidden : σ → ε → Bool}
variable {s s' : σ} {x : ε} {xs ys : List ε} {outs : List ω}

/-- What a run shows, and where it ends. -/
def trace (step : σ → ε → Except Fault (List ω × σ)) : σ → List ε → Except Fault (List ω × σ)
  | s, [] => pure ([], s)
  | s, x :: xs => do
    let (outs, s) ← step s x
    let (rest, s) ← trace step s xs
    pure (outs ++ rest, s)

/-- What of a run is taken, less the events that are hidden where they are met. Nothing
is taken after a fault. -/
def purge (step : σ → ε → Except Fault (List ω × σ)) (hidden : σ → ε → Bool) :
    σ → List ε → List ε
  | _, [] => []
  | s, x :: xs =>
    match step s x with
    | .error _ => [x]
    | .ok (_, s') => if hidden s x then purge step hidden s' xs else x :: purge step hidden s' xs

@[simp] theorem trace_nil : trace step s [] = .ok ([], s) := rfl

theorem trace_cons_ok (h : step s x = .ok (outs, s')) :
    trace step s (x :: xs) = (trace step s' xs).map fun r => (outs ++ r.1, r.2) := by
  rw [trace, h, ok_bind]
  simp only
  cases trace step s' xs <;> rfl

theorem trace_cons_error {f : Fault} (h : step s x = .error f) :
    trace step s (x :: xs) = .error f := by
  rw [trace, h]
  rfl

/-- A run that ends has taken its first step. -/
theorem trace_cons_eq_ok (h : trace step s (x :: xs) = .ok (outs, s')) :
    ∃ outs₁ s₁ rest, step s x = .ok (outs₁, s₁) ∧ trace step s₁ xs = .ok (rest, s') := by
  rw [trace] at h
  obtain ⟨⟨outs₁, s₁⟩, hone, h⟩ := bind_eq_ok.1 h
  obtain ⟨⟨rest, s₂⟩, hrest, h⟩ := bind_eq_ok.1 h
  obtain ⟨-, rfl⟩ := Prod.mk.inj (Except.ok.inj h)
  exact ⟨outs₁, s₁, rest, hone, hrest⟩

/-- A run that ends has ended each part of it. -/
theorem trace_append_eq_ok (h : trace step s (xs ++ ys) = .ok (outs, s')) :
    ∃ outs₁ s₁ rest, trace step s xs = .ok (outs₁, s₁) ∧ trace step s₁ ys = .ok (rest, s') := by
  induction xs generalizing s outs with
  | nil => exact ⟨[], s, outs, rfl, h⟩
  | cons x xs ih =>
    obtain ⟨outs₁, s₁, rest, hone, hrest⟩ := trace_cons_eq_ok h
    obtain ⟨outs₂, s₂, rest₂, hxs, hys⟩ := ih hrest
    refine ⟨outs₁ ++ outs₂, s₂, rest₂, ?_, hys⟩
    rw [trace_cons_ok hone, hxs]
    rfl

/-- Where a run and what follows it end. -/
theorem trace_append {outs₁ : List ω} {s₁ : σ} (h : trace step s xs = .ok (outs₁, s₁))
    (ys : List ε) :
    trace step s (xs ++ ys) = (trace step s₁ ys).map fun r => (outs₁ ++ r.1, r.2) := by
  induction xs generalizing s outs₁ with
  | nil =>
    obtain ⟨rfl, rfl⟩ := Prod.mk.inj (Except.ok.inj h)
    rw [List.nil_append]
    cases trace step s ys <;> rfl
  | cons x xs ih =>
    obtain ⟨outs₂, s₂, rest, hone, hrest⟩ := trace_cons_eq_ok h
    rw [trace_cons_ok hone, hrest] at h
    obtain ⟨houts, -⟩ := Prod.mk.inj (Except.ok.inj h)
    rw [List.cons_append, trace_cons_ok hone, ih hrest, ← houts]
    cases trace step s₁ ys with
    | error f => rfl
    | ok r =>
      show Except.ok (outs₂ ++ (rest ++ r.1), r.2) = Except.ok ((outs₂ ++ rest) ++ r.1, r.2)
      rw [List.append_assoc]

/-- **The events taken out were not there.** -/
theorem trace_purge (hquiet : ∀ s x, hidden s x = true → step s x = .ok ([], s)) (s : σ)
    (xs : List ε) : trace step s (purge step hidden s xs) = trace step s xs := by
  induction xs generalizing s with
  | nil => rfl
  | cons x xs ih =>
    rw [purge]
    cases hx : step s x with
    | error f => rw [trace_cons_error hx, trace_cons_error hx]
    | ok r =>
      obtain ⟨outs, s'⟩ := r
      show trace step s (if hidden s x then purge step hidden s' xs
        else x :: purge step hidden s' xs) = _
      by_cases hhid : hidden s x = true
      · -- it met the state it left
        obtain ⟨rfl, rfl⟩ := Prod.mk.inj (Except.ok.inj (hx.symm.trans (hquiet s x hhid)))
        rw [if_pos hhid, ih, trace_cons_ok hx]
        cases trace step s' xs <;> rfl
      · rw [if_neg hhid, trace_cons_ok hx, trace_cons_ok hx, ih]

/-- **Two runs that are one but for hidden events** show the same and end in the same
state. -/
theorem trace_eq_of_purge_eq (hquiet : ∀ s x, hidden s x = true → step s x = .ok ([], s))
    (h : purge step hidden s xs = purge step hidden s ys) : trace step s xs = trace step s ys := by
  rw [← trace_purge hquiet s xs, h, trace_purge hquiet]

/-- **The invariant rule of traces.** The condition on a step may speak of the run that led
to it. -/
theorem trace_keeps {Inv : σ → Prop} {P : σ → ε → Prop}
    (hstep : ∀ s x outs s', Inv s → P s x → step s x = .ok (outs, s') → Inv s') (hs : Inv s)
    (hp : ∀ pre x post outs s₁, xs = pre ++ x :: post → trace step s pre = .ok (outs, s₁) → P s₁ x)
    (hrun : trace step s xs = .ok (outs, s')) : Inv s' := by
  induction xs generalizing s outs with
  | nil =>
    obtain ⟨-, rfl⟩ := Prod.mk.inj (Except.ok.inj hrun)
    exact hs
  | cons x xs ih =>
    obtain ⟨outs₁, s₁, rest, hone, hrest⟩ := trace_cons_eq_ok hrun
    have hs₁ : Inv s₁ := hstep s x outs₁ s₁ hs (hp [] x xs [] s rfl rfl) hone
    refine ih hs₁ (fun pre y post outs₂ s₂ hsplit hpre => ?_) hrest
    refine hp (x :: pre) y post (outs₁ ++ outs₂) s₂ (by rw [hsplit]; rfl) ?_
    rw [trace_cons_ok hone, hpre]
    rfl

end Librefw
