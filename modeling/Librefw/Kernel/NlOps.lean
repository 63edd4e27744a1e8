import Librefw.Kernel.Model.NlOps
import Mathlib.Data.List.Induction

/-!
# Requests with repeated attributes

A handler that loops over attributes and assigns a field on each one of a
type leaves the field at the last of them (`foldl_lastWrite`). So what a
request carries in a field is its last attribute of the field's type
(`lastOf`), whatever order the attributes come in.
-/

namespace Librefw

/-- **The last write wins.** If one step sets what `π` reads on the elements
that meet `p` and leaves it alone on the others, a fold ends with what the
last of these set. -/
theorem foldl_lastWrite {σ α β : Type} {step : σ → α → σ} {π : σ → β} {p : α → Bool} {g : α → β}
    (h : ∀ s a, π (step s a) = if p a then g a else π s) (l : List α) (s : σ) :
    π (l.foldl step s) = ((l.filter p).getLast?.map g).getD (π s) := by
  induction l using List.reverseRecOn with
  | nil => rfl
  | append_singleton l a ih =>
    rw [List.foldl_append, List.foldl_cons, List.foldl_nil, h, List.filter_append]
    by_cases hp : p a
    · simp [hp]
    · simp [hp, ih]

/-- The word carried by the last attribute that meets `p`. -/
def lastOf {β : Type} (p : NlAttr → Bool) (get : NlAttr → β) (attrs : List NlAttr) : Option β :=
  (attrs.filter p).getLast?.map get

end Librefw
