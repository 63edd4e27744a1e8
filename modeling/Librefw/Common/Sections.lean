import Librefw.Common.Progress
import Mathlib.Data.List.InsertIdx
import Mathlib.Data.List.Nodup

/-!
# Read sections and their way to the end

Sections under way, each with its number and the steps it still takes.
Numbers come from a clock, so no two sections have the same
(`Sections.Sound`). A section belongs to whoever is inside it, who has its
number, and a turn of the owner lets him enter, go on or leave
(`Sections.Turn`). What is owned stays what is under way (`Turn.perm`), a
turn leaves the sections of others alone (`Turn.mem_of_ne`), and brings
its own one forward (`Turn.forward`).
-/

namespace Librefw

/-- Sections under way, with number and steps left, and the number of the next. -/
structure Sections where
  running : List (ℕ × ℕ)
  clock : ℕ

namespace Sections

variable {x x' : Sections} {i n m k left full later : ℕ} {o o' : Option ℕ}

def numbers (x : Sections) : List ℕ := x.running.map Prod.fst

/-- The steps that all of them still take, with `later` more for each. -/
def load (later : ℕ) (x : Sections) : ℕ := (x.running.map fun q => q.2 + later).sum

def enter (full : ℕ) (x : Sections) : Sections :=
  ⟨x.running ++ [(x.clock, full)], x.clock + 1⟩

/-- The `i`-th section, whose number is `n`, goes on. -/
def goOn (i n left : ℕ) (x : Sections) : Sections := { x with running := x.running.set i (n, left) }

/-- The `i`-th section ends. -/
def leave (i : ℕ) (x : Sections) : Sections := { x with running := x.running.eraseIdx i }

theorem numbers_enter : (x.enter full).numbers = x.numbers ++ [x.clock] := by
  rw [numbers, numbers, enter, List.map_append]
  rfl

theorem numbers_goOn (hi : x.running[i]? = some (n, k)) :
    (x.goOn i n left).numbers = x.numbers := by
  obtain ⟨hlt, hq⟩ := List.getElem?_eq_some_iff.1 hi
  have hlt' : i < (x.running.map Prod.fst).length := by rwa [List.length_map]
  have hn : (x.running.map Prod.fst)[i] = n := by rw [List.getElem_map, hq]
  rw [numbers, numbers, goOn, List.map_set, ← hn, List.set_getElem_self]

theorem numbers_leave (hi : x.running[i]? = some (n, k)) :
    x.numbers.Perm (n :: (x.leave i).numbers) := by
  obtain ⟨hlt, hq⟩ := List.getElem?_eq_some_iff.1 hi
  have hperm := (List.getElem_cons_eraseIdx_perm hlt).map Prod.fst
  rw [hq] at hperm
  exact hperm.symm

theorem load_enter : (x.enter full).load later = x.load later + (full + later) := by
  rw [load, load, enter, List.map_append, List.sum_append]
  rfl

theorem load_goOn (hi : x.running[i]? = some (n, k)) :
    (x.goOn i n left).load later + (k + later) = x.load later + (left + later) :=
  sum_set (f := fun q : ℕ × ℕ => q.2 + later) hi

theorem load_leave (hi : x.running[i]? = some (n, k)) :
    x.load later = k + later + (x.leave i).load later :=
  sum_eraseIdx (f := fun q : ℕ × ℕ => q.2 + later) hi

/-- Numbers come from the clock, each once, and the way is no longer than it was. -/
structure Sound (full : ℕ) (x : Sections) : Prop where
  begun : ∀ n ∈ x.numbers, n < x.clock
  nodup : x.numbers.Nodup
  short : ∀ q ∈ x.running, q.2 ≤ full

/-- The section with a number is the only one. -/
theorem Sound.unique (h : x.Sound full) {k' : ℕ} (hk : (n, k) ∈ x.running) (hk' : (n, k') ∈ x.running) :
    k' = k := by
  have heq := List.inj_on_of_nodup_map h.nodup hk' hk rfl
  exact (Prod.mk.inj heq).2

/-- A turn of an owner: the number he had, the number he has, and the sections after it. -/
inductive Turn (full : ℕ) (x : Sections) : Option ℕ → Option ℕ → Sections → Prop where
  | stay : Turn full x none none x
  | enter : Turn full x none (some x.clock) (x.enter full)
  | goOn {i n k left : ℕ} (hi : x.running[i]? = some (n, k)) (hlt : left < k) :
      Turn full x (some n) (some n) (x.goOn i n left)
  | leave {i n : ℕ} (hi : x.running[i]? = some (n, 1)) : Turn full x (some n) none (x.leave i)

namespace Turn

theorem clock_le (h : Turn full x o o' x') : x.clock ≤ x'.clock := by
  cases h with
  | enter => exact Nat.le_succ x.clock
  | _ => exact Nat.le_refl _

theorem sound (h : Turn full x o o' x') (hx : x.Sound full) : x'.Sound full := by
  cases h with
  | stay => exact hx
  | enter =>
    refine ⟨?_, ?_, ?_⟩
    · intro n hn
      rw [numbers_enter, List.mem_append, List.mem_singleton] at hn
      rcases hn with hn | rfl
      · exact Nat.lt_succ_of_lt (hx.begun n hn)
      · exact Nat.lt_succ_self _
    · have hnew : x.clock ∉ x.numbers := fun hin => absurd (hx.begun _ hin) (Nat.lt_irrefl _)
      rw [numbers_enter, List.nodup_append]
      refine ⟨hx.nodup, List.nodup_singleton _, ?_⟩
      intro n hn m hm heq
      rw [List.mem_singleton] at hm
      exact hnew (hm ▸ heq ▸ hn)
    · intro q hq
      rcases List.mem_append.1 hq with hq | hq
      · exact hx.short q hq
      · obtain rfl := List.mem_singleton.1 hq
        exact Nat.le_refl full
  | @goOn i n k left hi hlt =>
    refine ⟨numbers_goOn hi ▸ hx.begun, numbers_goOn hi ▸ hx.nodup, ?_⟩
    intro q hq
    rcases List.mem_or_eq_of_mem_set hq with hq | rfl
    · exact hx.short q hq
    · have hle := hx.short _ (List.mem_of_getElem? hi)
      exact Nat.le_trans (Nat.le_of_lt hlt) hle
  | leave hi =>
    have hperm := numbers_leave hi
    refine ⟨?_, (List.nodup_cons.1 (hperm.nodup_iff.1 hx.nodup)).2, ?_⟩
    · intro n hn
      exact hx.begun n (hperm.mem_iff.2 (List.mem_cons_of_mem _ hn))
    · intro q hq
      exact hx.short q (List.mem_of_mem_eraseIdx hq)

/-- What is owned stays what is under way. -/
theorem perm (h : Turn full x o o' x') {l : List ℕ} (hl : (o.toList ++ l).Perm x.numbers) :
    (o'.toList ++ l).Perm x'.numbers := by
  cases h with
  | stay => exact hl
  | enter =>
    rw [numbers_enter]
    exact List.perm_append_comm.trans (hl.append_right _)
  | goOn hi hlt => exact numbers_goOn hi ▸ hl
  | leave hi => exact List.Perm.cons_inv (hl.trans (numbers_leave hi))

/-- A turn leaves the sections of others alone. -/
theorem mem_of_ne (h : Turn full x o o' x') (hm : (m, k) ∈ x.running) (hne : o ≠ some m) :
    (m, k) ∈ x'.running := by
  cases h with
  | stay => exact hm
  | enter => exact List.mem_append_left _ hm
  | @goOn i n k' left hi hlt =>
    obtain ⟨j, hj⟩ := List.mem_iff_getElem?.1 hm
    refine List.mem_iff_getElem?.2 ⟨j, ?_⟩
    have hij : i ≠ j := by
      rintro rfl
      exact hne (congrArg some (Prod.mk.inj (Option.some.inj (hi.symm.trans hj))).1)
    rw [Sections.goOn, List.getElem?_set_ne hij]
    exact hj
  | @leave i n hi =>
    obtain ⟨j, hj⟩ := List.mem_iff_getElem?.1 hm
    refine List.mem_eraseIdx_iff_getElem?.2 ⟨j, ?_, hj⟩
    rintro rfl
    exact hne (congrArg some (Prod.mk.inj (Option.some.inj (hi.symm.trans hj))).1)

/-- A turn brings the section of its owner forward. -/
theorem forward (h : Turn full x (some n) o' x') (hx : x.Sound full) (hk : (n, k) ∈ x.running) :
    (o' = some n ∧ ∃ left < k, (n, left) ∈ x'.running) ∨ o' = none ∧ k = 1 := by
  cases h with
  | @goOn i n k' left hi hlt =>
    obtain rfl := hx.unique hk (List.mem_of_getElem? hi)
    exact Or.inl ⟨rfl, left, hlt, List.mem_set (List.getElem?_eq_some_iff.1 hi).1 _⟩
  | @leave i n hi => exact Or.inr ⟨rfl, hx.unique (List.mem_of_getElem? hi) hk⟩

/-- Who enters takes the clock for a number, and has the whole way before him. -/
theorem entered (h : Turn full x none (some n) x') : n = x.clock ∧ (n, full) ∈ x'.running := by
  cases h with
  | enter => exact ⟨rfl, List.mem_append_right _ (List.mem_singleton_self _)⟩

/-- A number is the owner's already, or new. -/
theorem number (h : Turn full x o (some n) x') : o = some n ∨ n = x.clock := by
  cases h with
  | enter => exact Or.inr rfl
  | goOn hi hlt => exact Or.inl rfl

/-! What a turn does to the steps that are left. -/

theorem load_stay (h : Turn full x none none x') (later : ℕ) : x'.load later = x.load later := by
  cases h
  rfl

theorem load_entered (h : Turn full x none (some n) x') (later : ℕ) :
    x'.load later = x.load later + (full + later) := by
  cases h
  exact load_enter

theorem load_lt (h : Turn full x (some n) o' x') (later : ℕ) : x'.load later < x.load later := by
  cases h with
  | @goOn i n k left hi hlt =>
    have hload : (x.goOn i n left).load later + (k + later) = x.load later + (left + later) :=
      load_goOn hi
    omega
  | @leave i n hi =>
    have hload : x.load later = 1 + later + (x.leave i).load later := load_leave hi
    omega

theorem load_left (h : Turn full x (some n) none x') (later : ℕ) :
    x.load later = 1 + later + x'.load later := by
  cases h with
  | leave hi => exact load_leave hi

/-! A list that is shown as sections takes its turns as they do. -/

section Shown

variable {α : Type} {f : α → ℕ × ℕ} {l : List α} {r r' : α} {clock : ℕ}

theorem enter_map (hr : f r = (clock, full)) :
    Turn full ⟨l.map f, clock⟩ none (some clock) ⟨(l ++ [r]).map f, clock + 1⟩ := by
  rw [List.map_append, List.map_singleton, hr]
  exact .enter

theorem goOn_map (hi : l[i]? = some r) (hr : f r = (n, k)) (hr' : f r' = (n, left))
    (hlt : left < k) :
    Turn full ⟨l.map f, clock⟩ (some n) (some n) ⟨(l.set i r').map f, clock⟩ := by
  have hi' : (l.map f)[i]? = some (n, k) := by rw [List.getElem?_map, hi, Option.map_some, hr]
  rw [List.map_set, hr']
  exact .goOn hi' hlt

theorem leave_map (hi : l[i]? = some r) (hr : f r = (n, 1)) :
    Turn full ⟨l.map f, clock⟩ (some n) none ⟨(l.eraseIdx i).map f, clock⟩ := by
  have hi' : (l.map f)[i]? = some (n, 1) := by rw [List.getElem?_map, hi, Option.map_some, hr]
  rw [← List.eraseIdx_map]
  exact .leave hi'

end Shown

end Turn

end Sections

end Librefw
