import Librefw.Kernel.Model.Concurrent
import Librefw.Common.Rcu
import Librefw.Common.Moments

/-!
# The flag among questions for it

The objects published, replaced and queued are exactly those allocated, and
an object is never written once it is published; what a read section holds
is there by the rule of versions and sections (`Rcu.Safe`). So setting the
flag takes effect in one step, and a question answers with the flag of a
single moment (`LfwStateMeans.step`).
-/

namespace Librefw

variable {s s' : LfwStateSys} {ev : LfwStateEvent} {flag : Bool} {a : Addr} {p : Ptr}

/-- The object a question has loaded. -/
def LfwStateReaderPc.st? : LfwStateReaderPc → Option Ptr
  | .entered => none
  | .loaded _ st => some st
  | .done seen _ => some seen.state

/-- The state a question has loaded its object from. -/
def LfwStateReaderPc.seen? : LfwStateReaderPc → Option LfwStateCell
  | .entered => none
  | .loaded seen _ => some seen
  | .done seen _ => some seen

namespace LfwStateSys

/-- The objects published, replaced and queued. -/
def objects (s : LfwStateSys) : Multiset Ptr :=
  s.cell.state ::ₘ ((s.swapped : Multiset Ptr) + s.cell.rcu)

/-- The flag as versions and sections. -/
def rcu (s : LfwStateSys) : Rcu Ptr where
  current := s.cell.state
  replaced := s.swapped
  retired := s.cell.rcu.zip s.stamps
  clock := s.clock
  sections := s.readers.map fun r => ⟨r.id, r.pc.st?⟩

end LfwStateSys

/-- A question is right: its object still says what it said. -/
def LfwStateReaderPc.Good (cell : LfwStateCell) : LfwStateReaderPc → Prop
  | .entered => True
  | .loaded seen st => seen.state = st ∧ ∃ a b, st = some a ∧ cell.mem.lookup a = some ⟨b⟩ ∧
      lfwStateIsUnderAttack seen = .ok b
  | .done seen result => lfwStateIsUnderAttack seen = .ok result

/-- A question goes on with the object it has, or loads the published one. -/
def LfwStateReaderPc.Next (cell : LfwStateCell) (pc pc' : LfwStateReaderPc) : Prop :=
  pc = .entered ∧ pc' = .loaded cell cell.state ∨ pc'.seen? = pc.seen? ∧ pc'.st? = pc.st?

/-- **The flag is `flag`**, and everything in flight is in order. -/
structure LfwStateMeans (s : LfwStateSys) (flag : Bool) : Prop where
  allocated : s.objects = s.cell.mem.allocated.map some
  published : ∃ a, s.cell.state = some a ∧ s.cell.mem.lookup a = some ⟨flag⟩
  stamps : s.stamps.length = s.cell.rcu.length
  rcu : s.rcu.Safe
  readers : ∀ r ∈ s.readers, r.pc.Good s.cell

namespace LfwStateMeans

theorem answer (h : LfwStateMeans s flag) : lfwStateIsUnderAttack s.cell = .ok flag := by
  obtain ⟨a, hstate, hlookup⟩ := h.published
  rw [lfwStateIsUnderAttack, hstate, Mem.load_of_lookup hlookup]
  rfl

theorem nodup (h : LfwStateMeans s flag) : s.objects.Nodup := by
  rw [h.allocated]
  exact s.cell.mem.nodup_allocated.map (Option.some_injective Addr)

theorem mem (h : LfwStateMeans s flag) (ha : some a ∈ s.objects) : a ∈ s.cell.mem := by
  rw [h.allocated, Multiset.mem_map] at ha
  obtain ⟨b, hb, heq⟩ := ha
  obtain rfl := Option.some.inj heq
  exact Mem.mem_allocated.1 hb

theorem mem_held (h : LfwStateMeans s flag) {r : LfwStateReader} (hr : r ∈ s.readers)
    (hp : r.pc.st? = some p) : p ∈ s.objects := h.rcu.mem_versions hr hp

end LfwStateMeans

/-- A question is as it was where its object is. -/
theorem LfwStateReaderPc.Good.mono {pc : LfwStateReaderPc} {cell cell' : LfwStateCell}
    (hg : pc.Good cell) (hkeep : ∀ a, pc.st? = some (some a) → cell'.mem.lookup a = cell.mem.lookup a) :
    pc.Good cell' := by
  cases pc with
  | entered => trivial
  | loaded seen st =>
    obtain ⟨hst, a, b, rfl, hlookup, hseen⟩ := hg
    exact ⟨hst, a, b, rfl, (hkeep a rfl).trans hlookup, hseen⟩
  | done seen result => exact hg

/-- **A load of a question succeeds.** -/
theorem lfwStateLoad_good {r : LfwStateReader} (h : LfwStateMeans s flag) (hg : r.pc.Good s.cell) :
    ∃ pc, lfwStateLoad s.cell r = .ok pc ∧ pc.Good s.cell ∧ r.pc.Next s.cell pc := by
  unfold lfwStateLoad
  cases hpc : r.pc with
  | entered =>
    obtain ⟨a, hstate, hlookup⟩ := h.published
    exact ⟨_, rfl, ⟨rfl, a, flag, hstate, hlookup, h.answer⟩, Or.inl ⟨rfl, rfl⟩⟩
  | loaded seen st =>
    rw [hpc] at hg
    obtain ⟨hst, a, b, rfl, hlookup, hseen⟩ := hg
    refine ⟨.done seen b, ?_, hseen, Or.inr ⟨rfl, congrArg some hst⟩⟩
    simp only [Mem.load_of_lookup hlookup, ok_bind, pure_eq_ok]
  | done seen result =>
    rw [hpc] at hg
    exact ⟨_, rfl, hg, Or.inr ⟨rfl, rfl⟩⟩

/-- What an event does to the flag. -/
def lfwFlagStep (flag : Bool) : LfwStateEvent → Bool
  | .swap _ new_value => new_value
  | _ => flag

namespace LfwStateMeans

theorem swap (h : LfwStateMeans s flag) (A : Supply) (new_value : Bool) :
    ∃ s', lfwStateSwap A.toAllocator new_value s = .ok s' ∧ LfwStateMeans s' new_value ∧
      s'.readers = s.readers ∧ s'.clock = s.clock := by
  obtain ⟨b, m, halloc, hext⟩ := Mem.zalloc_supply A s.cell.mem ⟨false⟩
  obtain ⟨a, hstate, hlookup⟩ := h.published
  have hold : m.lookup a = some ⟨flag⟩ :=
    (hext.lookup_of_mem (Mem.mem_of_lookup hlookup)).trans hlookup
  have hstored : (m.set b ⟨flag⟩).lookup b = some ⟨flag⟩ := Mem.lookup_set_self m b _
  have hkeep : ∀ c ∈ s.cell.mem, ((m.set b ⟨flag⟩).set b ⟨new_value⟩).lookup c =
      s.cell.mem.lookup c := fun c hc => by
    rw [Mem.lookup_set_ne (hext.ne_of_mem hc), Mem.lookup_set_ne (hext.ne_of_mem hc),
      hext.lookup_of_mem hc]
  refine ⟨{ s with
    cell := ⟨(m.set b ⟨flag⟩).set b ⟨new_value⟩, some b, s.cell.rcu⟩
    swapped := s.swapped ++ [s.cell.state] }, ?_, ⟨?_, ⟨b, rfl, Mem.lookup_set_self _ b _⟩, h.stamps,
    h.rcu.publish (some b), fun r hr => (h.readers r hr).mono fun c hc => ?_⟩, rfl, rfl⟩
  · simp only [lfwStateSwap, halloc, hstate, Mem.load_of_lookup hold, ok_bind,
      Mem.store_of_mem hext.mem_self, Mem.modify_of_lookup hstored, pure_eq_ok]
  · have hmem : b ∈ m.set b ⟨flag⟩ := Mem.mem_of_lookup hstored
    rw [Mem.allocated_set_of_mem hmem, Mem.allocated_set_of_mem hext.mem_self, hext.allocated,
      Multiset.map_cons, ← h.allocated]
    exact Rcu.versions_publish s.cell.state (some b) s.swapped s.cell.rcu
  · exact hkeep c (h.mem (h.mem_held hr hc))

theorem queue (h : LfwStateMeans s flag) (i : ℕ) : LfwStateMeans (lfwStateQueue i s) flag := by
  unfold lfwStateQueue
  cases hi : s.swapped[i]? with
  | none => exact h
  | some old_state =>
    have hobjects : Rcu.versions s.cell.state (s.swapped.eraseIdx i) (s.cell.rcu ++ [old_state]) =
        s.objects := Rcu.versions_retire hi
    refine ⟨hobjects.trans h.allocated, h.published, ?_, h.rcu.shown_retire h.stamps hi, h.readers⟩
    rw [List.length_append, List.length_append, h.stamps]
    rfl

theorem callback (h : LfwStateMeans s flag) (i : ℕ) :
    ∃ s', lfwStateCallback i s = .ok s' ∧ LfwStateMeans s' flag ∧
      s'.readers = s.readers ∧ s'.clock = s.clock := by
  unfold lfwStateCallback
  cases hstamp : s.stamps[i]? with
  | none => exact ⟨s, rfl, h, rfl, rfl⟩
  | some stamp =>
    by_cases hgrace : s.graceOver stamp
    · have hlt : i < s.cell.rcu.length := by
        rw [← h.stamps]
        exact (List.getElem?_eq_some_iff.1 hstamp).1
      have hi : s.cell.rcu[i]? = some s.cell.rcu[i] := List.getElem?_eq_getElem hlt
      generalize s.cell.rcu[i] = q at hi
      have hsplit : s.objects = q ::ₘ (s.cell.state ::ₘ
          ((s.swapped : Multiset Ptr) + (s.cell.rcu.eraseIdx i : List Ptr))) :=
        Rcu.versions_reclaim hi
      -- what waits is allocated, and is not the published object
      have hq : q ∈ s.objects := hsplit ▸ Multiset.mem_cons_self _ _
      rw [h.allocated, Multiset.mem_map] at hq
      obtain ⟨b, hb, rfl⟩ := hq
      have hbm : b ∈ s.cell.mem := Mem.mem_allocated.1 hb
      have hnot := hsplit ▸ h.nodup
      rw [Multiset.nodup_cons] at hnot
      obtain ⟨a, hstate, hlookup⟩ := h.published
      have hne : a ≠ b := by
        rintro rfl
        exact hnot.1 (hstate ▸ Multiset.mem_cons_self _ _)
      refine ⟨{ s with
        cell := ⟨s.cell.mem.erase b, s.cell.state, s.cell.rcu.eraseIdx i⟩
        stamps := s.stamps.eraseIdx i }, ?_, ⟨?_, ⟨a, hstate, ?_⟩, ?_,
        h.rcu.shown_reclaim hi hstamp hgrace, fun r hr => (h.readers r hr).mono fun c hc => ?_⟩, rfl, rfl⟩
      · simp only [hgrace, if_true, lfwStateKfreeRcu, hi, Mem.free_of_mem hbm, ok_bind, pure_eq_ok]
      · have hrest : s.cell.state ::ₘ ((s.swapped : Multiset Ptr) +
            (s.cell.rcu.eraseIdx i : List Ptr)) = s.objects.erase (some b) := by
          rw [hsplit, Multiset.erase_cons_head]
        rw [Mem.allocated_erase, Multiset.map_erase _ (Option.some_injective Addr), ← h.allocated]
        exact hrest
      · rw [Mem.lookup_erase_ne hne, hlookup]
      · have hlt' := (List.getElem?_eq_some_iff.1 hstamp).1
        rw [List.length_eraseIdx_of_lt hlt, List.length_eraseIdx_of_lt hlt', h.stamps]
      · -- nor does a section hold it
        refine Mem.lookup_erase_ne ?_
        rintro rfl
        exact h.rcu.shown_not_held h.stamps h.nodup hi hstamp hgrace hr hc
    · exact ⟨s, by simp only [hgrace, if_false, pure_eq_ok], h, rfl, rfl⟩

theorem enter (h : LfwStateMeans s flag) : LfwStateMeans (lfwStateReaderEnter s) flag := by
  refine ⟨h.allocated, h.published, h.stamps, h.rcu.shown_enter rfl, fun r hr => ?_⟩
  rcases List.mem_append.1 hr with hr | hr
  · exact h.readers r hr
  · obtain rfl := List.mem_singleton.1 hr
    trivial

theorem load (h : LfwStateMeans s flag) {i : ℕ} {r : LfwStateReader} {pc : LfwStateReaderPc}
    (hr : s.readers[i]? = some r) (hgood : pc.Good s.cell) (hnext : r.pc.Next s.cell pc) :
    LfwStateMeans { s with readers := s.readers.set i { r with pc := pc } } flag := by
  refine ⟨h.allocated, h.published, h.stamps, ?_, fun x hx => ?_⟩
  · rcases hnext with ⟨hpc, rfl⟩ | ⟨-, hsame⟩
    · -- the first load takes the published object
      exact h.rcu.shown_load hr rfl
    · exact h.rcu.shown_stay hr (congrArg (RcuSection.mk r.id) hsame)
  · rcases List.mem_or_eq_of_mem_set hx with hx | rfl
    · exact h.readers x hx
    · exact hgood

theorem leave (h : LfwStateMeans s flag) (i : ℕ) :
    LfwStateMeans { s with readers := s.readers.eraseIdx i } flag :=
  ⟨h.allocated, h.published, h.stamps, h.rcu.shown_leave i,
    fun r hr => h.readers r (List.mem_of_mem_eraseIdx hr)⟩

/-- **Every event is a step of the flag.** The questions after it are old ones, the one that went
on, and the one that began. -/
theorem step (h : LfwStateMeans s flag) (ev : LfwStateEvent) :
    ∃ s', lfwStateSysStep s ev = .ok s' ∧ LfwStateMeans s' (lfwFlagStep flag ev) ∧
      s.clock ≤ s'.clock ∧ ∀ r ∈ s'.readers, r ∈ s.readers ∨
        (∃ r₀ ∈ s.readers, ∃ pc, r₀.pc.Next s.cell pc ∧ r = { r₀ with pc := pc }) ∨
        r = ⟨s.clock, .entered⟩ := by
  cases ev with
  | swap A new_value =>
    obtain ⟨s', hrun, hmeans, hreaders, hclock⟩ := h.swap A new_value
    exact ⟨s', hrun, hmeans, hclock.ge, fun r hr => Or.inl (hreaders ▸ hr)⟩
  | queue i =>
    refine ⟨_, rfl, h.queue i, ?_, fun r hr => Or.inl ?_⟩
    all_goals
      unfold lfwStateQueue at *
      split at * <;> first | exact le_refl _ | assumption
  | callback i =>
    obtain ⟨s', hrun, hmeans, hreaders, hclock⟩ := h.callback i
    exact ⟨s', hrun, hmeans, hclock.ge, fun r hr => Or.inl (hreaders ▸ hr)⟩
  | readerEnter =>
    refine ⟨_, rfl, h.enter, Nat.le_succ s.clock, fun r hr => ?_⟩
    rcases List.mem_append.1 hr with hr | hr
    · exact Or.inl hr
    · exact Or.inr (Or.inr (List.mem_singleton.1 hr))
  | readerStep i =>
    show ∃ s', lfwStateReaderStep i s = .ok s' ∧ _
    unfold lfwStateReaderStep
    cases hi : s.readers[i]? with
    | none => exact ⟨s, rfl, h, le_refl _, fun r hr => Or.inl hr⟩
    | some r =>
      have hr := List.mem_of_getElem? hi
      simp only
      split
      · exact ⟨_, rfl, h.leave i, le_refl _, fun x hx => Or.inl (List.mem_of_mem_eraseIdx hx)⟩
      · obtain ⟨pc, hload, hgood, hnext⟩ := lfwStateLoad_good h (h.readers r hr)
        rw [hload]
        refine ⟨_, rfl, h.load hi hgood hnext, le_refl _, fun x hx => ?_⟩
        rcases List.mem_or_eq_of_mem_set hx with hx | rfl
        · exact Or.inl hx
        · exact Or.inr (Or.inl ⟨r, hr, pc, hnext, rfl⟩)

end LfwStateMeans

/-- A question under way while the flag is `flag`: its number is no later section's. -/
structure LfwStateCalling (n : ℕ) (s : LfwStateSys) (flag : Bool) : Prop where
  means : LfwStateMeans s flag
  begun : n < s.clock

/-- What the question with a number has loaded. -/
def LfwStateSys.Seen (n : ℕ) (s : LfwStateSys) (xs : List LfwStateCell) : Prop :=
  ∃ r ∈ s.readers, r.id = n ∧ r.pc.seen?.toList = xs

/-- A question goes on through any event, and loads no more than the state the event met. -/
theorem LfwStateCalling.step {n : ℕ} (h : LfwStateCalling n s flag) (ev : LfwStateEvent) :
    ∃ s', lfwStateSysStep s ev = .ok s' ∧ LfwStateCalling n s' (lfwFlagStep flag ev) ∧
      ∀ xs, s'.Seen n xs → s.Seen n xs ∨
        ∃ xs₀ x, xs = xs₀ ++ [x] ∧ s.Seen n xs₀ ∧ lfwStateIsUnderAttack x = .ok flag := by
  obtain ⟨s', hrun, hmeans, hclock, hreaders⟩ := h.means.step ev
  refine ⟨s', hrun, ⟨hmeans, lt_of_lt_of_le h.begun hclock⟩, ?_⟩
  rintro xs ⟨r, hr, hid, rfl⟩
  rcases hreaders r hr with hr | ⟨r₀, hr₀, pc, hnext, rfl⟩ | rfl
  · exact Or.inl ⟨r, hr, hid, rfl⟩
  · rcases hnext with ⟨hnone, rfl⟩ | ⟨hsame, -⟩
    · exact Or.inr ⟨[], s.cell, rfl, ⟨r₀, hr₀, hid, by rw [hnone]; rfl⟩, h.means.answer⟩
    · exact Or.inl ⟨r₀, hr₀, hid, by rw [hsame]⟩
  · exact absurd hid (ne_of_gt h.begun)

theorem lfwStateSysInit_means (A : Supply) : ∃ s, lfwStateSysInit A.toAllocator = .ok s ∧
    LfwStateMeans s false ∧ s.readers = [] := by
  obtain ⟨a, m, halloc, hext⟩ := Mem.zalloc_supply A (Mem.empty : Mem LfwState) ⟨false⟩
  refine ⟨⟨⟨m, some a, []⟩, [], [], 0, []⟩, ?_,
    ⟨?_, ⟨a, rfl, hext.lookup_self⟩, rfl, ⟨?_, ?_⟩, ?_⟩, rfl⟩
  · simp only [lfwStateSysInit, lfwInitStateCell, halloc]
    rfl
  · simp [LfwStateSys.objects, hext.allocated]
  all_goals simp [LfwStateSys.rcu]

end Librefw
