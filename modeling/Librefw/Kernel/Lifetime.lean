import Librefw.Kernel.Model.Lifetime

/-!
# When a command finds its component

The family is registered before the components are initialised, and
unregistered after they are freed, so a command may come while the cache
its handler works in is not there. Where the code stands says whether it
is: on every path the cache is there exactly if the code left destroys it
before it creates it (`LfwCode.Sound`, which holds of the whole module,
`lfwModule_sound`, and which every step keeps). So a run serves its
commands exactly if they come, and are done, in time
(`lfwLife_serves_iff`).
-/

namespace Librefw

variable {s : LfwLife} {c : LfwComponent} {slots : LfwSlots} {cmd : LfwCmd}
  {evs : List LfwLifeEvent}

/-- The component's state is allocated, and its node cache exists. -/
def LfwSlots.Cached (slots : LfwSlots) (c : LfwComponent) : Prop :=
  slots c .state = .live ∧ slots c .cache = .live

instance : Decidable (slots.Cached c) := inferInstanceAs (Decidable (_ ∧ _))

/-- Every handler that runs has the component it works on. -/
def LfwLife.Served (s : LfwLife) : Prop := ∀ cmd ∈ s.running, ∀ c ∈ cmd.caches, s.slots.Cached c

/-! ## Where the code stands -/

/-- The components with a node cache. -/
def lfwCached : List LfwComponent := [.bogon, .hcf]

theorem mem_lfwCached (h : c ∈ cmd.caches) : c ∈ lfwCached := by
  cases cmd with
  | setBogon =>
    obtain rfl := Option.some.inj h
    decide
  | setUnderAttack => cases h
  | setHcfHistory =>
    obtain rfl := Option.some.inj h
    decide

/-- The code left destroys the component's cache, and does not create it first. -/
def LfwCode.destroys (c : LfwComponent) : LfwCode → Bool
  | .ret => false
  | .release r next => r = .free c .cache || next.destroys c
  | .acquire a ok err => a ≠ .alloc c .cache && (ok.destroys c || err.destroys c)
  | .ifNull _ _ null there => null.destroys c || there.destroys c

/-- The release that comes next. -/
def LfwCode.next : LfwCode → Option LfwRelease
  | .release r _ => some r
  | _ => none

/-- The caches that are there are those the code left has to destroy. -/
def LfwCode.Tracks (code : LfwCode) (slots : LfwSlots) : Prop :=
  ∀ c ∈ lfwCached, (slots.Cached c ↔ code.destroys c = true)

instance (code : LfwCode) : Decidable (code.Tracks slots) :=
  inferInstanceAs (Decidable (∀ c ∈ lfwCached, _))

/-- So it is now, and on every path from here. -/
def LfwCode.Sound : LfwCode → LfwSlots → Prop
  | .ret, slots => Tracks .ret slots
  | .release r next, slots => Tracks (.release r next) slots ∧ next.Sound (r.slots slots)
  | .acquire a ok err, slots =>
    Tracks (.acquire a ok err) slots ∧ ok.Sound (a.slots slots) ∧ err.Sound slots
  | .ifNull c o null there, slots => Tracks (.ifNull c o null there) slots ∧
      if slots c o = .null then null.Sound slots else there.Sound slots

instance LfwCode.decidableSound : (code : LfwCode) → (slots : LfwSlots) →
    Decidable (code.Sound slots)
  | .ret, slots => inferInstanceAs (Decidable (Tracks .ret slots))
  | .release _ next, _ =>
    have := next.decidableSound
    inferInstanceAs (Decidable (_ ∧ _))
  | .acquire _ ok err, _ =>
    have := ok.decidableSound
    have := err.decidableSound
    inferInstanceAs (Decidable (_ ∧ _ ∧ _))
  | .ifNull c o null there, slots =>
    have := null.decidableSound
    have := there.decidableSound
    inferInstanceAs
      (Decidable (_ ∧ if slots c o = .null then null.Sound slots else there.Sound slots))

/-- **The module is sound**, whatever fails on the way. -/
theorem lfwModule_sound : LfwCode.lfwModule.Sound fun _ _ => .null := by decide +kernel

theorem LfwCode.Sound.tracks {code : LfwCode} (h : code.Sound slots) : code.Tracks slots := by
  cases code with
  | ret => exact h
  | release r next => exact h.1
  | acquire a ok err => exact h.1
  | ifNull c o null there => exact h.1

/-! ## Steps -/

/-- **A step of the code keeps it.** -/
theorem LfwLife.sound_advance (ok : Bool) (h : s.code.Sound s.slots) :
    (s.advance ok).code.Sound (s.advance ok).slots := by
  obtain ⟨code, registered, slots, running⟩ := s
  cases code with
  | ret => exact h
  | release r next =>
    simp only [advance]
    by_cases hr : r = .genlUnregisterFamily
    · subst hr
      rw [if_pos rfl]
      -- the family is not gone before its handlers are
      by_cases hrun : running = []
      · rw [if_pos hrun]
        exact h.2
      · rw [if_neg hrun]
        exact h
    · rw [if_neg hr]
      exact h.2
  | acquire a next err =>
    cases ok with
    | true => exact h.2.1
    | false => exact h.2.2
  | ifNull c o null there =>
    have hbranch := h.2
    simp only [advance]
    split at hbranch
    · next hnull =>
      rw [if_pos hnull]
      exact hbranch
    · next hthere =>
      rw [if_neg hthere]
      exact hbranch

/-- What is acquired is there, and nothing else goes. -/
theorem LfwAcquire.cached (a : LfwAcquire) (h : slots.Cached c) : (a.slots slots).Cached c := by
  have hset : ∀ o, slots c o = .live → a.slots slots c o = .live := by
    intro o ho
    cases a with
    | alloc c' o' =>
      show (if c = c' ∧ o = o' then LfwSlot.live else slots c o) = .live
      split
      · rfl
      · exact ho
    | _ => exact ho
  exact ⟨hset _ h.1, hset _ h.2⟩

/-- A release takes the cache it destroys. -/
theorem LfwRelease.cached_free : ¬ ((LfwRelease.free c .cache).slots slots).Cached c := by
  intro h
  have hcache : (if c = c ∧ LfwObject.cache = .cache then LfwSlot.dangling else slots c .cache) =
      .live := h.2
  rw [if_pos ⟨rfl, rfl⟩] at hcache
  cases hcache

/-- Where a cache is there before a release, it is there after it, unless it is what the
release destroys. -/
theorem LfwCode.Sound.cached_release {r : LfwRelease} {next : LfwCode}
    (h : (LfwCode.release r next).Sound slots) (hc : c ∈ lfwCached) (hcached : slots.Cached c) :
    (r.slots slots).Cached c ↔ r ≠ .free c .cache := by
  constructor
  · rintro hafter rfl
    exact LfwRelease.cached_free hafter
  · intro hne
    -- the code before the release was to destroy the cache, and the release does not
    have hdestroys := (h.tracks c hc).1 hcached
    simp only [LfwCode.destroys, hne, decide_false, Bool.false_or] at hdestroys
    exact (h.2.tracks c hc).2 hdestroys

/-- What a step of the code has to wait for, and when a command may come. -/
def LfwTimely (s : LfwLife) : LfwLifeEvent → Prop
  | .advance _ => ∀ c, s.code.next = some (.free c .cache) → ∀ cmd ∈ s.running, c ∉ cmd.caches
  | .handle cmd => s.registered = true → ∀ c ∈ cmd.caches, s.code.destroys c = true
  | .handled _ => True

/-- **A step of the code serves who was served**, unless it destroys a cache that a handler
works in. -/
theorem LfwLife.served_advance {ok : Bool} (h : s.code.Sound s.slots) (hs : s.Served) :
    (s.advance ok).Served ↔ LfwTimely s (.advance ok) := by
  obtain ⟨code, registered, slots, running⟩ := s
  have hquiet : code.next = none → LfwTimely ⟨code, registered, slots, running⟩ (.advance ok) := by
    intro hnext c hc
    rw [show (⟨code, registered, slots, running⟩ : LfwLife).code.next = none from hnext] at hc
    cases hc
  cases code with
  | ret => exact ⟨fun _ => hquiet rfl, fun _ => hs⟩
  | release r next =>
    have hnext : ∀ c, (LfwCode.release r next).next = some (.free c .cache) ↔ r = .free c .cache :=
      fun c => ⟨fun heq => Option.some.inj heq, fun heq => congrArg some heq⟩
    simp only [advance, LfwTimely, hnext]
    by_cases hr : r = .genlUnregisterFamily
    · subst hr
      have hsame : ∀ code' b, (⟨code', b, slots, running⟩ : LfwLife).Served := fun _ _ => hs
      constructor
      · rintro - c hc
        cases hc
      · intro _
        rw [if_pos rfl]
        split
        · exact hsame _ _
        · exact hsame _ _
    · rw [if_neg hr]
      constructor
      · rintro hserved c rfl cmd hcmd hc
        exact LfwRelease.cached_free (hserved cmd hcmd c hc)
      · intro hfree cmd hcmd c hc
        -- a handler that runs has its cache, and this release is of another
        refine (h.cached_release (mem_lfwCached hc) (hs cmd hcmd c hc)).2 ?_
        rintro rfl
        exact hfree c rfl cmd hcmd hc
  | acquire a next err =>
    refine ⟨fun _ => hquiet rfl, fun _ cmd hcmd c hc => ?_⟩
    cases ok with
    | true => exact a.cached (hs cmd hcmd c hc)
    | false => exact hs cmd hcmd c hc
  | ifNull c o null there => exact ⟨fun _ => hquiet rfl, fun _ => hs⟩

/-- **When a step serves.** -/
theorem lfwLifeStep_served_iff (ev : LfwLifeEvent) (h : s.code.Sound s.slots) (hs : s.Served) :
    (∀ s', lfwLifeStep s ev = .ok s' → s'.Served) ↔ LfwTimely s ev := by
  have hone : ∀ s₁, lfwLifeStep s ev = .ok s₁ →
      ((∀ s', lfwLifeStep s ev = .ok s' → s'.Served) ↔ s₁.Served) := by
    intro s₁ h₁
    refine ⟨fun hall => hall s₁ h₁, fun hserved s' hs' => ?_⟩
    obtain rfl := Except.ok.inj (h₁.symm.trans hs')
    exact hserved
  cases ev with
  | advance ok => exact (hone _ rfl).trans (LfwLife.served_advance h hs)
  | handle cmd =>
    rw [hone _ rfl]
    by_cases hreg : s.registered = true
    · rw [if_pos hreg]
      constructor
      · intro hserved _ c hc
        exact (h.tracks c (mem_lfwCached hc)).1 (hserved cmd (by simp) c hc)
      · intro htimely cmd' hcmd' c hc
        rcases List.mem_append.1 hcmd' with hold | hnew
        · exact hs cmd' hold c hc
        · obtain rfl := List.mem_singleton.1 hnew
          exact (h.tracks c (mem_lfwCached hc)).2 (htimely hreg c hc)
    · rw [if_neg hreg]
      exact ⟨fun _ hreg' => absurd hreg' hreg, fun _ => hs⟩
  | handled i =>
    rw [hone _ rfl]
    exact ⟨fun _ => trivial, fun _ cmd hcmd => hs cmd (List.mem_of_mem_eraseIdx hcmd)⟩

/-- Where the code stands, after any event. -/
theorem lfwLifeStep_sound {s' : LfwLife} {ev : LfwLifeEvent} (h : s.code.Sound s.slots)
    (hstep : lfwLifeStep s ev = .ok s') : s'.code.Sound s'.slots := by
  cases ev with
  | advance ok =>
    obtain rfl := Except.ok.inj hstep
    exact LfwLife.sound_advance ok h
  | handle cmd =>
    obtain rfl := Except.ok.inj hstep
    split <;> exact h
  | handled i =>
    obtain rfl := Except.ok.inj hstep
    exact h

/-! ## Runs -/

/-- **When commands find their components.** In a run of the module, with whatever fails, and
of commands that come while the family is registered, every handler has the state and the
cache of its component in every state reached, if and only if a command comes only where the
code left is to destroy that cache and not to create it, and the code destroys it only while
no handler works in it. -/
theorem lfwLife_serves_iff (evs : List LfwLifeEvent) :
    Always lfwLifeStep LfwLife.Served lfwUnloaded evs ↔
      Along lfwLifeStep LfwTimely lfwUnloaded evs := by
  have hgood : ∀ (s : LfwLife) (ev : LfwLifeEvent), s.code.Sound s.slots → s.Served →
      ((∀ s', lfwLifeStep s ev = .ok s' → s'.Served) ↔ LfwTimely s ev) :=
    fun _ ev h hs => lfwLifeStep_served_iff ev h hs
  have hkeep : ∀ (s : LfwLife) (ev : LfwLifeEvent) s', s.code.Sound s.slots → s.Served →
      lfwLifeStep s ev = .ok s' → s'.code.Sound s'.slots :=
    fun _ _ _ h _ hstep => lfwLifeStep_sound h hstep
  exact always_iff_along hgood hkeep lfwModule_sound fun _ hcmd => absurd hcmd List.not_mem_nil

/-- A list that comes once the family is registered, before the bogon state is there. -/
theorem lfwLife_unserved : ¬ ∀ evs, Always lfwLifeStep LfwLife.Served lfwUnloaded evs := by
  intro h
  have hserved := h [.advance true, .advance true, .handle .setBogon] _ [] _
    (List.append_nil _).symm rfl
  have hcached := hserved .setBogon (by decide) .bogon rfl
  exact absurd hcached (by decide)

end Librefw
