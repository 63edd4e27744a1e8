import Librefw.Hcf.WatchStep

/-!
# Announcements

A register work reads the leaf it wrote once more after it has dropped the
lock, to announce it, and holds no read section while it does. The leaf is
published by then, so nobody writes it, but it can be freed: by a later
work on the same prefix, which copies it and hands it to `call_rcu` last,
or by a swap of the tree it is in. `hcfAnnounce_right_iff` says that
nothing else goes wrong: the announcements a run makes are all right
exactly if none of them is made after the last callback of the next work
on its prefix, or after the grace period of the next swap, whichever of
the two came first. `hcfAnnounce_freed` is a run of two works in which one
is.
-/

namespace Librefw

open PtrTrie

/-- What a work's critical section writes, as its announcement. -/
def HcfAddNodeTask.own (task : HcfAddNodeTask) : HcfIpCtx :=
  ⟨task.source_ip, task.ttl, (hcfMetaOf task.ttl).hc⟩

/-- The announcement was read from the node the work wrote, not freed since, and is the work's
own. -/
def HcfAnnounced.Right (x : HcfAnnounced) : Prop :=
  x.gone = false ∧ x.logged.read = .ok (some x.logged.task.own)

/-- If the event is an announcement, of a work whose address a lookup had missed, it comes before
the end of the grace period that frees the leaf. -/
def HcfInTime (g : HcfWatch) : HcfEvent → Prop
  | .announce i => ∀ x, g.works[i]? = some x → x.work.logged = false → x.announces = true →
      x.leaf ≠ .freed
  | _ => True

namespace HcfWatch

variable {g : HcfWatch} {x : HcfWatched}

/-- **An announcement is right** exactly if the leaf is not freed. -/
theorem Leaf.right_iff (hleaf : g.Leaf x) (hcreated : 0 < x.work.pub.nodes_created) :
    HcfAnnounced.Right ⟨⟨x.work.task, hcfLogNewIp g.sys.mem x.work.task x.work.pub⟩, x.gone⟩ ↔
      x.leaf ≠ .freed := by
  obtain ⟨a, hrunner, ⟨hfreed, hgone⟩ | ⟨hgone, ⟨n, hn, hdata, -⟩, hh⟩⟩ := hleaf
  · refine iff_of_false (fun hright => ?_) fun hne => hne hfreed
    rw [HcfAnnounced.Right, hgone] at hright
    cases hright.1
  · have hne : x.leaf ≠ .freed := by
      intro hfreed
      rw [hfreed] at hh
      exact hh
    refine iff_of_true ⟨hgone, ?_⟩ hne
    simp only [hcfLogNewIp, if_pos hcreated, hrunner, Mem.load_of_lookup hn, ok_bind, pure_eq_ok,
      HcfAddNodeTask.own, hdata]
    rfl

/-- Only announcements are logged. -/
theorem follow_log {s' : HcfSys} {ev : HcfEvent} (hne : ∀ i, ev ≠ .announce i) :
    (g.follow s' ev).log = g.log := by
  have hswap : g.swap.log = g.log := by
    unfold swap
    split <;> rfl
  cases ev with
  | announce i => exact absurd rfl (hne i)
  | register A task =>
    show (g.register s' task).log = g.log
    unfold register
    split <;> rfl
  | callRcu i =>
    show (g.callRcu i).log = g.log
    unfold callRcu
    split
    · rfl
    · split
      · split <;> rfl
      · rfl
  | callback i =>
    show (g.callback i).log = g.log
    unfold callback
    split
    · rfl
    · split <;> rfl
  | historySwap i =>
    show (g.historySwap i).log = g.log
    unfold historySwap
    split
    · rfl
    · split
      · exact hswap
      · rfl
  | swapNull => exact hswap
  | syncDone i =>
    show (g.syncDone i).log = g.log
    unfold syncDone
    split
    · rfl
    · split <;> rfl
  | _ => rfl

/-- The condition on the work that announces. -/
theorem inTime_iff {i : ℕ} (hx : g.works[i]? = some x) : HcfInTime g (.announce i) ↔
    (x.work.logged = false → x.announces = true → x.leaf ≠ .freed) := by
  constructor
  · intro h
    exact h x hx
  · intro h y hy
    obtain rfl := Option.some.inj (hx.symm.trans hy)
    exact h

/-- **An event leaves the announcements right** exactly if it is in time. -/
theorem Sound.right_iff (h : g.Sound) (s' : HcfSys) (ev : HcfEvent) :
    (∀ x ∈ ((g.follow s' ev).settle s').log, x.Right) ↔
      (∀ x ∈ g.log, x.Right) ∧ HcfInTime g ev := by
  show (∀ x ∈ (g.follow s' ev).log, x.Right) ↔ _
  by_cases hann : ∃ i, ev = .announce i
  · obtain ⟨i, rfl⟩ := hann
    show (∀ x ∈ (g.announce i).log, x.Right) ↔ _
    cases hx : g.works[i]? with
    | none =>
      have hsame : g.announce i = g := by rw [HcfWatch.announce, hx]
      rw [hsame]
      exact ⟨fun hall => ⟨hall, fun y hy => nomatch hx.symm.trans hy⟩, fun hall => hall.1⟩
    | some x =>
      have hmem := List.mem_of_getElem? hx
      rw [inTime_iff hx]
      unfold HcfWatch.announce
      simp only [hx]
      by_cases hlogged : x.work.logged = true
      · rw [if_pos hlogged, hlogged]
        exact ⟨fun hall => ⟨hall, fun hnot => nomatch hnot⟩, fun hall => hall.1⟩
      have hpending : x.work.logged = false := Bool.not_eq_true _ ▸ hlogged
      rw [if_neg hlogged]
      by_cases hcreated : 0 < x.work.pub.nodes_created
      · have hann := (h.announces x hmem).2 hcreated
        simp only [if_pos hcreated, List.forall_mem_append, List.forall_mem_singleton,
          (h.leaves x hmem hann).right_iff hcreated, hann, hpending, forall_const]
      · simp only [if_neg hcreated]
        exact ⟨fun hall => ⟨hall, fun _ hann => absurd ((h.announces x hmem).1 hann) hcreated⟩,
          fun hall => hall.1⟩
  · rw [follow_log fun i heq => hann ⟨i, heq⟩]
    refine ⟨fun hall => ⟨hall, ?_⟩, fun hall => hall.1⟩
    cases ev with
    | announce i => exact absurd ⟨i, rfl⟩ hann
    | _ => trivial

/-- A run under watch, one event after another. -/
theorem Sound.run_right_iff (h : g.Sound) (evs : List HcfEvent) :
    ∃ g', run hcfWatchStep g evs = .ok g' ∧ run hcfSysStep g.sys evs = .ok g'.sys ∧ g'.Sound ∧
      ((∀ x ∈ g'.log, x.Right) ↔
        (∀ x ∈ g.log, x.Right) ∧ Along hcfWatchStep HcfInTime g evs) := by
  induction evs generalizing g with
  | nil => exact ⟨g, rfl, rfl, h, ⟨fun hall => ⟨hall, trivial⟩, fun hall => hall.1⟩⟩
  | cons ev evs ih =>
    obtain ⟨s', hsys, hwatch, hsound⟩ := h.step ev
    obtain ⟨g', hrun, hsysrun, hsound', hiff⟩ := ih hsound
    refine ⟨g', ?_, ?_, hsound', ?_⟩
    · rw [run_cons, hwatch, ok_bind, hrun]
    · rw [run_cons, hsys, ok_bind]
      exact hsysrun
    · rw [hiff, h.right_iff s' ev, and_assoc]
      refine and_congr_right fun _ => and_congr_right fun _ => ⟨fun hall s₁ hs₁ => ?_, fun hall => ?_⟩
      · exact Except.ok.inj (hwatch.symm.trans hs₁) ▸ hall
      · exact hall _ hwatch

end HcfWatch

/-- The watch begins with nothing to see. -/
theorem hcfWatchInit_sound {s : HcfSys} {A : Supply} (hinit : hcfSysInit A.toAllocator = .ok s) :
    (hcfWatchInit s).Sound := by
  obtain ⟨s₀, hinit₀, hsafe⟩ := hcfSysInit_safe A
  obtain rfl := Except.ok.inj (hinit₀.symm.trans hinit)
  obtain ⟨s₁, -, hs₁⟩ := bind_eq_ok.1 hinit
  obtain rfl := Except.ok.inj hs₁
  constructor
  case safe => exact hsafe
  all_goals first | rfl | exact fun _ h => nomatch h

/-- **When announcements are right.** In a run of works, histories, grace
periods and lookups in any order, every announcement made was read from the
node the work's own critical section wrote, not freed since, and says what it
wrote, exactly if each is made in time: a work whose address was new then
announces its leaf before the first later work on its prefix has had its last
callback, or, if a swap came before that work, before the grace period of the
swap has ended. -/
theorem hcfAnnounce_right_iff (A : Supply) (evs : List HcfEvent) :
    ∃ s₀ g, hcfSysInit A.toAllocator = .ok s₀ ∧ run hcfWatchStep (hcfWatchInit s₀) evs = .ok g ∧
      run hcfSysStep s₀ evs = .ok g.sys ∧ g.log.map HcfAnnounced.logged = g.sys.log ∧
      ((∀ x ∈ g.log, x.Right) ↔ Along hcfWatchStep HcfInTime (hcfWatchInit s₀) evs) := by
  obtain ⟨s₀, hinit, -⟩ := hcfSysInit_safe A
  obtain ⟨g, hrun, hsys, hsound, hiff⟩ := (hcfWatchInit_sound hinit).run_right_iff evs
  refine ⟨s₀, g, hinit, hrun, hsys, hsound.log, hiff.trans ⟨fun hall => hall.2, fun hall => ⟨?_, hall⟩⟩⟩
  exact fun _ h => nomatch h

/-- Two works on one prefix: the second retires the leaf of the first and its
grace period ends before the first announces it. -/
def hcfFreedLeafRun : List HcfEvent :=
  [.register .next ⟨0x0A000001#32, 64⟩, .register .next ⟨0x0A000002#32, 60⟩, .announce 1] ++
    List.replicate 25 (.callRcu 1) ++ List.replicate 25 (.callback 0) ++ [.announce 0]

/-- What the works of that run read. -/
def hcfFreedLeafReads : Option (List (Except Fault (Option HcfIpCtx))) :=
  match hcfSysInit Supply.next.toAllocator with
  | .error _ => none
  | .ok s₀ =>
    match run hcfSysStep s₀ hcfFreedLeafRun with
    | .error _ => none
    | .ok s => some (s.log.map HcfLogged.read)

theorem hcfFreedLeafReads_eq : hcfFreedLeafReads = some [.error (.useAfterFree 25)] := by
  decide +kernel

/-- **A work can announce a leaf that is gone.** -/
theorem hcfAnnounce_freed :
    ¬ ∀ (A : Supply) (evs : List HcfEvent), ∃ s₀ s, hcfSysInit A.toAllocator = .ok s₀ ∧
      run hcfSysStep s₀ evs = .ok s ∧ ∀ x ∈ s.log, x.read = .ok (some x.task.own) := by
  intro hall
  obtain ⟨s₀, s, hinit, hrun, hlog⟩ := hall .next hcfFreedLeafRun
  have hreads := hcfFreedLeafReads_eq
  unfold hcfFreedLeafReads at hreads
  simp only [hinit, hrun, Option.some.injEq] at hreads
  have hmem : (.error (.useAfterFree 25) : Except Fault (Option HcfIpCtx)) ∈
      s.log.map HcfLogged.read := by
    rw [hreads]
    exact List.mem_singleton_self _
  obtain ⟨x, hx, hread⟩ := List.mem_map.1 hmem
  rw [hlog x hx] at hread
  cases hread

end Librefw
