import Librefw.Filter.Attack

/-!
# What is learned under attack

The hook stops queueing works when the flag is set, and a work does not
look at the flag when it runs. So what was queued before the attack is
learned during it, however late: the tree holds still under attack exactly
in the runs whose works write there what is there already
(`lfwTrace_stops_iff`).
-/

namespace Librefw

open PtrTrie

variable {e : Endian} {s s' s₀ : LfwSystem} {x : LfwInput} {xs : List LfwInput}
variable {outs : List LfwOutput} {h h' h'' : HcfState} {t t' : PtrTrie HcfMeta}

/-- The same leaf at each address, and the same answer for each packet. -/
structure HcfSame (h h' : HcfState) : Prop where
  leaf : ∀ ip, hcfLeaf h' ip = hcfLeaf h ip
  lookup : ∀ ip ttl, hcfLookupTree h'.tree h'.mem ip ttl = hcfLookupTree h.tree h.mem ip ttl

theorem HcfSame.refl (h : HcfState) : HcfSame h h := ⟨fun _ => rfl, fun _ _ => rfl⟩

theorem HcfSame.trans (h₁ : HcfSame h h') (h₂ : HcfSame h' h'') : HcfSame h h'' :=
  ⟨fun ip => (h₂.leaf ip).trans (h₁.leaf ip), fun ip ttl => (h₂.lookup ip ttl).trans (h₁.lookup ip ttl)⟩

/-- Trees are told apart by their leaves. -/
theorem hcfSame_iff (hinv : HcfInv h t) (hinv' : HcfInv h' t') :
    HcfSame h h' ↔ ∀ ip, (vals t').find (ipPath ip 24) = (vals t).find (ipPath ip 24) := by
  constructor
  · intro hsame ip
    have hleaf := hsame.leaf ip
    rw [hinv.leaf, hinv'.leaf] at hleaf
    exact Except.ok.inj hleaf
  · intro hfind
    refine ⟨fun ip => by rw [hinv.leaf, hinv'.leaf, hfind], fun ip ttl => ?_⟩
    rw [← hinv.root_eq, ← hinv'.root_eq, hcfLookupTree_spec hinv.stored,
      hcfLookupTree_spec hinv'.stored, hcfVerdict, hcfVerdict, hfind]

/-- The flag is set when each of the inputs comes. -/
def LfwAttackLasts (e : Endian) (s : LfwSystem) (xs : List LfwInput) : Prop :=
  ∀ pre x post outs s', xs = pre ++ x :: post → lfwTrace e s pre = .ok (outs, s') →
    lfwStateIsUnderAttack s'.state = .ok true

/-- Under attack the tree changes with a history, and with nothing else. -/
def LfwLearningStops (e : Endian) (s₀ : LfwSystem) (xs : List LfwInput) : Prop :=
  ∀ pre mid post outs₁ s₁ outs₂ s₂, xs = pre ++ (mid ++ post) →
    lfwTrace e s₀ pre = .ok (outs₁, s₁) → lfwTrace e s₁ mid = .ok (outs₂, s₂) →
    LfwAttackLasts e s₁ mid → (∀ A info, .setHcfHistory A info ∉ mid) → HcfSame s₁.hcf s₂.hcf

/-- If the input runs a work, the leaf it is to write is there. -/
def LfwRepeats (s : LfwSystem) : LfwInput → Prop
  | .work _ i => ∀ task, s.workqueue[i]? = some task →
      hcfLeaf s.hcf task.source_ip = .ok (some (hcfMetaOf task.ttl))
  | _ => True

/-- The works that run under attack write what is there. -/
def LfwWorksRepeat (e : Endian) (s₀ : LfwSystem) (xs : List LfwInput) : Prop :=
  ∀ pre x post outs s, xs = pre ++ x :: post → lfwTrace e s₀ pre = .ok (outs, s) →
    lfwStateIsUnderAttack s.state = .ok true → LfwRepeats s x

/-- A work leaves the tree as it was if its leaf was there. -/
theorem hcfSame_work_iff {A : Allocator} {task : HcfAddNodeTask} {announced : Option HcfIpCtx}
    (hinv : HcfInv h t) (hwork : hcfRegisterIpWork A task h = .ok (announced, h')) :
    HcfSame h h' ↔ hcfLeaf h task.source_ip = .ok (some (hcfMetaOf task.ttl)) := by
  obtain ⟨t', hinv', hvals⟩ := hinv.work_any hwork
  have hself : (vals t').find (ipPath task.source_ip 24) = some (hcfMetaOf task.ttl) := by
    rw [hvals, BitTrie.find_put_self]
  rw [hcfSame_iff hinv hinv', hinv.leaf, Except.ok.injEq]
  constructor
  · intro hfind
    rw [← hfind, hself]
  · intro hleaf ip
    by_cases hkey : ipPath ip 24 = ipPath task.source_ip 24
    · rw [hkey, hself, hleaf]
    · have hlen : (ipPath ip 24).length = (ipPath task.source_ip 24).length := by
        rw [length_ipPath, length_ipPath]
      rw [hvals, BitTrie.find_put_of_ne hlen hkey]

/-- **What an input does to the tree.** Of the inputs that are no history a work may change
it, and only one whose leaf was not there. -/
theorem lfwHandle_same_iff (hinv : HcfInv s.hcf t) (hx : ∀ A info, x ≠ .setHcfHistory A info)
    (hrun : lfwHandle e s x = .ok (outs, s')) : HcfSame s.hcf s'.hcf ↔ LfwRepeats s x := by
  cases x with
  | localIn task skb =>
    obtain ⟨⟨v, s₁⟩, hhook, hrun⟩ := bind_eq_ok.1 hrun
    obtain ⟨-, rfl⟩ := Prod.mk.inj (Except.ok.inj hrun)
    -- a work queued is not yet a leaf
    rcases lfwHcLearnIpv4HookFn_cases hhook with rfl | ⟨_, -, -, -, rfl⟩
    · exact iff_of_true (HcfSame.refl _) trivial
    · exact iff_of_true (HcfSame.refl _) trivial
  | ingress skb =>
    obtain ⟨v, -, hrun⟩ := bind_eq_ok.1 hrun
    obtain ⟨-, rfl⟩ := Prod.mk.inj (Except.ok.inj hrun)
    exact iff_of_true (HcfSame.refl _) trivial
  | work A i =>
    rw [lfwHandle] at hrun
    rw [LfwRepeats]
    cases htask : s.workqueue[i]? with
    | none =>
      rw [htask] at hrun
      obtain ⟨-, rfl⟩ := Prod.mk.inj (Except.ok.inj hrun)
      exact iff_of_true (HcfSame.refl _) (fun _ hnone => by cases hnone)
    | some task =>
      rw [htask] at hrun
      obtain ⟨⟨announced, hcf⟩, hwork, hrun⟩ := bind_eq_ok.1 hrun
      obtain ⟨-, rfl⟩ := Prod.mk.inj (Except.ok.inj hrun)
      rw [hcfSame_work_iff hinv hwork]
      constructor
      · intro hleaf task' htask'
        obtain rfl := Option.some.inj htask'
        exact hleaf
      · intro hleaf
        exact hleaf task rfl
  | setBogon A info =>
    obtain ⟨⟨ret, bg⟩, -, hrun⟩ := bind_eq_ok.1 hrun
    obtain ⟨-, rfl⟩ := Prod.mk.inj (Except.ok.inj hrun)
    exact iff_of_true (HcfSame.refl _) trivial
  | setHcfHistory A info => exact absurd rfl (hx A info)
  | setUnderAttack A info =>
    obtain ⟨⟨ret, state⟩, -, hrun⟩ := bind_eq_ok.1 hrun
    obtain ⟨-, rfl⟩ := Prod.mk.inj (Except.ok.inj hrun)
    exact iff_of_true (HcfSame.refl _) trivial
  | bogonCallback i =>
    obtain ⟨bg, -, hrun⟩ := bind_eq_ok.1 hrun
    obtain ⟨-, rfl⟩ := Prod.mk.inj (Except.ok.inj hrun)
    exact iff_of_true (HcfSame.refl _) trivial
  | hcfCallback i =>
    obtain ⟨hcf, hfree, hrun⟩ := bind_eq_ok.1 hrun
    obtain ⟨-, rfl⟩ := Prod.mk.inj (Except.ok.inj hrun)
    -- what is freed at the end of a grace period is not in the tree
    obtain ⟨hcf', hfree', hinv'⟩ := hcfFreeNodeRcu_spec i hinv
    obtain rfl := Except.ok.inj (hfree'.symm.trans hfree)
    exact iff_of_true ((hcfSame_iff hinv hinv').2 fun _ => rfl) trivial
  | stateCallback i =>
    obtain ⟨state, -, hrun⟩ := bind_eq_ok.1 hrun
    obtain ⟨-, rfl⟩ := Prod.mk.inj (Except.ok.inj hrun)
    exact iff_of_true (HcfSame.refl _) trivial

/-- The tree of every state reached. -/
theorem lfwTrace_hcfInv {A₀ : Allocator} (hinit : lfwInitState A₀ = .ok s₀)
    (hrun : lfwTrace e s₀ xs = .ok (outs, s)) : ∃ t, HcfInv s.hcf t := by
  obtain ⟨t, hinv, -⟩ := (lfwTrace_stems hinit hrun).leaves
  exact ⟨t, hinv⟩

/-- **What the works of an attack may be.** In a run from initialisation the tree changes
under attack with a history and with nothing else, if and only if every work that runs while
the flag is set finds in the tree the leaf it is to write. -/
theorem lfwTrace_stops_iff {A₀ : Allocator} (hinit : lfwInitState A₀ = .ok s₀)
    (hrun : lfwTrace e s₀ xs = .ok (outs, s)) :
    LfwLearningStops e s₀ xs ↔ LfwWorksRepeat e s₀ xs := by
  constructor
  · intro hstop pre x post outs₁ s₁ hsplit hpre hflag
    by_cases hx : ∀ A info, x ≠ .setHcfHistory A info
    · -- the one input is a stretch of the attack
      rw [hsplit] at hrun
      obtain ⟨_, s₁', _, hpre', hrest⟩ := trace_append_eq_ok hrun
      obtain ⟨-, rfl⟩ := Prod.mk.inj (Except.ok.inj (hpre'.symm.trans hpre))
      obtain ⟨outs₂, s₂, _, hone, -⟩ := trace_cons_eq_ok hrest
      obtain ⟨t, hinv⟩ := lfwTrace_hcfInv hinit hpre
      refine (lfwHandle_same_iff hinv hx hone).1 (hstop pre [x] post _ _ (outs₂ ++ []) s₂ hsplit
        hpre ?_ ?_ ?_)
      · rw [lfwTrace, trace_cons_ok hone]
        rfl
      · intro pre' y post' outs' s' hone' hpre'
        obtain ⟨rfl, -, rfl⟩ : pre' = [] ∧ y = x ∧ post' = [] := by
          cases pre' with
          | nil => simpa using hone'.symm
          | cons z zs => simp at hone'
        obtain ⟨-, rfl⟩ := Prod.mk.inj (Except.ok.inj hpre')
        exact hflag
      · intro A info hmem
        exact hx A info (List.mem_singleton.1 hmem).symm
    · push Not at hx
      obtain ⟨A, info, rfl⟩ := hx
      trivial
  · intro hrepeat pre mid post outs₁ s₁ outs₂ s₂ hsplit hpre hmid hlast hhist
    -- the tree stays what it was at the beginning of the stretch, input by input
    let P (s : LfwSystem) (x : LfwInput) : Prop := (∀ A info, x ≠ .setHcfHistory A info) ∧
      LfwRepeats s x ∧ ∀ outs s', lfwHandle e s x = .ok (outs, s') → ∃ t, HcfInv s'.hcf t
    have hstep : ∀ s x outs s', (HcfSame s₁.hcf s.hcf ∧ ∃ t, HcfInv s.hcf t) → P s x →
        lfwHandle e s x = .ok (outs, s') → HcfSame s₁.hcf s'.hcf ∧ ∃ t, HcfInv s'.hcf t := by
      rintro s x outs s' ⟨hsame, t, hinv⟩ ⟨hx, hrep, hnext⟩ hone
      exact ⟨hsame.trans ((lfwHandle_same_iff hinv hx hone).2 hrep), hnext outs s' hone⟩
    have hp : ∀ pre' x post' outs' s', mid = pre' ++ x :: post' →
        lfwTrace e s₁ pre' = .ok (outs', s') → P s' x := by
      intro pre' x post' outs' s' hsplit' hpre'
      have hthere : lfwTrace e s₀ (pre ++ pre') = .ok (outs₁ ++ outs', s') := by
        rw [lfwTrace, trace_append hpre, ← lfwTrace, hpre']
        rfl
      refine ⟨fun A info hx => hhist A info (by simp [hsplit', hx]), ?_, fun outs'' s'' hone => ?_⟩
      · exact hrepeat (pre ++ pre') x (post' ++ post) _ s' (by simp [hsplit, hsplit']) hthere
          (hlast pre' x post' outs' s' hsplit' hpre')
      · refine lfwTrace_hcfInv hinit (?_ : lfwTrace e s₀ ((pre ++ pre') ++ [x]) =
          .ok ((outs₁ ++ outs') ++ (outs'' ++ []), s''))
        rw [lfwTrace, trace_append hthere, trace_cons_ok hone]
        rfl
    exact (trace_keeps hstep ⟨HcfSame.refl _, lfwTrace_hcfInv hinit hpre⟩ hp hmid).1

/-- A host seen twice, one work before the attack and one under it. -/
def lfwSampleRepeat : List LfwInput :=
  [.localIn (some ⟨0, 0⟩) (lfwSampleSkb [192, 0, 2, 1] 60),
    .localIn (some ⟨0, 0⟩) (lfwSampleSkb [192, 0, 2, 1] 60),
    .work Supply.next.toAllocator 0,
    .setUnderAttack Supply.next.toAllocator ⟨attrBytes .little ⟨LFW_NLA_UNDER_ATTACK, []⟩, 4⟩,
    .work Supply.next.toAllocator 0]

theorem lfwTrace_stops_iff_sample :
    ∃ s₀ outs s, lfwInitState Supply.next.toAllocator = .ok s₀ ∧
      lfwTrace .little s₀ lfwSampleRepeat = .ok (outs, s) ∧
      lfwStateIsUnderAttack s.state = .ok true ∧ LfwLearningStops .little s₀ lfwSampleRepeat := by
  obtain ⟨s₀, hinit⟩ : ∃ s₀, lfwInitState Supply.next.toAllocator = .ok s₀ := ⟨_, rfl⟩
  -- before the flag is set, and after the second work
  obtain ⟨_, s₁, hpre, hcalm⟩ : ∃ outs₁ s₁,
      lfwTrace .little s₀ (lfwSampleRepeat.take 2) = .ok (outs₁, s₁) ∧
      lfwStateIsUnderAttack s₁.state = .ok false := by
    obtain rfl := Except.ok.inj hinit
    exact ⟨_, _, rfl, rfl⟩
  obtain ⟨_, s₂, hmid, hqueue, hleaf⟩ : ∃ outs₂ s₂,
      lfwTrace .little s₀ (lfwSampleRepeat.take 4) = .ok (outs₂, s₂) ∧
      s₂.workqueue = [⟨0xC0000201, 60⟩] ∧ hcfLeaf s₂.hcf 0xC0000201 = .ok (some (hcfMetaOf 60)) := by
    obtain rfl := Except.ok.inj hinit
    exact ⟨_, _, rfl, rfl, rfl⟩
  obtain ⟨outs, s, hrun, hflag⟩ : ∃ outs s, lfwTrace .little s₀ lfwSampleRepeat = .ok (outs, s) ∧
      lfwStateIsUnderAttack s.state = .ok true := by
    obtain rfl := Except.ok.inj hinit
    exact ⟨_, _, rfl, rfl⟩
  refine ⟨s₀, outs, s, hinit, hrun, hflag, (lfwTrace_stops_iff hinit hrun).2 ?_⟩
  intro pre x post outs' s' hsplit hone hflag'
  have htake : pre = lfwSampleRepeat.take pre.length := by rw [hsplit]; simp
  have hx : lfwSampleRepeat[pre.length]? = some x := by rw [hsplit]; simp
  have hlen : pre.length < 5 := by
    have hall := congrArg List.length hsplit
    simp only [lfwSampleRepeat, List.length_append, List.length_cons, List.length_nil] at hall
    omega
  generalize pre.length = k at htake hx hlen
  rw [htake] at hone
  rcases (by omega : k = 0 ∨ k = 1 ∨ k = 2 ∨ k = 3 ∨ k = 4) with rfl | rfl | rfl | rfl | rfl
  · obtain rfl := Option.some.inj hx
    trivial
  · obtain rfl := Option.some.inj hx
    trivial
  · -- the first work runs with the flag clear
    obtain ⟨-, rfl⟩ := Prod.mk.inj (Except.ok.inj (hone.symm.trans hpre))
    rw [hcalm] at hflag'
    cases hflag'
  · obtain rfl := Option.some.inj hx
    trivial
  · obtain rfl := Option.some.inj hx
    obtain ⟨-, rfl⟩ := Prod.mk.inj (Except.ok.inj (hone.symm.trans hmid))
    intro task htask
    rw [hqueue] at htask
    obtain rfl := Option.some.inj htask
    exact hleaf

/-- A packet seen before the attack and learned during it: the answer for the next packet of
its host changes under attack. -/
theorem lfwTrace_learns_attacked :
    ∃ s₀ outs s, lfwInitState Supply.next.toAllocator = .ok s₀ ∧
      lfwTrace .little s₀ (lfwSampleTraffic []) = .ok (outs, s) ∧
      ¬ LfwLearningStops .little s₀ (lfwSampleTraffic []) := by
  obtain ⟨s₀, hinit⟩ : ∃ s₀, lfwInitState Supply.next.toAllocator = .ok s₀ := ⟨_, rfl⟩
  obtain ⟨outs, s, hrun⟩ : ∃ outs s, lfwTrace .little s₀ (lfwSampleTraffic []) = .ok (outs, s) := by
    obtain rfl := Except.ok.inj hinit
    exact ⟨_, _, rfl⟩
  -- the flag is set, the work runs
  obtain ⟨outs₁, s₁, outs₂, s₂, hpre, hmid, hflag, hbefore, hafter⟩ :
      ∃ outs₁ s₁ outs₂ s₂,
        lfwTrace .little s₀ ((lfwSampleTraffic []).take 2) = .ok (outs₁, s₁) ∧
        lfwTrace .little s₁ [.work Supply.next.toAllocator 0] = .ok (outs₂, s₂) ∧
        lfwStateIsUnderAttack s₁.state = .ok true ∧
        hcfLookupTree s₁.hcf.tree s₁.hcf.mem 0xC0000201#32 40#8 = .ok (-1) ∧
        hcfLookupTree s₂.hcf.tree s₂.hcf.mem 0xC0000201#32 40#8 = .ok 0 := by
    obtain rfl := Except.ok.inj hinit
    exact ⟨_, _, _, _, rfl, rfl, rfl, rfl, rfl⟩
  refine ⟨s₀, outs, s, hinit, hrun, fun hstop => ?_⟩
  have hsame := (hstop _ _ ((lfwSampleTraffic []).drop 3) _ _ _ _ rfl hpre hmid ?_ ?_).lookup
    0xC0000201#32 40#8
  · rw [hbefore, hafter] at hsame
    exact absurd hsame (by decide)
  · intro pre x post outs' s' hsplit hone
    cases pre with
    | nil =>
      obtain ⟨-, rfl⟩ := Prod.mk.inj (Except.ok.inj hone)
      exact hflag
    | cons y pre => simp at hsplit
  · intro A info hmem
    simp at hmem

end Librefw
