import Librefw.Common.Sections
import Librefw.Filter.Concurrent

/-!
# The sections of the calls

Every read section belongs to one call of the ingress hook, and every call
that is not back is inside one section (`LfwOwned`). `lfwConcStep_turn`
says what an event can do to calls and sections: a call that takes its turn
goes on inside its section, ends it and enters the next, or returns, and
nothing else enters or leaves.
-/

namespace Librefw

/-- The lookups of a call, in their order. -/
inductive LfwPart where
  | bogon
  | flag
  | hop

/-- The steps of a lookup, the last of which ends its section. -/
def LfwPart.full : LfwPart → ℕ
  | .bogon => 36
  | .flag => 3
  | .hop => 27

/-- The steps of the lookups after it. -/
def LfwPart.later : LfwPart → ℕ
  | .bogon => 30
  | .flag => 27
  | .hop => 0

/-! ## The parts as sections -/

def LfwBgReaderPc.left : LfwBgReaderPc → ℕ
  | .entered => 36
  | .loaded _ _ => 35
  | .descending _ _ k _ => k + 2
  | .done _ _ => 1

def LfwStateReaderPc.left : LfwStateReaderPc → ℕ
  | .entered => 3
  | .loaded _ _ => 2
  | .done _ _ => 1

def HcfReaderPc.left : HcfReaderPc → ℕ
  | .entered => 27
  | .descending _ k _ => k + 2
  | .done _ _ => 1

def LfwBgSys.sections (s : LfwBgSys) : Sections :=
  ⟨s.readers.map fun r => (r.id, r.pc.left), s.clock⟩

def LfwStateSys.sections (s : LfwStateSys) : Sections :=
  ⟨s.readers.map fun r => (r.id, r.pc.left), s.clock⟩

def HcfSys.sections (s : HcfSys) : Sections :=
  ⟨s.readers.map fun r => (r.id, r.pc.left), s.clock⟩

def LfwConc.sections (s : LfwConc) : LfwPart → Sections
  | .bogon => s.bg.sections
  | .flag => s.state.sections
  | .hop => s.hcf.sections

/-- The number of the section of a part that a call is inside. -/
def LfwCallPc.number? : LfwCallPc → LfwPart → Option ℕ
  | .bogon n, .bogon => some n
  | .flag n, .flag => some n
  | .hop n, .hop => some n
  | _, _ => none

variable {s s' : LfwConc} {e : Endian} {t t' : LfwConcSpec} {ev : LfwConcEvent} {c c' : LfwCall}
variable {p : LfwPart} {i j k n l : ℕ}

/-- No section is at its end before it ends. -/
theorem LfwConc.left_pos (h : (n, l) ∈ (s.sections p).running) : 0 < l := by
  cases p with
  | bogon =>
    obtain ⟨r, -, heq⟩ := List.mem_map.1 h
    obtain ⟨-, rfl⟩ := Prod.mk.inj heq
    cases r.pc <;> exact Nat.succ_pos _
  | flag =>
    obtain ⟨r, -, heq⟩ := List.mem_map.1 h
    obtain ⟨-, rfl⟩ := Prod.mk.inj heq
    cases r.pc <;> exact Nat.succ_pos _
  | hop =>
    obtain ⟨r, -, heq⟩ := List.mem_map.1 h
    obtain ⟨-, rfl⟩ := Prod.mk.inj heq
    cases r.pc <;> exact Nat.succ_pos _

/-! ## The next step of a lookup -/

/-- A load brings a lookup forward. -/
theorem lfwBgLoad_left {bg : LfwBgState} {r : LfwBgReader} {pc : LfwBgReaderPc}
    (h : lfwBgLoad bg r = .ok pc) (hnot : ∀ seen result, r.pc ≠ .done seen result) :
    pc.left < r.pc.left := by
  unfold lfwBgLoad at h
  cases hpc : r.pc with
  | entered =>
    simp only [hpc, pure_eq_ok, Except.ok.injEq] at h
    subst h
    exact Nat.lt_succ_self 35
  | loaded seen tree =>
    simp only [hpc] at h
    obtain ⟨t, -, h⟩ := bind_eq_ok.1 h
    cases hroot : t.root <;> simp only [hroot, pure_eq_ok, Except.ok.injEq] at h <;> subst h <;>
      simp only [LfwBgReaderPc.left] <;> omega
  | descending seen tree k runner =>
    cases k with
    | zero =>
      simp only [hpc] at h
      obtain ⟨node, -, h⟩ := bind_eq_ok.1 h
      simp only [pure_eq_ok, Except.ok.injEq] at h
      subst h
      exact Nat.lt_succ_self 1
    | succ k =>
      simp only [hpc] at h
      obtain ⟨bit, -, h⟩ := bind_eq_ok.1 h
      obtain ⟨node, -, h⟩ := bind_eq_ok.1 h
      split at h
      · simp only [pure_eq_ok, Except.ok.injEq] at h
        subst h
        simp only [LfwBgReaderPc.left]
        omega
      · cases hchild : node.child bit <;>
          simp only [hchild, pure_eq_ok, Except.ok.injEq] at h <;> subst h <;>
          simp only [LfwBgReaderPc.left] <;> omega
  | done seen result => exact absurd hpc (hnot seen result)

theorem lfwStateLoad_left {cell : LfwStateCell} {r : LfwStateReader} {pc : LfwStateReaderPc}
    (h : lfwStateLoad cell r = .ok pc) (hnot : ∀ seen result, r.pc ≠ .done seen result) :
    pc.left < r.pc.left := by
  unfold lfwStateLoad at h
  cases hpc : r.pc with
  | entered =>
    simp only [hpc, pure_eq_ok, Except.ok.injEq] at h
    subst h
    exact Nat.lt_succ_self 2
  | loaded seen st =>
    simp only [hpc] at h
    obtain ⟨st, -, h⟩ := bind_eq_ok.1 h
    simp only [pure_eq_ok, Except.ok.injEq] at h
    subst h
    exact Nat.lt_succ_self 1
  | done seen result => exact absurd hpc (hnot seen result)

theorem hcfLoad_left {m : Mem HcfNode} {tree : Ptr} {r : HcfReader} {pc : HcfReaderPc}
    (h : hcfLoad m tree r = .ok pc) (hnot : ∀ loaded result, r.pc ≠ .done loaded result) :
    pc.left < r.pc.left := by
  unfold hcfLoad at h
  cases hpc : r.pc with
  | entered =>
    cases htree : tree <;> simp only [hpc, htree, pure_eq_ok, Except.ok.injEq] at h <;> subst h <;>
      simp only [HcfReaderPc.left] <;> omega
  | descending loaded k runner =>
    cases k with
    | zero =>
      simp only [hpc] at h
      obtain ⟨node, -, h⟩ := bind_eq_ok.1 h
      simp only [pure_eq_ok, Except.ok.injEq] at h
      subst h
      exact Nat.lt_succ_self 1
    | succ k =>
      simp only [hpc] at h
      obtain ⟨node, -, h⟩ := bind_eq_ok.1 h
      cases hchild : node.child (hcfBit r.source_ip (k + 8)) <;>
        simp only [hchild, pure_eq_ok, Except.ok.injEq] at h <;> subst h <;>
        simp only [HcfReaderPc.left] <;> omega
  | done loaded result => exact absurd hpc (hnot loaded result)

/-- A lookup with its answer ends its section, any other goes on. -/
theorem lfwBgReaderStep_turn {s s' : LfwBgSys} {r : LfwBgReader} (hr : s.readers[i]? = some r)
    (hrun : lfwBgReaderStep i s = .ok s') :
    (∃ seen result, r.pc = .done seen result) ∧
        s.sections.Turn LfwPart.bogon.full (some r.id) none s'.sections ∨
      (∀ seen result, r.pc ≠ .done seen result) ∧
        s.sections.Turn LfwPart.bogon.full (some r.id) (some r.id) s'.sections := by
  unfold lfwBgReaderStep at hrun
  simp only [hr] at hrun
  split at hrun
  · next seen result hpc =>
    obtain rfl := Except.ok.inj hrun
    exact Or.inl ⟨⟨seen, result, hpc⟩, .leave_map hr (by rw [hpc]; rfl)⟩
  · next hnot =>
    obtain ⟨pc, hload, hrun⟩ := bind_eq_ok.1 hrun
    obtain rfl := Except.ok.inj hrun
    exact Or.inr ⟨hnot, .goOn_map hr rfl rfl (lfwBgLoad_left hload hnot)⟩

theorem lfwStateReaderStep_turn {s s' : LfwStateSys} {r : LfwStateReader}
    (hr : s.readers[i]? = some r) (hrun : lfwStateReaderStep i s = .ok s') :
    (∃ seen result, r.pc = .done seen result) ∧
        s.sections.Turn LfwPart.flag.full (some r.id) none s'.sections ∨
      (∀ seen result, r.pc ≠ .done seen result) ∧
        s.sections.Turn LfwPart.flag.full (some r.id) (some r.id) s'.sections := by
  unfold lfwStateReaderStep at hrun
  simp only [hr] at hrun
  split at hrun
  · next seen result hpc =>
    obtain rfl := Except.ok.inj hrun
    exact Or.inl ⟨⟨seen, result, hpc⟩, .leave_map hr (by rw [hpc]; rfl)⟩
  · next hnot =>
    obtain ⟨pc, hload, hrun⟩ := bind_eq_ok.1 hrun
    obtain rfl := Except.ok.inj hrun
    exact Or.inr ⟨hnot, .goOn_map hr rfl rfl (lfwStateLoad_left hload hnot)⟩

theorem hcfReaderStep_turn {s s' : HcfSys} {r : HcfReader} (hr : s.readers[i]? = some r)
    (hrun : hcfReaderStep i s = .ok s') :
    (∃ loaded result, r.pc = .done loaded result) ∧
        s.sections.Turn LfwPart.hop.full (some r.id) none s'.sections ∨
      (∀ loaded result, r.pc ≠ .done loaded result) ∧
        s.sections.Turn LfwPart.hop.full (some r.id) (some r.id) s'.sections := by
  unfold hcfReaderStep at hrun
  simp only [hr] at hrun
  split at hrun
  · next loaded result hpc =>
    obtain rfl := Except.ok.inj hrun
    exact Or.inl ⟨⟨loaded, result, hpc⟩, .leave_map hr (by rw [hpc]; rfl)⟩
  · next hnot =>
    obtain ⟨pc, hload, hrun⟩ := bind_eq_ok.1 hrun
    obtain rfl := Except.ok.inj hrun
    exact Or.inr ⟨hnot, .goOn_map hr rfl rfl (hcfLoad_left hload hnot)⟩

/-- A section that is there is found by its number. -/
theorem exists_findIdx {α : Type} {f : α → ℕ} {l : List α} (h : n ∈ l.map f) :
    ∃ x, l[l.findIdx fun y => f y = n]? = some x ∧ f x = n := by
  obtain ⟨x, hx, hfx⟩ := List.mem_map.1 h
  have hlt : l.findIdx (fun y => f y = n) < l.length :=
    List.findIdx_lt_length.2 ⟨x, hx, decide_eq_true hfx⟩
  exact ⟨_, List.getElem?_eq_getElem hlt, (of_findIdx (List.getElem?_eq_getElem hlt)).2⟩

/-! ## Calls and sections -/

/-- Where a call can be after its turn. -/
inductive LfwCallPc.Onward : LfwCallPc → LfwCallPc → Prop where
  | inside (pc : LfwCallPc) : Onward pc pc
  | flag (n m : ℕ) : Onward (.bogon n) (.flag m)
  | hop (n m : ℕ) : Onward (.flag n) (.hop m)
  | returned (pc : LfwCallPc) (v : ℕ) : Onward pc (.returned v)

/-- What an event does to calls and sections. -/
inductive LfwTurnCase (s s' : LfwConc) : LfwConcEvent → Prop where
  | none {ev : LfwConcEvent} (hcalls : s'.calls = s.calls) (hsame : s'.sections = s.sections)
      (hidle : ∀ j c, ev = .filter j → s.calls[j]? = some c → ∃ v, c.pc = .returned v) :
      LfwTurnCase s s' ev
  | enter {skb : SkBuff} {c : LfwCall} (hcalls : s'.calls = s.calls ++ [c])
      (hturn : ∀ p, (s.sections p).Turn p.full none (c.pc.number? p) (s'.sections p)) :
      LfwTurnCase s s' (.ingress skb)
  | turn {j : ℕ} {c c' : LfwCall} (hj : s.calls[j]? = some c)
      (hcalls : s'.calls = s.calls.set j c') (hon : c.pc.Onward c'.pc)
      (hturn : ∀ p, (s.sections p).Turn p.full (c.pc.number? p) (c'.pc.number? p) (s'.sections p)) :
      LfwTurnCase s s' (.filter j)

/-- **Every section belongs to one call**, and every call that is not back is inside one. -/
structure LfwOwned (s : LfwConc) : Prop where
  sound : ∀ p, (s.sections p).Sound p.full
  owned : ∀ p, (s.calls.filterMap fun c => c.pc.number? p).Perm (s.sections p).numbers

/-- A call's section is there. -/
theorem LfwOwned.inside (h : LfwOwned s) (hj : s.calls[j]? = some c) (hn : c.pc.number? p = some n) :
    n ∈ (s.sections p).numbers :=
  (h.owned p).mem_iff.1 (List.mem_filterMap.2 ⟨c, List.mem_of_getElem? hj, hn⟩)

/-- Two calls are not inside one section. -/
theorem LfwOwned.apart (h : LfwOwned s) (hi : s.calls[i]? = some c') (hj : s.calls[j]? = some c)
    (hij : i ≠ j) (hn : c.pc.number? p = some n) : c'.pc.number? p ≠ some n := by
  have hnd := (h.owned p).nodup_iff.2 (h.sound p).nodup
  have hpair := List.pairwise_iff_getElem.1 (List.pairwise_filterMap.1 hnd)
  obtain ⟨hilt, hi⟩ := List.getElem?_eq_some_iff.1 hi
  obtain ⟨hjlt, hj⟩ := List.getElem?_eq_some_iff.1 hj
  intro hn'
  rcases Nat.lt_or_gt_of_ne hij with hlt | hlt
  · exact hpair i j hilt hjlt hlt n (hi ▸ hn') n (hj ▸ hn) rfl
  · exact hpair j i hjlt hilt hlt n (hj ▸ hn) n (hi ▸ hn') rfl

/-! ## Every event -/

theorem LfwBgStepCase.same {s s' : LfwBgSys} {ev : LfwBgEvent} (hcase : LfwBgStepCase e s ev s')
    (hev : ¬ ev.isLookup = true) : s'.sections = s.sections := by
  cases hcase with
  | enter ip => exact absurd rfl hev
  | load hr hload hgood hnext => exact absurd rfl hev
  | leave => exact absurd rfl hev
  | _ => rfl

theorem LfwStateMeans.same {s s' : LfwStateSys} {flag : Bool} {ev : LfwStateEvent}
    (h : LfwStateMeans s flag) (hrun : lfwStateSysStep s ev = .ok s')
    (hev : ¬ ev.isLookup = true) : s'.sections = s.sections := by
  have hsame : s'.readers = s.readers ∧ s'.clock = s.clock := by
    cases ev with
    | swap A new_value =>
      obtain ⟨s₁, hs₁, -, hreaders, hclock⟩ := h.swap A new_value
      obtain rfl := Except.ok.inj (hs₁.symm.trans hrun)
      exact ⟨hreaders, hclock⟩
    | queue i =>
      obtain rfl := Except.ok.inj hrun
      unfold lfwStateQueue
      cases s.swapped[i]? <;> exact ⟨rfl, rfl⟩
    | callback i =>
      obtain ⟨s₁, hs₁, -, hreaders, hclock⟩ := h.callback i
      obtain rfl := Except.ok.inj (hs₁.symm.trans hrun)
      exact ⟨hreaders, hclock⟩
    | readerEnter => exact absurd rfl hev
    | readerStep i => exact absurd rfl hev
  rw [LfwStateSys.sections, LfwStateSys.sections, hsame.1, hsame.2]

theorem HcfStepCase.same {s s' : HcfSys} {ev : HcfEvent} (hcase : HcfStepCase s ev s')
    (hev : ¬ ev.isLookup = true) : s'.sections = s.sections := by
  cases hcase with
  | @historySwap i b hb hx =>
    obtain ⟨h1, h2, -⟩ := hcfSwap_readers b.new_tree { s with builds := s.builds.eraseIdx i }
    rw [HcfSys.sections, HcfSys.sections, h1, h2]
  | swapNull =>
    obtain ⟨h1, h2, -⟩ := hcfSwap_readers none s
    rw [HcfSys.sections, HcfSys.sections, h1, h2]
  | reader _ hlookup readers clock answers =>
    cases ev with
    | readerEnter source_ip ttl => exact absurd rfl hev
    | readerStep i => exact absurd rfl hev
    | _ => exact hlookup.elim
  | _ => rfl

theorem numbers_bogon : (s.sections .bogon).numbers = s.bg.readers.map LfwBgReader.id :=
  List.map_map

theorem numbers_flag : (s.sections .flag).numbers = s.state.readers.map LfwStateReader.id :=
  List.map_map

theorem numbers_hop : (s.sections .hop).numbers = s.hcf.readers.map HcfReader.id :=
  List.map_map

/-- A turn of a call, part by part. -/
theorem LfwTurnCase.parts {pc pc' : LfwCallPc} (hj : s.calls[j]? = some c) (hpc : c.pc = pc)
    (hpc' : c'.pc = pc') (hcalls : s'.calls = s.calls.set j c') (hon : pc.Onward pc')
    (hbogon : (s.sections .bogon).Turn LfwPart.bogon.full (pc.number? .bogon)
      (pc'.number? .bogon) (s'.sections .bogon))
    (hflag : (s.sections .flag).Turn LfwPart.flag.full (pc.number? .flag)
      (pc'.number? .flag) (s'.sections .flag))
    (hhop : (s.sections .hop).Turn LfwPart.hop.full (pc.number? .hop)
      (pc'.number? .hop) (s'.sections .hop)) : LfwTurnCase s s' (.filter j) := by
  subst hpc
  subst hpc'
  refine .turn hj hcalls hon ?_
  intro p
  cases p with
  | bogon => exact hbogon
  | flag => exact hflag
  | hop => exact hhop

/-- The turn of a call that looks its source up in the bogon list. -/
theorem lfwFilterStep_bogon (ho : LfwOwned s) (hj : s.calls[j]? = some c) (hpc : c.pc = .bogon n)
    (hrun : lfwFilterStep j s = .ok s') : LfwTurnCase s s' (.filter j) := by
  have hin := ho.inside hj (show c.pc.number? .bogon = some n by rw [hpc]; rfl)
  rw [numbers_bogon] at hin
  obtain ⟨r, hr, rfl⟩ := exists_findIdx hin
  unfold lfwFilterStep at hrun
  simp only [hj, hpc] at hrun
  obtain ⟨bg, hstep, hrun⟩ := bind_eq_ok.1 hrun
  rw [show s.bg.readers[lfwBgReaderAt r.id s.bg]? = some r from hr, Option.map_some] at hrun
  rcases lfwBgReaderStep_turn hr hstep with ⟨⟨seen, result, hdone⟩, hturn⟩ | ⟨hnot, hturn⟩
  · simp only [hdone] at hrun
    split at hrun
    · obtain rfl := Except.ok.inj hrun
      exact .parts hj hpc rfl rfl (.returned _ _) hturn .stay .stay
    · -- it asks for the flag
      obtain rfl := Except.ok.inj hrun
      exact .parts hj hpc rfl rfl (.flag _ _) hturn (.enter_map rfl) .stay
  · split at hrun
    · next seen result hdone => exact absurd (Option.some.inj hdone) (hnot seen result)
    · obtain rfl := Except.ok.inj hrun
      exact .parts hj hpc hpc (set_self hj).symm (.inside _) hturn .stay .stay

/-- The turn of a call that asks for the flag. -/
theorem lfwFilterStep_flag (ho : LfwOwned s) (hj : s.calls[j]? = some c) (hpc : c.pc = .flag n)
    (hrun : lfwFilterStep j s = .ok s') : LfwTurnCase s s' (.filter j) := by
  have hin := ho.inside hj (show c.pc.number? .flag = some n by rw [hpc]; rfl)
  rw [numbers_flag] at hin
  obtain ⟨r, hr, rfl⟩ := exists_findIdx hin
  unfold lfwFilterStep at hrun
  simp only [hj, hpc] at hrun
  obtain ⟨state, hstep, hrun⟩ := bind_eq_ok.1 hrun
  rw [show s.state.readers[lfwStateReaderAt r.id s.state]? = some r from hr,
    Option.map_some] at hrun
  rcases lfwStateReaderStep_turn hr hstep with ⟨⟨seen, result, hdone⟩, hturn⟩ | ⟨hnot, hturn⟩
  · simp only [hdone] at hrun
    split at hrun
    · -- it looks its source up among the hop counts
      obtain rfl := Except.ok.inj hrun
      exact .parts hj hpc rfl rfl (.hop _ _) .stay hturn (.enter_map rfl)
    · obtain rfl := Except.ok.inj hrun
      exact .parts hj hpc rfl rfl (.returned _ _) .stay hturn .stay
  · split at hrun
    · next seen result hdone => exact absurd (Option.some.inj hdone) (hnot seen result)
    · obtain rfl := Except.ok.inj hrun
      exact .parts hj hpc hpc (set_self hj).symm (.inside _) .stay hturn .stay

/-- The turn of a call that looks its source up among the hop counts. -/
theorem lfwFilterStep_hop (ho : LfwOwned s) (hj : s.calls[j]? = some c) (hpc : c.pc = .hop n)
    (hrun : lfwFilterStep j s = .ok s') : LfwTurnCase s s' (.filter j) := by
  have hin := ho.inside hj (show c.pc.number? .hop = some n by rw [hpc]; rfl)
  rw [numbers_hop] at hin
  obtain ⟨r, hr, rfl⟩ := exists_findIdx hin
  unfold lfwFilterStep at hrun
  simp only [hj, hpc] at hrun
  obtain ⟨hcf, hstep, hrun⟩ := bind_eq_ok.1 hrun
  rw [show s.hcf.readers[hcfReaderAt r.id s.hcf]? = some r from hr, Option.map_some] at hrun
  rcases hcfReaderStep_turn hr hstep with ⟨⟨loaded, result, hdone⟩, hturn⟩ | ⟨hnot, hturn⟩
  · simp only [hdone] at hrun
    obtain rfl := Except.ok.inj hrun
    exact .parts hj hpc rfl rfl (.returned _ _) .stay .stay hturn
  · split at hrun
    · next loaded result hdone => exact absurd (Option.some.inj hdone) (hnot loaded result)
    · obtain rfl := Except.ok.inj hrun
      exact .parts hj hpc hpc (set_self hj).symm (.inside _) .stay .stay hturn

/-- The turn of a call. -/
theorem lfwFilterStep_turn (ho : LfwOwned s) (hrun : lfwFilterStep j s = .ok s') :
    LfwTurnCase s s' (.filter j) := by
  cases hj : s.calls[j]? with
  | none =>
    unfold lfwFilterStep at hrun
    simp only [hj, pure_eq_ok, Except.ok.injEq] at hrun
    subst hrun
    refine .none rfl rfl fun j' c heq hc => ?_
    obtain rfl := LfwConcEvent.filter.inj heq
    cases hj.symm.trans hc
  | some c =>
    cases hpc : c.pc with
    | bogon n => exact lfwFilterStep_bogon ho hj hpc hrun
    | flag n => exact lfwFilterStep_flag ho hj hpc hrun
    | hop n => exact lfwFilterStep_hop ho hj hpc hrun
    | returned v =>
      unfold lfwFilterStep at hrun
      simp only [hj, hpc, pure_eq_ok, Except.ok.injEq] at hrun
      subst hrun
      refine .none rfl rfl fun j' c' heq hc => ?_
      obtain rfl := LfwConcEvent.filter.inj heq
      obtain rfl := Option.some.inj (hj.symm.trans hc)
      exact ⟨v, hpc⟩

/-- An event that is no call's turn, where calls and sections are as they were. -/
theorem LfwTurnCase.other (hcalls : s'.calls = s.calls) (hsame : s'.sections = s.sections)
    (hev : ∀ j, ev ≠ .filter j) : LfwTurnCase s s' ev :=
  .none hcalls hsame fun j _ heq => absurd heq (hev j)

/-- What an event does: a writer's is a step of its part, lookups belong to calls. -/
inductive LfwConcStepCase (e : Endian) (s : LfwConc) : LfwConcEvent → LfwConc → Prop where
  | lookup {ev : LfwConcEvent} (hev : ∀ j, ev ≠ .filter j) : LfwConcStepCase e s ev s
  | bg {ev : LfwBgEvent} {bg : LfwBgSys} (hev : ¬ ev.isLookup = true)
      (hcase : LfwBgStepCase e s.bg ev bg) : LfwConcStepCase e s (.bg ev) { s with bg := bg }
  | state {ev : LfwStateEvent} {state : LfwStateSys} (hev : ¬ ev.isLookup = true)
      (hrun : lfwStateSysStep s.state ev = .ok state) :
      LfwConcStepCase e s (.state ev) { s with state := state }
  | hcf {ev : HcfEvent} {hcf : HcfSys} (hev : ¬ ev.isLookup = true)
      (hcase : HcfStepCase s.hcf ev hcf) : LfwConcStepCase e s (.hcf ev) { s with hcf := hcf }
  | ingress (skb : SkBuff) : LfwConcStepCase e s (.ingress skb) (lfwFilterEnter e skb s)
  | filter {j : ℕ} {s' : LfwConc} (hrun : lfwFilterStep j s = .ok s') :
      LfwConcStepCase e s (.filter j) s'

/-- An event is one of these; the turn of a call has its own cases. -/
theorem lfwConcStep_case (h : LfwConcMeans e s t) (hrun : lfwConcStep e s ev = .ok s') :
    LfwConcStepCase e s ev s' := by
  unfold lfwConcStep at hrun
  cases ev with
  | bg ev =>
    simp only at hrun
    split at hrun
    · obtain rfl := Except.ok.inj hrun
      exact .lookup fun j heq => by cases heq
    · next hev =>
      obtain ⟨bg, hbg, hrun⟩ := bind_eq_ok.1 hrun
      obtain rfl := Except.ok.inj hrun
      obtain ⟨bg', hbg', hcase⟩ := lfwBgSysStep_cases h.bg.safe e ev
      obtain rfl := Except.ok.inj (hbg'.symm.trans hbg)
      exact .bg hev hcase
  | state ev =>
    simp only at hrun
    split at hrun
    · obtain rfl := Except.ok.inj hrun
      exact .lookup fun j heq => by cases heq
    · next hev =>
      obtain ⟨state, hstate, hrun⟩ := bind_eq_ok.1 hrun
      obtain rfl := Except.ok.inj hrun
      exact .state hev hstate
  | hcf ev =>
    simp only at hrun
    split at hrun
    · obtain rfl := Except.ok.inj hrun
      exact .lookup fun j heq => by cases heq
    · next hev =>
      obtain ⟨hcf, hhcf, hrun⟩ := bind_eq_ok.1 hrun
      obtain rfl := Except.ok.inj hrun
      obtain ⟨hcf', hhcf', -, hcase⟩ := hcfSysStep_safe h.safe ev
      obtain rfl := Except.ok.inj (hhcf'.symm.trans hhcf)
      exact .hcf hev hcase
  | ingress skb =>
    obtain rfl := Except.ok.inj hrun
    exact .ingress skb
  | filter j => exact .filter hrun

/-- **What an event does to calls and sections.** -/
theorem lfwConcStep_turn (h : LfwConcMeans e s t) (ho : LfwOwned s)
    (hrun : lfwConcStep e s ev = .ok s') : LfwTurnCase s s' ev := by
  cases lfwConcStep_case h hrun with
  | lookup hev => exact .other rfl rfl hev
  | bg hev hcase =>
    refine .other rfl (funext fun p => ?_) fun j heq => by cases heq
    cases p with
    | bogon => exact hcase.same hev
    | _ => rfl
  | state hev hstate =>
    refine .other rfl (funext fun p => ?_) fun j heq => by cases heq
    cases p with
    | flag => exact h.state.same hstate hev
    | _ => rfl
  | hcf hev hcase =>
    refine .other rfl (funext fun p => ?_) fun j heq => by cases heq
    cases p with
    | hop => exact hcase.same hev
    | _ => rfl
  | ingress skb =>
    rcases lfwFilterEnter_cases e skb s with ⟨hd, -, henter⟩ | ⟨-, henter⟩ <;> rw [henter]
    · refine .enter rfl ?_
      intro p
      cases p with
      | bogon => exact .enter_map rfl
      | _ => exact .stay
    · refine .enter rfl ?_
      intro p
      cases p <;> exact .stay
  | filter hstep => exact lfwFilterStep_turn ho hstep

/-- One entry replaced, in what is picked of a list. -/
theorem filterMap_set_perm {α : Type} {f : α → Option ℕ} {l : List α} {x y : α}
    (h : l[i]? = some x) :
    (l.filterMap f).Perm ((f x).toList ++ (l.eraseIdx i).filterMap f) ∧
      ((l.set i y).filterMap f).Perm ((f y).toList ++ (l.eraseIdx i).filterMap f) := by
  have hcons : ∀ z, (z :: l.eraseIdx i).filterMap f = (f z).toList ++ (l.eraseIdx i).filterMap f := by
    intro z
    rw [List.filterMap_cons]
    cases f z <;> rfl
  obtain ⟨hlt, rfl⟩ := List.getElem?_eq_some_iff.1 h
  refine ⟨?_, ?_⟩
  · rw [← hcons]
    exact ((List.getElem_cons_eraseIdx_perm hlt).filterMap f).symm
  · rw [← hcons]
    exact (List.set_perm_cons_eraseIdx hlt y).filterMap f

/-- Calls and sections stay in step. -/
theorem LfwOwned.turn (h : LfwOwned s) (hcase : LfwTurnCase s s' ev) : LfwOwned s' := by
  cases hcase with
  | none hcalls hsame hidle => exact ⟨hsame ▸ h.sound, by rw [hcalls, hsame]; exact h.owned⟩
  | @enter skb c hcalls hturn =>
    refine ⟨fun p => (hturn p).sound (h.sound p), fun p => ?_⟩
    have hperm := (hturn p).perm (h.owned p)
    have hone : [c].filterMap (fun c => c.pc.number? p) = (c.pc.number? p).toList := by
      rw [List.filterMap_cons]
      cases c.pc.number? p <;> rfl
    rw [hcalls, List.filterMap_append, hone]
    exact List.perm_append_comm.trans hperm
  | @turn j c c' hj hcalls hon hturn =>
    refine ⟨fun p => (hturn p).sound (h.sound p), fun p => ?_⟩
    obtain ⟨hold, hnew⟩ := filterMap_set_perm (f := fun c => c.pc.number? p) (y := c') hj
    have hperm := (hturn p).perm (hold.symm.trans (h.owned p))
    rw [hcalls]
    exact hnew.trans hperm

/-- Nothing is in flight after initialisation. -/
theorem lfwConcInit_eq {A : Allocator} (hinit : lfwConcInit A = .ok s) :
    ∃ bg cell m tree, s = ⟨⟨bg, [], [], [], 0, []⟩, ⟨cell, [], [], 0, []⟩,
      ⟨m, tree, [], [], [], [], 0, [], [], []⟩, []⟩ := by
  obtain ⟨state, hstate, hinit⟩ := bind_eq_ok.1 hinit
  obtain ⟨bg, hbg, hinit⟩ := bind_eq_ok.1 hinit
  obtain ⟨hcf, hhcf, hinit⟩ := bind_eq_ok.1 hinit
  obtain ⟨cell, -, hstate⟩ := bind_eq_ok.1 hstate
  obtain ⟨list, -, hbg⟩ := bind_eq_ok.1 hbg
  obtain ⟨tree, -, hhcf⟩ := bind_eq_ok.1 hhcf
  obtain rfl := Except.ok.inj hstate
  obtain rfl := Except.ok.inj hbg
  obtain rfl := Except.ok.inj hhcf
  exact ⟨list, cell, tree.mem, tree.tree, (Except.ok.inj hinit).symm⟩

theorem lfwConcInit_owned {A : Allocator} (hinit : lfwConcInit A = .ok s) : LfwOwned s := by
  obtain ⟨bg, cell, m, tree, rfl⟩ := lfwConcInit_eq hinit
  refine ⟨fun p => ?_, fun p => ?_⟩
  · cases p <;> exact ⟨fun n hn => absurd hn List.not_mem_nil, List.nodup_nil,
      fun q hq => absurd hq List.not_mem_nil⟩
  · cases p <;> exact .nil

end Librefw
