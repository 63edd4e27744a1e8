import Librefw.Bogon.Linear
import Librefw.Filter.Model.Concurrent
import Librefw.Filter.Verdict
import Librefw.Hcf.Linear
import Librefw.Kernel.Concurrent

/-!
# The verdict of a call among everything else

The module with everything in flight, in its own terms, is a list of
prefixes in force, a flag and a map (`LfwConcSpec`), each of which changes
in one step. A call of the ingress hook reads the three one after another,
at moments of its own (`LfwConcCalling.step`), so its verdict is put
together from a list, a flag and a map that were in force in that order
while it ran: `lfwFilter_verdict`. They need not have been in force at
once, and `lfwFilter_not_atomic` is a packet that every moment of its call
would have dropped and the call accepts.
-/

namespace Librefw

/-! ## The parts in their own terms -/

/-- The list in force, the flag and the map. -/
structure LfwConcSpec where
  bg : LfwBgSpec
  flag : Bool
  hcf : HcfSpec

namespace LfwConcSpec

/-- The module after initialisation. -/
def init : LfwConcSpec := ⟨LfwBgSpec.init, false, HcfSpec.init⟩

/-- What an event does. -/
def step (t : LfwConcSpec) : LfwConcEvent → LfwConcSpec
  | .bg ev => { t with bg := t.bg.step ev }
  | .state ev => { t with flag := lfwFlagStep t.flag ev }
  | .hcf ev => { t with hcf := t.hcf.step ev }
  | .ingress _ => t
  | .filter _ => t

/-- The list in force has a prefix that contains the address. -/
def Bogon (e : Endian) (t : LfwConcSpec) (ip : U32) : Prop := ∃ x ∈ t.bg.current, x.Contains e ip

/-- The map does not know the address at the distance of the packet. -/
def Spoofed (t : LfwConcSpec) (ip : U32) (ttl : U8) : Prop := t.hcf.lookup ip ttl < 1

end LfwConcSpec

variable {e : Endian} {s s' : LfwConc} {t t' : LfwConcSpec} {ev : LfwConcEvent} {c : LfwCall}

/-- No prefix is longer than an address. -/
def LfwConcEvent.Short : LfwConcEvent → Prop
  | .bg ev => ev.Short
  | _ => True

/-- What a call has read is what a state of the module says. -/
def LfwSeen.Sees (e : Endian) : LfwSeen → LfwConcSpec → Prop
  | .bogon bg, t => bg.Answers e t.bg
  | .flag cell, t => lfwStateIsUnderAttack cell = .ok t.flag
  | .hop tree, t => tree.Answers t.hcf

/-- **The module stands for `t`**, and everything in flight is in order. -/
structure LfwConcMeans (e : Endian) (s : LfwConc) (t : LfwConcSpec) : Prop where
  bg : LfwBgMeans e s.bg t.bg
  state : LfwStateMeans s.state t.flag
  safe : HcfSafe s.hcf
  hcf : s.hcf.spec = t.hcf

/-! ## What a step can do -/

/-- A part stays, or takes one of its events. -/
structure LfwConcMoves (e : Endian) (s : LfwConc) (t : LfwConcSpec) (s' : LfwConc)
    (t' : LfwConcSpec) : Prop where
  bg : s'.bg = s.bg ∧ t'.bg = t.bg ∨
    ∃ ev, ev.Short ∧ lfwBgSysStep e s.bg ev = .ok s'.bg ∧ t'.bg = t.bg.step ev
  state : s'.state = s.state ∧ t'.flag = t.flag ∨
    ∃ ev, lfwStateSysStep s.state ev = .ok s'.state ∧ t'.flag = lfwFlagStep t.flag ev
  hcf : s'.hcf = s.hcf ∧ t'.hcf = t.hcf ∨
    ∃ ev, hcfSysStep s.hcf ev = .ok s'.hcf ∧ t'.hcf = t.hcf.step ev

/-- What a call becomes when its section ends. -/
inductive LfwCallNext (s s' : LfwConc) (c : LfwCall) : LfwCall → Prop where
  | blocked {n : ℕ} {r : LfwBgReader} {x : LfwBgState} {result : ℤ} (hpc : c.pc = .bogon n)
      (hr : r ∈ s.bg.readers) (hid : r.id = n) (hdone : r.pc = .done x result) (hres : 0 < result) :
      LfwCallNext s s' c { c with pc := .returned NF_DROP, seen := c.seen ++ [.bogon x] }
  | passed {n : ℕ} {r : LfwBgReader} {x : LfwBgState} {result : ℤ} (hpc : c.pc = .bogon n)
      (hr : r ∈ s.bg.readers) (hid : r.id = n) (hdone : r.pc = .done x result)
      (hres : ¬ 0 < result) (hstate : s'.state = lfwStateReaderEnter s.state) :
      LfwCallNext s s' c { c with pc := .flag s.state.clock, seen := c.seen ++ [.bogon x] }
  | quiet {n : ℕ} {r : LfwStateReader} {cell : LfwStateCell} (hpc : c.pc = .flag n)
      (hr : r ∈ s.state.readers) (hid : r.id = n) (hdone : r.pc = .done cell false) :
      LfwCallNext s s' c { c with pc := .returned NF_ACCEPT, seen := c.seen ++ [.flag cell] }
  | alarmed {n : ℕ} {r : LfwStateReader} {cell : LfwStateCell} (hpc : c.pc = .flag n)
      (hr : r ∈ s.state.readers) (hid : r.id = n) (hdone : r.pc = .done cell true)
      (hhcf : s'.hcf = hcfReaderEnter c.saddr c.ttl s.hcf) :
      LfwCallNext s s' c { c with pc := .hop s.hcf.clock, seen := c.seen ++ [.flag cell] }
  | judged {n : ℕ} {r : HcfReader} {tree : HcfTree} {result : ℤ} (hpc : c.pc = .hop n)
      (hr : r ∈ s.hcf.readers) (hid : r.id = n) (hdone : r.pc = .done tree result) :
      LfwCallNext s s' c
        { c with
          pc := .returned (if result < 1 then NF_DROP else NF_ACCEPT)
          seen := c.seen ++ [.hop tree] }

/-- The calls after an event. -/
inductive LfwCallsCase (s s' : LfwConc) : Prop where
  | same (h : s'.calls = s.calls)
  | enter (c : LfwCall) (h : s'.calls = s.calls ++ [c])
  | next {j : ℕ} {c c' : LfwCall} (hj : s.calls[j]? = some c) (hnext : LfwCallNext s s' c c')
      (h : s'.calls = s.calls.set j c')

/-- An entry found by its number has the number. -/
theorem of_findIdx {α : Type} {f : α → ℕ} {l : List α} {n : ℕ} {x : α}
    (h : l[l.findIdx fun y => f y = n]? = some x) : x ∈ l ∧ f x = n := by
  obtain ⟨hlt, hx⟩ := List.getElem?_eq_some_iff.1 h
  have hfound := @List.findIdx_getElem _ (fun y => decide (f y = n)) l hlt
  rw [hx] at hfound
  exact ⟨List.mem_of_getElem? h, of_decide_eq_true hfound⟩

theorem LfwConcMoves.refl : LfwConcMoves e s t s t :=
  ⟨Or.inl ⟨rfl, rfl⟩, Or.inl ⟨rfl, rfl⟩, Or.inl ⟨rfl, rfl⟩⟩

/-- The next step of a call: a part moves on, and where its lookup had its answer,
so does the call. -/
theorem lfwFilterStep_cases (h : LfwConcMeans e s t) (j : ℕ) :
    ∃ s', lfwFilterStep j s = .ok s' ∧ LfwConcMoves e s t s' t ∧ LfwCallsCase s s' := by
  unfold lfwFilterStep
  cases hj : s.calls[j]? with
  | none => exact ⟨s, rfl, .refl, .same rfl⟩
  | some c =>
    cases hpc : c.pc with
    | bogon n =>
      obtain ⟨bg, hrun, -, -⟩ := h.bg.step (show LfwBgEvent.Short (.readerStep (lfwBgReaderAt n s.bg)) from trivial)
      have hbg : ∃ ev, LfwBgEvent.Short ev ∧ lfwBgSysStep e s.bg ev = .ok bg ∧
          t.bg = t.bg.step ev := ⟨.readerStep _, trivial, hrun, rfl⟩
      have hstep : lfwBgReaderStep (lfwBgReaderAt n s.bg) s.bg = .ok bg := hrun
      simp only [hpc, hstep, ok_bind]
      split
      · next seen result hdone =>
        obtain ⟨r, hr, hrpc⟩ := Option.map_eq_some_iff.1 hdone
        obtain ⟨hmem, hid⟩ := of_findIdx (f := LfwBgReader.id) hr
        split
        · next hres =>
          exact ⟨_, rfl, ⟨Or.inr hbg, Or.inl ⟨rfl, rfl⟩, Or.inl ⟨rfl, rfl⟩⟩,
            .next hj (.blocked hpc hmem hid hrpc hres) rfl⟩
        · next hres =>
          exact ⟨_, rfl, ⟨Or.inr hbg, Or.inr ⟨.readerEnter, rfl, rfl⟩, Or.inl ⟨rfl, rfl⟩⟩,
            .next hj (.passed hpc hmem hid hrpc hres rfl) rfl⟩
      · exact ⟨_, rfl, ⟨Or.inr hbg, Or.inl ⟨rfl, rfl⟩, Or.inl ⟨rfl, rfl⟩⟩, .same rfl⟩
    | flag n =>
      obtain ⟨state, hrun, -⟩ := h.state.step (.readerStep (lfwStateReaderAt n s.state))
      have hstate : ∃ ev, lfwStateSysStep s.state ev = .ok state ∧
          t.flag = lfwFlagStep t.flag ev := ⟨_, hrun, rfl⟩
      have hstep : lfwStateReaderStep (lfwStateReaderAt n s.state) s.state = .ok state := hrun
      simp only [hpc, hstep, ok_bind]
      split
      · next seen result hdone =>
        obtain ⟨r, hr, hrpc⟩ := Option.map_eq_some_iff.1 hdone
        obtain ⟨hmem, hid⟩ := of_findIdx (f := LfwStateReader.id) hr
        cases result with
        | true =>
          exact ⟨_, rfl, ⟨Or.inl ⟨rfl, rfl⟩, Or.inr hstate,
            Or.inr ⟨.readerEnter c.saddr c.ttl, rfl, rfl⟩⟩,
            .next hj (.alarmed hpc hmem hid hrpc rfl) rfl⟩
        | false =>
          exact ⟨_, rfl, ⟨Or.inl ⟨rfl, rfl⟩, Or.inr hstate, Or.inl ⟨rfl, rfl⟩⟩,
            .next hj (.quiet hpc hmem hid hrpc) rfl⟩
      · exact ⟨_, rfl, ⟨Or.inl ⟨rfl, rfl⟩, Or.inr hstate, Or.inl ⟨rfl, rfl⟩⟩, .same rfl⟩
    | hop n =>
      obtain ⟨hcf, hrun, -⟩ := hcfSysStep_spec h.safe (.readerStep (hcfReaderAt n s.hcf))
      have hhcf : ∃ ev, hcfSysStep s.hcf ev = .ok hcf ∧ t.hcf = t.hcf.step ev := ⟨_, hrun, rfl⟩
      have hstep : hcfReaderStep (hcfReaderAt n s.hcf) s.hcf = .ok hcf := hrun
      simp only [hpc, hstep, ok_bind]
      split
      · next tree result hdone =>
        obtain ⟨r, hr, hrpc⟩ := Option.map_eq_some_iff.1 hdone
        obtain ⟨hmem, hid⟩ := of_findIdx (f := HcfReader.id) hr
        exact ⟨_, rfl, ⟨Or.inl ⟨rfl, rfl⟩, Or.inl ⟨rfl, rfl⟩, Or.inr hhcf⟩,
          .next hj (.judged hpc hmem hid hrpc) rfl⟩
      · exact ⟨_, rfl, ⟨Or.inl ⟨rfl, rfl⟩, Or.inl ⟨rfl, rfl⟩, Or.inr hhcf⟩, .same rfl⟩
    | returned verdict => exact ⟨s, by simp only [hpc, pure_eq_ok], .refl, .same rfl⟩

/-! ## Packets -/

/-- A packet with an IPv4 header that announces TCP. -/
def SkBuff.Tcp (skb : SkBuff) (h : Ipv4) : Prop :=
  ∃ eth ∈ skb.eth_hdr, Endian.big.word 2 (eth.drop 12) = ETH_P_IP ∧
    ∃ bytes ∈ skbHeaderPointer skb skb.network_offset sizeofIphdr,
      Ipv4.parse bytes = h ∧ h.protocol = IPPROTO_TCP

theorem SkBuff.Tcp.unique {skb : SkBuff} {h h' : Ipv4} (hh : skb.Tcp h) (hh' : skb.Tcp h') :
    h = h' := by
  obtain ⟨-, -, -, bytes, hbytes, rfl, -⟩ := hh
  obtain ⟨-, -, -, bytes', hbytes', rfl, -⟩ := hh'
  rw [Option.mem_def.1 hbytes] at hbytes'
  rw [Option.some.inj hbytes']

/-- A call that looks nothing up. -/
def lfwCallIgnored : LfwCall := ⟨0, 0, .returned NF_ACCEPT, []⟩

/-- A call that begins its first lookup. -/
def lfwCallBegun (s : LfwConc) (h : Ipv4) : LfwCall := ⟨h.source, h.ttl, .bogon s.bg.clock, []⟩

/-- A call looks something up exactly for TCP over IPv4. -/
theorem lfwFilterEnter_cases (e : Endian) (skb : SkBuff) (s : LfwConc) :
    (∃ h, skb.Tcp h ∧ lfwFilterEnter e skb s =
      { s with bg := lfwBgReaderEnter h.source s.bg, calls := s.calls ++ [lfwCallBegun s h] }) ∨
    (∀ h, ¬ skb.Tcp h) ∧ lfwFilterEnter e skb s = { s with calls := s.calls ++ [lfwCallIgnored] } := by
  unfold lfwFilterEnter
  cases heth : skb.eth_hdr with
  | none =>
    refine Or.inr ⟨fun h hh => ?_, rfl⟩
    obtain ⟨eth, hin, -⟩ := hh
    rw [heth] at hin
    cases hin
  | some eth =>
    simp only [ntohs_ethProto]
    by_cases hproto : Endian.big.word 2 (eth.drop 12) = ETH_P_IP
    · rw [if_neg (not_not.2 hproto)]
      cases hbytes : skbHeaderPointer skb skb.network_offset sizeofIphdr with
      | none =>
        refine Or.inr ⟨fun h hh => ?_, rfl⟩
        obtain ⟨-, -, -, bytes, hin, -⟩ := hh
        rw [hbytes] at hin
        cases hin
      | some bytes =>
        simp only [getUnalignedBe32_saddr]
        by_cases htcp : (IpHdr.ofBytes e bytes).protocol = IPPROTO_TCP
        · rw [if_neg (not_not.2 htcp)]
          exact Or.inl ⟨Ipv4.parse bytes, ⟨eth, heth, hproto, bytes, hbytes, rfl, htcp⟩, rfl⟩
        · rw [if_pos htcp]
          refine Or.inr ⟨fun h hh => ?_, rfl⟩
          obtain ⟨-, -, -, bytes', hin, rfl, htcp'⟩ := hh
          rw [hbytes] at hin
          obtain rfl := Option.some.inj hin
          exact htcp htcp'
    · rw [if_pos hproto]
      refine Or.inr ⟨fun h hh => ?_, rfl⟩
      obtain ⟨eth', hin, hip, -⟩ := hh
      rw [heth] at hin
      obtain rfl := Option.some.inj hin
      exact hproto hip

/-! ## Every event -/

/-- **What an event can do**: it moves the parts, and the calls. -/
theorem lfwConcStep_cases (h : LfwConcMeans e s t) (hev : ev.Short) :
    ∃ s', lfwConcStep e s ev = .ok s' ∧ LfwConcMoves e s t s' (t.step ev) ∧ LfwCallsCase s s' := by
  cases ev with
  | bg ev =>
    obtain ⟨bg, hrun, -, -⟩ := h.bg.step (show LfwBgEvent.Short ev from hev)
    unfold lfwConcStep
    simp only
    split
    · next hlookup =>
      have hsame : t.bg.step ev = t.bg := by cases ev <;> first | rfl | cases hlookup
      exact ⟨s, rfl, ⟨Or.inl ⟨rfl, hsame⟩, Or.inl ⟨rfl, rfl⟩, Or.inl ⟨rfl, rfl⟩⟩, .same rfl⟩
    · rw [hrun]
      exact ⟨_, rfl, ⟨Or.inr ⟨ev, hev, hrun, rfl⟩, Or.inl ⟨rfl, rfl⟩, Or.inl ⟨rfl, rfl⟩⟩, .same rfl⟩
  | state ev =>
    obtain ⟨state, hrun, -⟩ := h.state.step ev
    unfold lfwConcStep
    simp only
    split
    · next hlookup =>
      have hsame : lfwFlagStep t.flag ev = t.flag := by cases ev <;> first | rfl | cases hlookup
      exact ⟨s, rfl, ⟨Or.inl ⟨rfl, rfl⟩, Or.inl ⟨rfl, hsame⟩, Or.inl ⟨rfl, rfl⟩⟩, .same rfl⟩
    · rw [hrun]
      exact ⟨_, rfl, ⟨Or.inl ⟨rfl, rfl⟩, Or.inr ⟨ev, hrun, rfl⟩, Or.inl ⟨rfl, rfl⟩⟩, .same rfl⟩
  | hcf ev =>
    obtain ⟨hcf, hrun, -⟩ := hcfSysStep_spec h.safe ev
    unfold lfwConcStep
    simp only
    split
    · next hlookup =>
      have hsame : t.hcf.step ev = t.hcf := by cases ev <;> first | rfl | cases hlookup
      exact ⟨s, rfl, ⟨Or.inl ⟨rfl, rfl⟩, Or.inl ⟨rfl, rfl⟩, Or.inl ⟨rfl, hsame⟩⟩, .same rfl⟩
    · rw [hrun]
      exact ⟨_, rfl, ⟨Or.inl ⟨rfl, rfl⟩, Or.inl ⟨rfl, rfl⟩, Or.inr ⟨ev, hrun, rfl⟩⟩, .same rfl⟩
  | ingress skb =>
    refine ⟨_, rfl, ?_⟩
    rcases lfwFilterEnter_cases e skb s with ⟨hd, -, henter⟩ | ⟨-, henter⟩ <;> rw [henter]
    · exact ⟨⟨Or.inr ⟨.readerEnter hd.source, trivial, rfl, rfl⟩, Or.inl ⟨rfl, rfl⟩,
        Or.inl ⟨rfl, rfl⟩⟩, .enter _ rfl⟩
    · exact ⟨⟨Or.inl ⟨rfl, rfl⟩, Or.inl ⟨rfl, rfl⟩, Or.inl ⟨rfl, rfl⟩⟩, .enter _ rfl⟩
  | filter j => exact lfwFilterStep_cases h j

/-- Moves keep what the module stands for. -/
theorem LfwConcMeans.moves (h : LfwConcMeans e s t) (hm : LfwConcMoves e s t s' t') :
    LfwConcMeans e s' t' := by
  have hbg : LfwBgMeans e s'.bg t'.bg := by
    rcases hm.bg with ⟨hs, ht⟩ | ⟨ev, hev, hrun, ht⟩
    · rw [hs, ht]
      exact h.bg
    · obtain ⟨bg, hrun', -, hmeans⟩ := h.bg.step hev
      rw [ht, ← Except.ok.inj (hrun'.symm.trans hrun)]
      exact hmeans
  have hstate : LfwStateMeans s'.state t'.flag := by
    rcases hm.state with ⟨hs, ht⟩ | ⟨ev, hrun, ht⟩
    · rw [hs, ht]
      exact h.state
    · obtain ⟨state, hrun', hmeans, -⟩ := h.state.step ev
      rw [ht, ← Except.ok.inj (hrun'.symm.trans hrun)]
      exact hmeans
  rcases hm.hcf with ⟨hs, ht⟩ | ⟨ev, hrun, ht⟩
  · exact ⟨hbg, hstate, hs ▸ h.safe, by rw [hs, ht, h.hcf]⟩
  · obtain ⟨hcf, hrun', hsafe, hspec⟩ := hcfSysStep_spec h.safe ev
    obtain rfl := Except.ok.inj (hrun'.symm.trans hrun)
    exact ⟨hbg, hstate, hsafe, by rw [hspec, ht, h.hcf]⟩

/-! ## One call -/

/-- A call is where it is because of what it has read. -/
def LfwCall.Running (e : Endian) (s : LfwConc) (t : LfwConcSpec) (c : LfwCall) : Prop :=
  match c.pc with
  | .bogon n => LfwBgCalling e n c.saddr s.bg t.bg ∧ c.seen = []
  | .flag n => LfwStateCalling n s.state t.flag ∧
      ∃ bg r, c.seen = [.bogon bg] ∧ lfwLookupBgTree bg c.saddr = .ok r ∧ ¬ 0 < r
  | .hop n => HcfCalling n c.saddr c.ttl s.hcf t.hcf ∧
      ∃ bg r cell, c.seen = [.bogon bg, .flag cell] ∧ lfwLookupBgTree bg c.saddr = .ok r ∧
        ¬ 0 < r ∧ lfwStateIsUnderAttack cell = .ok true
  | .returned v =>
      (∃ bg r, c.seen = [.bogon bg] ∧ lfwLookupBgTree bg c.saddr = .ok r ∧ 0 < r ∧ v = NF_DROP) ∨
      (∃ bg r cell, c.seen = [.bogon bg, .flag cell] ∧ lfwLookupBgTree bg c.saddr = .ok r ∧
        ¬ 0 < r ∧ lfwStateIsUnderAttack cell = .ok false ∧ v = NF_ACCEPT) ∨
      ∃ bg r cell tree hop, c.seen = [.bogon bg, .flag cell, .hop tree] ∧
        lfwLookupBgTree bg c.saddr = .ok r ∧ ¬ 0 < r ∧ lfwStateIsUnderAttack cell = .ok true ∧
        hcfLookupTree tree.tree tree.mem c.saddr c.ttl = .ok hop ∧
        v = if hop < 1 then NF_DROP else NF_ACCEPT

/-- What a call has read, with what its present section has. -/
def LfwCall.Saw (s : LfwConc) (c : LfwCall) (xs : List LfwSeen) : Prop :=
  match c.pc with
  | .bogon n => ∃ ys, s.bg.Seen n ys ∧ xs = c.seen ++ ys.map .bogon
  | .flag n => ∃ ys, s.state.Seen n ys ∧ xs = c.seen ++ ys.map .flag
  | .hop n => ∃ ys, s.hcf.Seen n ys ∧ xs = c.seen ++ ys.map .hop
  | .returned _ => xs = c.seen

/-- What a section sees more, its call sees more. -/
theorem sees_map {χ : Type} {Seen Seen' : List χ → Prop} {f : χ → LfwSeen} {xs₁ : List LfwSeen}
    (h : ∀ ys, Seen' ys → Seen ys ∨ ∃ ys₀ y, ys = ys₀ ++ [y] ∧ Seen ys₀ ∧ (f y).Sees e t)
    {xs : List LfwSeen} (hxs : ∃ ys, Seen' ys ∧ xs = xs₁ ++ ys.map f) :
    (∃ ys, Seen ys ∧ xs = xs₁ ++ ys.map f) ∨ ∃ xs₀ x, xs = xs₀ ++ [x] ∧
      (∃ ys, Seen ys ∧ xs₀ = xs₁ ++ ys.map f) ∧ x.Sees e t := by
  obtain ⟨ys, hys, rfl⟩ := hxs
  rcases h ys hys with hold | ⟨ys₀, y, rfl, hold, hy⟩
  · exact Or.inl ⟨ys, hold, rfl⟩
  · refine Or.inr ⟨xs₁ ++ ys₀.map f, f y, ?_, ⟨ys₀, hold, rfl⟩, hy⟩
    rw [List.map_append, ← List.append_assoc, List.map_singleton]

namespace LfwCall.Running

/-- A call that stays where it is sees no more than what the event met. -/
theorem moves (h : c.Running e s t) (hm : LfwConcMoves e s t s' t') :
    c.Running e s' t' ∧ ∀ xs, c.Saw s' xs →
      c.Saw s xs ∨ ∃ xs₀ x, xs = xs₀ ++ [x] ∧ c.Saw s xs₀ ∧ x.Sees e t := by
  unfold LfwCall.Running at h ⊢
  unfold LfwCall.Saw
  cases hpc : c.pc with
  | bogon n =>
    simp only [hpc] at h ⊢
    obtain ⟨hcall, hseen⟩ := h
    rcases hm.bg with ⟨hs, ht⟩ | ⟨ev, hev, hrun, ht⟩
    · rw [hs, ht]
      exact ⟨⟨hcall, hseen⟩, fun xs hxs => Or.inl hxs⟩
    · obtain ⟨bg, hrun', hcall', hmore⟩ := hcall.step hev
      rw [ht, ← Except.ok.inj (hrun'.symm.trans hrun)]
      exact ⟨⟨hcall', hseen⟩, fun xs hxs => sees_map hmore hxs⟩
  | flag n =>
    simp only [hpc] at h ⊢
    obtain ⟨hcall, hseen⟩ := h
    rcases hm.state with ⟨hs, ht⟩ | ⟨ev, hrun, ht⟩
    · rw [hs, ht]
      exact ⟨⟨hcall, hseen⟩, fun xs hxs => Or.inl hxs⟩
    · obtain ⟨state, hrun', hcall', hmore⟩ := hcall.step ev
      rw [ht, ← Except.ok.inj (hrun'.symm.trans hrun)]
      exact ⟨⟨hcall', hseen⟩, fun xs hxs => sees_map hmore hxs⟩
  | hop n =>
    simp only [hpc] at h ⊢
    obtain ⟨hcall, hseen⟩ := h
    rcases hm.hcf with ⟨hs, ht⟩ | ⟨ev, hrun, ht⟩
    · rw [hs, ht]
      exact ⟨⟨hcall, hseen⟩, fun xs hxs => Or.inl hxs⟩
    · obtain ⟨hcf, hrun', hcall', hmore⟩ := hcall.step ev
      rw [ht, ← Except.ok.inj (hrun'.symm.trans hrun)]
      exact ⟨⟨hcall', hseen⟩, fun xs hxs => sees_map hmore hxs⟩
  | returned v =>
    simp only [hpc] at h ⊢
    exact ⟨h, fun xs hxs => Or.inl hxs⟩

/-- A call that goes on to its next section has seen what it had seen. -/
theorem next {c' : LfwCall} (h : c.Running e s t) (hmeans : LfwConcMeans e s t)
    (hmeans' : LfwConcMeans e s' t') (hnext : LfwCallNext s s' c c') :
    c'.Running e s' t' ∧ ∀ xs, c'.Saw s' xs → c.Saw s xs := by
  unfold LfwCall.Running at h ⊢
  unfold LfwCall.Saw
  cases hnext with
  | @blocked n r x result hpc hr hid hdone hres =>
    simp only [hpc] at h ⊢
    obtain ⟨hcall, hseen⟩ := h
    have hgood := hmeans.bg.safe.readers r hr
    rw [hdone, hcall.own r hr hid] at hgood
    refine ⟨Or.inl ⟨x, result, by rw [hseen]; rfl, hgood, hres, trivial⟩, ?_⟩
    rintro xs rfl
    exact ⟨[x], ⟨r, hr, hid, by rw [hdone]; rfl⟩, rfl⟩
  | @passed n r x result hpc hr hid hdone hres hstate =>
    simp only [hpc] at h ⊢
    obtain ⟨hcall, hseen⟩ := h
    have hgood := hmeans.bg.safe.readers r hr
    rw [hdone, hcall.own r hr hid] at hgood
    refine ⟨⟨⟨hmeans'.state, ?_⟩, x, result, by rw [hseen]; rfl, hgood, hres⟩, ?_⟩
    · rw [hstate]
      exact Nat.lt_succ_self _
    · rintro xs ⟨ys, ⟨q, hq, hqid, rfl⟩, rfl⟩
      rw [hstate] at hq
      rcases List.mem_append.1 hq with hq | hq
      · exact absurd hqid
          (ne_of_lt (hmeans.state.rcu.begun ⟨q.id, q.pc.st?⟩ (List.mem_map.2 ⟨q, hq, rfl⟩)))
      · obtain rfl := List.mem_singleton.1 hq
        exact ⟨[x], ⟨r, hr, hid, by rw [hdone]; rfl⟩, List.append_nil _⟩
  | @quiet n r cell hpc hr hid hdone =>
    simp only [hpc] at h ⊢
    obtain ⟨-, bg, res, hseen, hbg, hres⟩ := h
    have hgood := hmeans.state.readers r hr
    rw [hdone] at hgood
    refine ⟨Or.inr (Or.inl ⟨bg, res, cell, by rw [hseen]; rfl, hbg, hres, hgood, trivial⟩), ?_⟩
    rintro xs rfl
    exact ⟨[cell], ⟨r, hr, hid, by rw [hdone]; rfl⟩, rfl⟩
  | @alarmed n r cell hpc hr hid hdone hhcf =>
    simp only [hpc] at h ⊢
    obtain ⟨-, bg, res, hseen, hbg, hres⟩ := h
    have hgood := hmeans.state.readers r hr
    rw [hdone] at hgood
    have hnew : ∀ q ∈ s'.hcf.readers, q.id = s.hcf.clock → q = ⟨s.hcf.clock, c.saddr, c.ttl, .entered⟩ := by
      intro q hq hqid
      rw [hhcf] at hq
      rcases List.mem_append.1 hq with hq | hq
      · exact absurd hqid (ne_of_lt (hmeans.safe.readers q hq).1)
      · exact List.mem_singleton.1 hq
    refine ⟨⟨⟨hmeans'.safe, hmeans'.hcf, ?_, fun q hq hqid => ?_⟩, bg, res, cell,
      by rw [hseen]; rfl, hbg, hres, hgood⟩, ?_⟩
    · rw [hhcf]
      exact Nat.lt_succ_self _
    · rw [hnew q hq hqid]
      exact ⟨rfl, rfl⟩
    · rintro xs ⟨ys, ⟨q, hq, hqid, rfl⟩, rfl⟩
      rw [hnew q hq hqid]
      exact ⟨[cell], ⟨r, hr, hid, by rw [hdone]; rfl⟩, List.append_nil _⟩
  | @judged n r tree result hpc hr hid hdone =>
    simp only [hpc] at h ⊢
    obtain ⟨hcall, bg, res, cell, hseen, hbg, hres, hcell⟩ := h
    have hgood := (hmeans.safe.readers r hr).2
    obtain ⟨hip, httl⟩ := hcall.own r hr hid
    rw [hdone] at hgood
    have hlook : hcfLookupTree tree.tree tree.mem r.source_ip r.ttl = .ok result := hgood
    rw [hip, httl] at hlook
    refine ⟨Or.inr (Or.inr ⟨bg, res, cell, tree, result, by rw [hseen]; rfl, hbg, hres, hcell,
      hlook, rfl⟩), ?_⟩
    rintro xs rfl
    exact ⟨[tree], ⟨r, hr, hid, by rw [hdone]; rfl⟩, rfl⟩

end LfwCall.Running

/-- The `j`-th call, under way or back, in a state that stands for `t`. -/
structure LfwConcCalling (e : Endian) (j : ℕ) (h : Ipv4) (s : LfwConc) (t : LfwConcSpec) : Prop where
  means : LfwConcMeans e s t
  call : ∃ c, s.calls[j]? = some c ∧ c.saddr = h.source ∧ c.ttl = h.ttl ∧ c.Running e s t

/-- What the `j`-th call has read. -/
def LfwConc.Saw (j : ℕ) (s : LfwConc) (xs : List LfwSeen) : Prop :=
  ∃ c, s.calls[j]? = some c ∧ c.Saw s xs

/-- **A call goes on through any event**, and reads no more than what the event met. -/
theorem LfwConcCalling.step {j : ℕ} {hd : Ipv4} (h : LfwConcCalling e j hd s t) (hev : ev.Short) :
    ∃ s', lfwConcStep e s ev = .ok s' ∧ LfwConcCalling e j hd s' (t.step ev) ∧
      ∀ xs, s'.Saw j xs → s.Saw j xs ∨
        ∃ xs₀ x, xs = xs₀ ++ [x] ∧ s.Saw j xs₀ ∧ x.Sees e t := by
  obtain ⟨s', hrun, hmoves, hcalls⟩ := lfwConcStep_cases h.means hev
  have hmeans' := h.means.moves hmoves
  obtain ⟨c, hj, hip, httl, hrunning⟩ := h.call
  refine ⟨s', hrun, ?_⟩
  -- where the call itself is as it was
  have hsame : s'.calls[j]? = some c → LfwConcCalling e j hd s' (t.step ev) ∧
      ∀ xs, s'.Saw j xs → s.Saw j xs ∨
        ∃ xs₀ x, xs = xs₀ ++ [x] ∧ s.Saw j xs₀ ∧ x.Sees e t := by
    intro hj'
    obtain ⟨hrunning', hmore⟩ := hrunning.moves hmoves
    refine ⟨⟨hmeans', c, hj', hip, httl, hrunning'⟩, ?_⟩
    rintro xs ⟨c', hc', hxs⟩
    obtain rfl := Option.some.inj (hj'.symm.trans hc')
    rcases hmore xs hxs with hold | ⟨xs₀, x, heq, hold, hx⟩
    · exact Or.inl ⟨c, hj, hold⟩
    · exact Or.inr ⟨xs₀, x, heq, ⟨c, hj, hold⟩, hx⟩
  cases hcalls with
  | same heq => exact hsame (heq ▸ hj)
  | enter new heq =>
    refine hsame ?_
    rw [heq, List.getElem?_append_left (List.getElem?_eq_some_iff.1 hj).1]
    exact hj
  | @next i c₀ c' hi hnext heq =>
    by_cases hij : i = j
    · subst hij
      obtain rfl := Option.some.inj (hj.symm.trans hi)
      obtain ⟨hrunning', hless⟩ := hrunning.next h.means hmeans' hnext
      have hj' : s'.calls[i]? = some c' := by
        rw [heq, List.getElem?_set_self (List.getElem?_eq_some_iff.1 hi).1]
      have hsaddr : c'.saddr = c.saddr ∧ c'.ttl = c.ttl := by cases hnext <;> exact ⟨rfl, rfl⟩
      refine ⟨⟨hmeans', c', hj', hsaddr.1.trans hip, hsaddr.2.trans httl, hrunning'⟩, ?_⟩
      rintro xs ⟨c₁, hc₁, hxs⟩
      obtain rfl := Option.some.inj (hj'.symm.trans hc₁)
      exact Or.inl ⟨c, hj, hless xs hxs⟩
    · refine hsame ?_
      rw [heq, List.getElem?_set_ne hij]
      exact hj

theorem lfwConcInit_means (e : Endian) (A : Supply) :
    ∃ s, lfwConcInit A.toAllocator = .ok s ∧ LfwConcMeans e s LfwConcSpec.init ∧ s.calls = [] := by
  obtain ⟨state, hstate, hmeans, -⟩ := lfwStateSysInit_means A
  obtain ⟨bg, hbg, hbgmeans, -⟩ := lfwBgSysInit_means e A
  obtain ⟨hcf, hhcf, hsafe, hspec⟩ := hcfSysInit_spec A
  refine ⟨⟨bg, state, hcf, []⟩, ?_, ⟨hbgmeans, hmeans, hsafe, hspec⟩, rfl⟩
  unfold lfwConcInit
  rw [hstate, hbg, hhcf]
  rfl

/-- Every run is a run of the list, the flag and the map. -/
theorem lfwConcRun_means {evs : List LfwConcEvent} (h : LfwConcMeans e s t)
    (hshort : ∀ ev ∈ evs, ev.Short) :
    ∃ s', run (lfwConcStep e) s evs = .ok s' ∧ LfwConcMeans e s' (evs.foldl LfwConcSpec.step t) := by
  refine run_simulation (P := LfwConcEvent.Short) (fun s t ev hs hev => ?_) h hshort
  obtain ⟨s', hrun, hmoves, -⟩ := lfwConcStep_cases hs hev
  exact ⟨s', hrun, hs.moves hmoves⟩

/-! ## The verdict -/

/-- A verdict that states in a list, in their order, give. -/
inductive LfwVerdict (e : Endian) (h : Ipv4) (ts : List LfwConcSpec) : ℕ → Prop where
  | blocked {t₁ : LfwConcSpec} (hmet : t₁ ∈ ts) (hbogon : t₁.Bogon e h.source) :
      LfwVerdict e h ts NF_DROP
  | quiet {t₁ t₂ : LfwConcSpec} (hmet : [t₁, t₂].Sublist ts) (hbogon : ¬ t₁.Bogon e h.source)
      (hflag : t₂.flag = false) : LfwVerdict e h ts NF_ACCEPT
  | spoofed {t₁ t₂ t₃ : LfwConcSpec} (hmet : [t₁, t₂, t₃].Sublist ts)
      (hbogon : ¬ t₁.Bogon e h.source) (hflag : t₂.flag = true)
      (hhop : t₃.Spoofed h.source h.ttl) : LfwVerdict e h ts NF_DROP
  | genuine {t₁ t₂ t₃ : LfwConcSpec} (hmet : [t₁, t₂, t₃].Sublist ts)
      (hbogon : ¬ t₁.Bogon e h.source) (hflag : t₂.flag = true)
      (hhop : ¬ t₃.Spoofed h.source h.ttl) : LfwVerdict e h ts NF_ACCEPT

/-- A call that is back has the verdict of what it read. -/
theorem LfwCall.Running.verdict {v : ℕ} {h : Ipv4} {ts : List LfwConcSpec}
    (hc : c.Running e s t) (hip : c.saddr = h.source) (httl : c.ttl = h.ttl)
    (hpc : c.pc = .returned v)
    (hmet : List.SublistForall₂ (LfwSeen.Sees e) c.seen ts) : LfwVerdict e h ts v := by
  obtain ⟨l, hl, hsub⟩ := List.sublistForall₂_iff.1 hmet
  unfold LfwCall.Running at hc
  rw [hip, httl, hpc] at hc
  -- the lookup of the list, on the state it was made on
  have hbogon : ∀ {bg r t₁}, LfwSeen.Sees e (.bogon bg) t₁ →
      lfwLookupBgTree bg h.source = .ok r → (0 < r ↔ t₁.Bogon e h.source) := by
    intro bg r t₁ hsees hr
    obtain ⟨r', hr', hiff⟩ := hsees h.source
    obtain rfl := Except.ok.inj (hr'.symm.trans hr)
    exact hiff
  rcases hc with ⟨bg, r, hseen, hbg, hres, rfl⟩ | ⟨bg, r, cell, hseen, hbg, hres, hcell, rfl⟩ |
      ⟨bg, r, cell, tree, hop, hseen, hbg, hres, hcell, hlook, rfl⟩ <;> rw [hseen] at hl
  · obtain ⟨t₁, l', h₁, -, rfl⟩ := List.forall₂_cons_left_iff.1 hl
    exact .blocked (hsub.subset List.mem_cons_self) ((hbogon h₁ hbg).1 hres)
  · obtain ⟨t₁, l', h₁, hl', rfl⟩ := List.forall₂_cons_left_iff.1 hl
    obtain ⟨t₂, l₂, h₂, hnil, rfl⟩ := List.forall₂_cons_left_iff.1 hl'
    obtain rfl := List.forall₂_nil_left_iff.1 hnil
    exact .quiet hsub (mt (hbogon h₁ hbg).2 hres) (Except.ok.inj (h₂.symm.trans hcell))
  · obtain ⟨t₁, l', h₁, hl', rfl⟩ := List.forall₂_cons_left_iff.1 hl
    obtain ⟨t₂, l₂, h₂, hl₂, rfl⟩ := List.forall₂_cons_left_iff.1 hl'
    obtain ⟨t₃, l₃, h₃, hnil, rfl⟩ := List.forall₂_cons_left_iff.1 hl₂
    obtain rfl := List.forall₂_nil_left_iff.1 hnil
    have hnot := mt (hbogon h₁ hbg).2 hres
    have hflag := Except.ok.inj (h₂.symm.trans hcell)
    obtain rfl := Except.ok.inj ((h₃ h.source h.ttl).symm.trans hlook)
    split
    · next hhop => exact .spoofed hsub hnot hflag hhop
    · next hhop => exact .genuine hsub hnot hflag hhop

/-- A call that is back stays as it is. -/
theorem LfwCallsCase.returned {j v : ℕ} (h : LfwCallsCase s s') (hj : s.calls[j]? = some c)
    (hpc : c.pc = .returned v) : s'.calls[j]? = some c := by
  cases h with
  | same heq => exact heq ▸ hj
  | enter new heq =>
    rw [heq, List.getElem?_append_left (List.getElem?_eq_some_iff.1 hj).1]
    exact hj
  | @next i c₀ c' hi hnext heq =>
    by_cases hij : i = j
    · subst hij
      obtain rfl := Option.some.inj (hj.symm.trans hi)
      cases hnext <;> simp_all
    · rw [heq, List.getElem?_set_ne hij]
      exact hj

/-- **The verdict of a call.** In every run without overlong prefixes, whatever
happens between the first step of a call of the ingress hook and its last, a
packet that is not TCP over IPv4 is accepted, and the verdict on any other is
the one of a list, a flag and a map that were in force, in that order, while
the call ran. -/
theorem lfwFilter_verdict (e : Endian) (A : Supply) (pre mid : List LfwConcEvent) (skb : SkBuff)
    (hpre : ∀ ev ∈ pre, ev.Short) (hmid : ∀ ev ∈ mid, ev.Short) :
    ∃ s₀ s₁ s₂ c, lfwConcInit A.toAllocator = .ok s₀ ∧ run (lfwConcStep e) s₀ pre = .ok s₁ ∧
      run (lfwConcStep e) s₁ (.ingress skb :: mid) = .ok s₂ ∧ s₂.calls[s₁.calls.length]? = some c ∧
      ((∀ h, ¬ skb.Tcp h) → c.pc = .returned NF_ACCEPT) ∧
      ∀ h, skb.Tcp h → ∀ v, c.pc = .returned v →
        LfwVerdict e h (met LfwConcSpec.step (pre.foldl LfwConcSpec.step LfwConcSpec.init) mid) v := by
  obtain ⟨s₀, hinit, hmeans₀, -⟩ := lfwConcInit_means e A
  obtain ⟨s₁, hrun₁, hmeans₁⟩ := lfwConcRun_means hmeans₀ hpre
  generalize pre.foldl LfwConcSpec.step LfwConcSpec.init = t₁ at hmeans₁ ⊢
  have hlast : ∀ c, (s₁.calls ++ [c])[s₁.calls.length]? = some c := fun c => by simp
  have hmoves₂ := lfwConcStep_cases hmeans₁ (show LfwConcEvent.Short (.ingress skb) from trivial)
  rcases lfwFilterEnter_cases e skb s₁ with ⟨hd, htcp, henter⟩ | ⟨hnot, henter⟩
  · obtain ⟨_, hrun, hmoves, -⟩ := hmoves₂
    obtain rfl := Except.ok.inj hrun
    rw [henter] at hmoves
    -- the call begins: its section has a new number
    have hold : ∀ r ∈ s₁.bg.readers, r.id < s₁.bg.clock := fun r hr =>
      hmeans₁.bg.safe.rcu.begun ⟨r.id, r.pc.tree?⟩ (List.mem_map.2 ⟨r, hr, rfl⟩)
    have hnew : ∀ r ∈ (lfwBgReaderEnter hd.source s₁.bg).readers, r.id = s₁.bg.clock →
        r = ⟨s₁.bg.clock, hd.source, .entered⟩ := by
      intro r hr hid
      rcases List.mem_append.1 hr with hr | hr
      · exact absurd hid (ne_of_lt (hold r hr))
      · exact List.mem_singleton.1 hr
    have hmeans := hmeans₁.moves hmoves
    have hcall : LfwConcCalling e s₁.calls.length hd { s₁ with
        bg := lfwBgReaderEnter hd.source s₁.bg, calls := s₁.calls ++ [lfwCallBegun s₁ hd] } t₁ := by
      refine ⟨hmeans, lfwCallBegun s₁ hd, hlast _, rfl, rfl, ⟨hmeans.bg, Nat.lt_succ_self _,
        fun r hr hid => ?_⟩, rfl⟩
      rw [hnew r hr hid]
      rfl
    have hstep := fun s t ev (h : LfwConcCalling e s₁.calls.length hd s t)
      (hev : LfwConcEvent.Short ev) => h.step hev
    obtain ⟨s₂, hrun₂, ⟨-, c, hc, hip, httl, hrunning⟩, hsaw⟩ := run_observes hstep hcall hmid
    refine ⟨s₀, s₁, s₂, c, hinit, hrun₁, ?_, hc, fun hnone => absurd htcp (hnone hd),
      fun h hh v hpc => ?_⟩
    · rw [run_cons]
      show run _ (lfwFilterEnter e skb s₁) mid = _
      rw [henter]
      exact hrun₂
    · obtain rfl := htcp.unique hh
      obtain ⟨xs₀, ys, hsplit, ⟨c₀, hc₀, hsaw₀⟩, hmet⟩ :=
        hsaw c.seen ⟨c, hc, by unfold LfwCall.Saw; rw [hpc]⟩
      obtain rfl := Option.some.inj ((hlast _).symm.trans hc₀)
      -- at its first step it had read nothing
      obtain ⟨zs, ⟨r, hr, hid, rfl⟩, rfl⟩ := hsaw₀
      rw [hnew r hr hid] at hsplit
      obtain rfl : c.seen = ys := hsplit
      exact hrunning.verdict hip httl hpc hmet
  · have hstep : ∀ s t ev, LfwConcMeans e s t ∧ s.calls[s₁.calls.length]? = some lfwCallIgnored →
        LfwConcEvent.Short ev → ∃ s', lfwConcStep e s ev = .ok s' ∧
          LfwConcMeans e s' (t.step ev) ∧ s'.calls[s₁.calls.length]? = some lfwCallIgnored := by
      rintro s t ev ⟨hs, hc⟩ hev
      obtain ⟨s', hrun, hmoves, hcalls⟩ := lfwConcStep_cases hs hev
      exact ⟨s', hrun, hs.moves hmoves, hcalls.returned hc rfl⟩
    have hignored : LfwConcMeans e { s₁ with calls := s₁.calls ++ [lfwCallIgnored] } t₁ :=
      ⟨hmeans₁.bg, hmeans₁.state, hmeans₁.safe, hmeans₁.hcf⟩
    obtain ⟨s₂, hrun₂, -, hc⟩ := run_simulation hstep ⟨hignored, hlast _⟩ hmid
    refine ⟨s₀, s₁, s₂, _, hinit, hrun₁, ?_, hc, fun _ => rfl, fun h hh => absurd hh (hnot h)⟩
    rw [run_cons]
    show run _ (lfwFilterEnter e skb s₁) mid = _
    rw [henter]
    exact hrun₂

/-- A packet from `10.1.2.3` under attack, whose prefix is blocked and the attack over before its
call asks for the flag. -/
def lfwTornPre : List LfwConcEvent := [.state (.swap .next true)]

def lfwTornMid : List LfwConcEvent :=
  List.replicate 3 (.filter 0) ++
    [.bg (.loadStart .next [⟨0x0000000A#32, 8⟩]), .bg (.loadPrefix .next 0), .bg (.loadSwap 0),
      .state (.swap .next false)] ++ List.replicate 3 (.filter 0)

theorem lfwFilter_verdict_sample :
    ∃ s₀ s₁ s₂ c, lfwConcInit Supply.next.toAllocator = .ok s₀ ∧
      run (lfwConcStep .little) s₀ lfwTornPre = .ok s₁ ∧
      run (lfwConcStep .little) s₁ (.ingress (lfwSampleSkb [10, 1, 2, 3] 60) :: lfwTornMid) =
        .ok s₂ ∧
      s₂.calls[s₁.calls.length]? = some c ∧ ∀ v, c.pc = .returned v →
        LfwVerdict .little (Ipv4.parse (lfwSampleSkb [10, 1, 2, 3] 60).data)
          (met LfwConcSpec.step (lfwTornPre.foldl LfwConcSpec.step LfwConcSpec.init) lfwTornMid) v := by
  have hpre : ∀ ev ∈ lfwTornPre, LfwConcEvent.Short ev := by
    simp [lfwTornPre, LfwConcEvent.Short]
  have hmid : ∀ ev ∈ lfwTornMid, LfwConcEvent.Short ev := by
    simp [lfwTornMid, LfwConcEvent.Short, LfwBgEvent.Short]
  obtain ⟨s₀, s₁, s₂, c, hinit, hrun₁, hrun₂, hc, -, hverdict⟩ := lfwFilter_verdict .little .next
    lfwTornPre lfwTornMid (lfwSampleSkb [10, 1, 2, 3] 60) hpre hmid
  exact ⟨s₀, s₁, s₂, c, hinit, hrun₁, hrun₂, hc,
    hverdict _ ⟨_, rfl, by decide, _, rfl, by decide, by decide⟩⟩

/-- Where that call is in the end. -/
def lfwTornCall : Option LfwCallPc :=
  match lfwConcInit Supply.next.toAllocator with
  | .error _ => none
  | .ok s₀ =>
    match run (lfwConcStep .little) s₀ lfwTornPre with
    | .error _ => none
    | .ok s₁ =>
      match run (lfwConcStep .little) s₁ (.ingress (lfwSampleSkb [10, 1, 2, 3] 60) :: lfwTornMid) with
      | .error _ => none
      | .ok s₂ => s₂.calls[0]?.map LfwCall.pc

theorem lfwTornCall_eq : lfwTornCall = some (.returned NF_ACCEPT) := by decide +kernel

/-- What a packet would get if its call took no time. -/
def LfwConcSpec.Drops (e : Endian) (h : Ipv4) (t : LfwConcSpec) : Prop :=
  t.Bogon e h.source ∨ t.flag = true ∧ t.Spoofed h.source h.ttl

instance LfwConcSpec.decidableDrops (e : Endian) (h : Ipv4) (t : LfwConcSpec) :
    Decidable (t.Drops e h) :=
  inferInstanceAs (Decidable ((∃ x ∈ t.bg.current, x.Contains e h.source) ∨
    t.flag = true ∧ t.hcf.lookup h.source h.ttl < 1))

/-- **The hook is not atomic**: it accepts a packet that every moment of its call
would have dropped. -/
theorem lfwFilter_not_atomic :
    (lfwSampleSkb [10, 1, 2, 3] 60).Tcp (Ipv4.parse (lfwSampleSkb [10, 1, 2, 3] 60).data) ∧
    lfwTornCall = some (.returned NF_ACCEPT) ∧
    ∀ t ∈ met LfwConcSpec.step (lfwTornPre.foldl LfwConcSpec.step LfwConcSpec.init) lfwTornMid,
      t.Drops .little (Ipv4.parse (lfwSampleSkb [10, 1, 2, 3] 60).data) := by
  refine ⟨⟨_, rfl, by decide, _, rfl, by decide, by decide⟩, lfwTornCall_eq, by decide +kernel⟩

end Librefw
