import Librefw.Bogon.Set
import Librefw.Filter.Model.Hooks
import Librefw.Hcf.Refinement
import Librefw.Kernel.State

/-!
# What the filter drops

What the module is for: a list of prefixes to block, and, while under
attack, a map of the hop counts seen, which a source has to match.
`Firewall` is this in its own terms, with the prefixes in host order and
no memory, and `Firewall.Drops` its verdict on a packet.

`FwRefines` relates it to the module, part by part, and every event keeps
the relation (`lfwStep_refines`): a packet learned queues a work, a work
writes one entry when it runs, a command replaces its part, and a callback
is invisible. So after any run the hook drops what the firewall drops
(`lfwFilterIpv4HookFn_drop_iff`).
-/

namespace Librefw

variable {e : Endian} {s s' : LfwSystem}

/-! ## The firewall -/

/-- A packet's header, in host order. -/
structure Ipv4 where
  source : U32
  ttl : U8
  protocol : U8
  deriving DecidableEq, Repr

/-- The header in the bytes of a packet. -/
def Ipv4.parse (bytes : List U8) : Ipv4 :=
  ⟨Endian.big.word 4 (bytes.drop 12), bytes.getD 8 0, bytes.getD 9 0⟩

/-- The firewall: the blocked prefixes, whether it is under attack, the hop
counts learned, and what it has seen and not yet learned. -/
structure Firewall where
  bogon : List (U32 × U8)
  underAttack : Bool
  hops : HcfMap
  pending : List HcfAddNodeTask

namespace Firewall

/-- At first nothing is blocked, and nothing known. -/
def init : Firewall := ⟨[], false, HcfMap.empty, []⟩

/-- The source is in a blocked prefix. -/
def Bogon (fw : Firewall) (ip : U32) : Prop :=
  ∃ p ∈ fw.bogon, in4GetMasked ip p.2.toNat = in4GetMasked p.1 p.2.toNat

/-- The source's prefix is unknown, or known at a distance more than two hops
off. -/
def Spoofed (fw : Firewall) (h : Ipv4) : Prop :=
  fw.hops (top24 h.source) = none ∨ ∃ x ∈ fw.hops (top24 h.source),
    2 < ((hcfGetInitialTtl h.ttl - h.ttl.toNat) - x.hc).natAbs

/-- The verdict on a packet. -/
def Drops (fw : Firewall) (skb : SkBuff) : Prop :=
  ∃ eth ∈ skb.eth_hdr, Endian.big.word 2 (eth.drop 12) = ETH_P_IP ∧
    ∃ bytes ∈ skbHeaderPointer skb skb.network_offset sizeofIphdr,
      (Ipv4.parse bytes).protocol = IPPROTO_TCP ∧
      (fw.Bogon (Ipv4.parse bytes).source ∨
        fw.underAttack = true ∧ fw.Spoofed (Ipv4.parse bytes))

instance (fw : Firewall) (ip : U32) : Decidable (fw.Bogon ip) :=
  inferInstanceAs (Decidable (∃ p ∈ _, _))

instance (fw : Firewall) (h : Ipv4) : Decidable (fw.Spoofed h) :=
  inferInstanceAs (Decidable (_ ∨ ∃ x ∈ fw.hops _, _))

instance (fw : Firewall) (skb : SkBuff) : Decidable (fw.Drops skb) :=
  inferInstanceAs (Decidable (∃ eth ∈ skb.eth_hdr, _ ∧ ∃ bytes ∈ skbHeaderPointer _ _ _, _))

/-- The prefixes of a request. -/
def listed (e : Endian) (info : GenlInfo) : List (U32 × U8) :=
  (lfwPrefixAttrs e info).map fun pos =>
    (getUnalignedBe32 e ((lfwAddrOf e pos).getD 0), (lfwLenOf e pos).getD 0)

/-- A packet that reached the host. -/
def learn (fw : Firewall) (h : Ipv4) : Firewall :=
  if h.protocol = IPPROTO_TCP ∧ fw.underAttack = false then
    { fw with pending := fw.pending ++ [⟨h.source, h.ttl⟩] }
  else fw

/-- The `i`-th pending packet is learned. -/
def work (fw : Firewall) (i : ℕ) : Firewall :=
  match fw.pending[i]? with
  | none => fw
  | some task => { fw with hops := fw.hops.register task, pending := fw.pending.eraseIdx i }

/-- What an event does. A request that lists nothing is refused. -/
def step (e : Endian) (fw : Firewall) : LfwEvent → Firewall
  | .learn skb => fw.learn (Ipv4.parse (skb.data.drop skb.network_offset))
  | .work _ i => fw.work i
  | .setBogon _ info => if lfwPrefixAttrs e info = [] then fw else { fw with bogon := listed e info }
  | .setHcfHistory _ info => { fw with hops := HcfMap.restore (hcfCarriedEntries e info) }
  | .setUnderAttack _ info => { fw with underAttack := (info.attrs e LFW_NLA_UNDER_ATTACK).isSome }
  | .bogonCallback _ | .hcfCallback _ | .stateCallback _ => fw

end Firewall

/-- The commands of well-behaved clients: a list has as many prefixes as it
announces, none longer than an address, and a history has complete entries. The
length of the attributes is an `int`. -/
def LfwEvent.WellFormed (e : Endian) : LfwEvent → Prop
  | .setBogon _ info => info.attrlen < 2 ^ 31 ∧
      lfwNumPrefix e info = (lfwPrefixAttrs e info).length ∧ ∀ pos ∈ lfwPrefixAttrs e info, ((lfwLenOf e pos).getD 0).toNat ≤ 32
  | .setHcfHistory _ info => HcfWellFormed e info
  | _ => True

/-! ## Words from the wire -/

/-- A host word read from memory, and its bytes read in network order. -/
theorem big_word_ofWord (e : Endian) {w : ℕ} (buf : List U8) :
    Endian.big.word w (e.ofWord (e.word w buf)) = Endian.big.word w buf := by
  have hlen : ((buf ++ List.replicate w 0).take w).length = w := by simp
  have hword : ∀ e' : Endian, e'.word w ((buf ++ List.replicate w 0).take w) = e'.word w buf := by
    intro e'
    unfold Endian.word
    rw [List.take_append_of_le_length (by omega), List.take_of_length_le (by omega)]
  rw [← hword e, Endian.ofWord_word e _ hlen, hword]

theorem ntohs_ethProto (e : Endian) (eth : List U8) :
    ntohs e (ethProto e eth) = Endian.big.word 2 (eth.drop 12) :=
  big_word_ofWord e (eth.drop 12)

theorem getUnalignedBe32_saddr (e : Endian) (bytes : List U8) :
    getUnalignedBe32 e (IpHdr.ofBytes e bytes).saddr = (Ipv4.parse bytes).source :=
  big_word_ofWord e (bytes.drop 12)

/-! ## The abstraction relation -/

/-- The module stands for the firewall. -/
structure FwRefines (s : LfwSystem) (fw : Firewall) : Prop where
  bogon : ∃ a t olds, LfwBgInv s.bg a t olds
  blocked : ∀ ip, LfwBlocked s.bg ip ↔ fw.Bogon ip
  state : ∃ a olds, LfwStateInv s.state fw.underAttack a olds
  hops : HcfRefines s.hcf fw.hops
  pending : s.workqueue = fw.pending

variable {fw : Firewall}

theorem lfwInitState_refines (A : Supply) :
    ∃ s, lfwInitState A.toAllocator = .ok s ∧ FwRefines s .init := by
  obtain ⟨state, a, hstate, hsinv⟩ := lfwInitStateCell_spec A
  obtain ⟨bg, b, hbg, hbinv⟩ := lfwInitBgState_spec A
  obtain ⟨hcf, hhcf, hhops⟩ := hcfInitState_refines A
  refine ⟨⟨state, bg, hcf, []⟩, ?_, ⟨b, _, _, hbinv⟩, fun ip => ?_, ⟨a, _, hsinv⟩, hhops, rfl⟩
  · simp only [lfwInitState, hstate, hbg, hhcf, ok_bind, pure_eq_ok]
  · rw [hbinv.blocked_iff]
    simp [Firewall.Bogon, Firewall.init, PtrTrie.vals, BitTrie.marks]

theorem FwRefines.underAttack (h : FwRefines s fw) :
    lfwStateIsUnderAttack s.state = .ok fw.underAttack := by
  obtain ⟨a, olds, hinv⟩ := h.state
  exact hinv.isUnderAttack

/-- What a well-formed request installs is what it lists. -/
theorem contains_installed_iff {info : GenlInfo}
    (hcount : lfwNumPrefix e info = (lfwPrefixAttrs e info).length) (ip : U32) :
    (∃ p ∈ lfwInstalled e info, p.Contains e ip) ↔
      ∃ p ∈ Firewall.listed e info, in4GetMasked ip p.2.toNat = in4GetMasked p.1 p.2.toNat := by
  unfold lfwInstalled Firewall.listed
  rw [hcount, Nat.sub_self, List.replicate_zero, List.append_nil]
  simp only [List.mem_map, exists_exists_and_eq_and, lfwSlot_eq, LfwIpPrefix.Contains,
    LfwIpPrefix.host]

/-! ## Steps -/

/-- A packet learned queues a work. -/
theorem FwRefines.learn (e : Endian) (h : FwRefines s fw) (skb : SkBuff) :
    ∃ s', lfwHcLearnIpv4HookFn e (some ⟨0, 0⟩) skb s = .ok (NF_ACCEPT, s') ∧
      FwRefines s' (fw.learn (Ipv4.parse (skb.data.drop skb.network_offset))) := by
  set bytes := skb.data.drop skb.network_offset with hbytes
  have hproto : (IpHdr.ofBytes e bytes).protocol = (Ipv4.parse bytes).protocol := rfl
  unfold lfwHcLearnIpv4HookFn ipHdr Firewall.learn
  simp only [← hbytes, hproto]
  by_cases htcp : (Ipv4.parse bytes).protocol = IPPROTO_TCP
  · cases hattack : fw.underAttack with
    | true =>
      refine ⟨s, ?_, ?_⟩
      · simp only [htcp, h.underAttack, hattack, ok_bind, ne_eq, not_true, if_false, if_true,
          pure_eq_ok]
      · rw [if_neg (by simp)]
        exact h
    | false =>
      refine ⟨{ s with
          workqueue := s.workqueue ++ [⟨(Ipv4.parse bytes).source, (Ipv4.parse bytes).ttl⟩] },
        ?_, ?_⟩
      · simp only [htcp, h.underAttack, hattack, ok_bind, ne_eq, not_true, if_false, pure_eq_ok,
          hcfRegisterIp, getUnalignedBe32_saddr]
        rfl
      · rw [if_pos ⟨htcp, rfl⟩]
        refine ⟨h.bogon, h.blocked, by simpa only [hattack] using h.state, h.hops, ?_⟩
        simp only [h.pending]
  · refine ⟨s, ?_, ?_⟩
    · simp only [ne_eq, htcp, not_false_eq_true, if_true, pure_eq_ok]
    · rw [if_neg (fun hand => htcp hand.1)]
      exact h

/-- A work writes its entry when it runs. -/
theorem FwRefines.work (h : FwRefines s fw) (A : Supply) (i : ℕ) :
    ∃ s', lfwRunWork A.toAllocator i s = .ok s' ∧ FwRefines s' (fw.work i) := by
  unfold lfwRunWork Firewall.work
  rw [h.pending]
  cases htask : fw.pending[i]? with
  | none => exact ⟨s, rfl, h⟩
  | some task =>
    obtain ⟨hcf, hrun, hhops⟩ := h.hops.work A task
    refine ⟨{ s with hcf := hcf, workqueue := fw.pending.eraseIdx i }, ?_, h.bogon, h.blocked,
      h.state, hhops, rfl⟩
    simp only [hrun, ok_bind, pure_eq_ok]

/-- A list replaces the list. -/
theorem FwRefines.setBogon (h : FwRefines s fw) (A : Supply) {info : GenlInfo}
    (hmax : lfwNumPrefix e info < 2 ^ 29)
    (hcount : lfwNumPrefix e info = (lfwPrefixAttrs e info).length)
    (hlen : ∀ pos ∈ lfwPrefixAttrs e info, ((lfwLenOf e pos).getD 0).toNat ≤ 32) :
    ∃ ret bg, lfwBogonSet e A.toAllocator info s.bg = .ok (ret, bg) ∧
      FwRefines { s with bg := bg } (fw.step e (.setBogon A info)) := by
  obtain ⟨a, t, olds, hinv⟩ := h.bogon
  have hlen' : ∀ p ∈ lfwInstalled e info, p.ipPrefixLen.toNat ≤ 32 := by
    intro p hp
    rw [lfwInstalled, hcount, Nat.sub_self, List.replicate_zero, List.append_nil] at hp
    obtain ⟨pos, hpos, rfl⟩ := List.mem_map.1 hp
    rw [lfwSlot_eq]
    exact hlen pos hpos
  have hset := hinv.set_spec A hcount.ge hmax hlen'
  simp only [Firewall.step]
  by_cases hnil : lfwPrefixAttrs e info = []
  · rw [if_pos (by rw [hcount, hnil]; rfl)] at hset
    rw [if_pos hnil]
    exact ⟨_, _, hset, h⟩
  · have hpos : 0 < (lfwPrefixAttrs e info).length := List.length_pos_iff.2 hnil
    rw [if_neg (by omega)] at hset
    rw [if_neg hnil]
    obtain ⟨bg, a', t', hrun, hinv', hblocked⟩ := hset
    refine ⟨0, bg, hrun, ⟨a', t', _, hinv'⟩, fun ip => ?_, h.state, h.hops, h.pending⟩
    rw [hblocked, contains_installed_iff hcount]
    rfl

/-- **Every event is a step of the firewall.** -/
theorem lfwStep_refines (ev : LfwEvent) (h : FwRefines s fw) (hwf : ev.WellFormed e) :
    ∃ s', lfwStep e s ev = .ok s' ∧ FwRefines s' (fw.step e ev) := by
  cases ev with
  | learn skb =>
    obtain ⟨s', hrun, hs'⟩ := h.learn e skb
    refine ⟨s', ?_, hs'⟩
    simp only [lfwStep, hrun, ok_bind, pure_eq_ok]
  | work A i => exact h.work A i
  | setBogon A info =>
    obtain ⟨hattrlen, hcount, hlen⟩ := hwf
    have hmax := lfwPrefixAttrs_lt (e := e) hattrlen
    obtain ⟨ret, bg, hrun, hs'⟩ := h.setBogon A (hcount ▸ hmax) hcount hlen
    refine ⟨_, ?_, hs'⟩
    simp only [lfwStep, hrun, ok_bind, pure_eq_ok]
  | setHcfHistory A info =>
    obtain ⟨hcf, hrun, hhops⟩ := h.hops.history e A hwf
    refine ⟨{ s with hcf := hcf }, ?_, h.bogon, h.blocked, h.state, hhops, h.pending⟩
    simp only [lfwStep, hrun, ok_bind, pure_eq_ok]
  | setUnderAttack A info =>
    obtain ⟨a, olds, hinv⟩ := h.state
    obtain ⟨state, b, hrun, hinv'⟩ := hinv.set A (nlaGetFlag (info.attrs e LFW_NLA_UNDER_ATTACK))
    refine ⟨{ s with state := state }, ?_, h.bogon, h.blocked, ⟨b, _, hinv'⟩, h.hops, h.pending⟩
    simp only [lfwStep, lfwStateSetUnderAttackNl, hrun, ok_bind, pure_eq_ok]
  | bogonCallback i =>
    obtain ⟨a, t, olds, hinv⟩ := h.bogon
    obtain ⟨bg, hrun, hinv', -⟩ := lfwFreeBgTree_spec i hinv
    refine ⟨{ s with bg := bg }, ?_, ⟨a, t, _, hinv'⟩, fun ip => ?_, h.state, h.hops, h.pending⟩
    · simp only [lfwStep, hrun, ok_bind, pure_eq_ok]
    · -- the tree is the one it was
      rw [hinv'.blocked_iff, ← hinv.blocked_iff]
      exact h.blocked ip
  | hcfCallback i =>
    obtain ⟨t, hinv, hmap⟩ := h.hops
    obtain ⟨hcf, hrun, hinv'⟩ := hcfFreeNodeRcu_spec i hinv
    refine ⟨{ s with hcf := hcf }, ?_, h.bogon, h.blocked, h.state, ⟨t, hinv', hmap⟩, h.pending⟩
    simp only [lfwStep, hrun, ok_bind, pure_eq_ok]
  | stateCallback i =>
    obtain ⟨a, olds, hinv⟩ := h.state
    obtain ⟨state, olds', hrun, hinv'⟩ := hinv.kfreeRcu i
    refine ⟨{ s with state := state }, ?_, h.bogon, h.blocked, ⟨a, olds', hinv'⟩, h.hops, h.pending⟩
    simp only [lfwStep, hrun, ok_bind, pure_eq_ok]

/-! ## The verdict -/

/-- The hop-count test of the hook. -/
theorem lookup_lt_one_iff {h : Ipv4} :
    fw.hops.lookup h.source h.ttl < 1 ↔ fw.Spoofed h := by
  unfold HcfMap.lookup Firewall.Spoofed
  cases fw.hops (top24 h.source) with
  | none => simp [HcfMap.answer]
  | some x =>
    simp only [HcfMap.answer, reduceCtorEq, false_or, Option.mem_def, Option.some.injEq,
      exists_eq_left']
    split <;> omega

/-- **The hook drops what the firewall drops.** -/
theorem FwRefines.verdict (h : FwRefines s fw) (skb : SkBuff) :
    ∃ v, lfwFilterIpv4HookFn e s skb = .ok v ∧ (v = NF_DROP ↔ fw.Drops skb) := by
  have hne : ¬ NF_ACCEPT = NF_DROP := by decide
  unfold lfwFilterIpv4HookFn Firewall.Drops
  cases heth : skb.eth_hdr with
  | none => exact ⟨NF_ACCEPT, rfl, by simp [hne]⟩
  | some eth =>
    simp only [ntohs_ethProto, Option.mem_def, Option.some.injEq, exists_eq_left']
    by_cases hip : Endian.big.word 2 (eth.drop 12) = ETH_P_IP
    swap
    · exact ⟨NF_ACCEPT, by simp only [ne_eq, hip, not_false_eq_true, if_true, pure_eq_ok],
        by simp [hne, hip]⟩
    simp only [ne_eq, hip, not_true, if_false, true_and]
    cases hbytes : skbHeaderPointer skb skb.network_offset sizeofIphdr with
    | none => exact ⟨NF_ACCEPT, rfl, by simp [hne]⟩
    | some bytes =>
      have hproto : (IpHdr.ofBytes e bytes).protocol = (Ipv4.parse bytes).protocol := rfl
      have httl : (IpHdr.ofBytes e bytes).ttl = (Ipv4.parse bytes).ttl := rfl
      simp only [hproto, httl, getUnalignedBe32_saddr, Option.some.injEq,
        exists_eq_left']
      by_cases htcp : (Ipv4.parse bytes).protocol = IPPROTO_TCP
      swap
      · exact ⟨NF_ACCEPT, by simp only [htcp, not_false_eq_true, if_true, pure_eq_ok],
          by simp [hne, htcp]⟩
      obtain ⟨a, t, olds, hinv⟩ := h.bogon
      obtain ⟨r, hr, -⟩ := hinv.lookup (Ipv4.parse bytes).source
      have hblocked : 0 < r ↔ fw.Bogon (Ipv4.parse bytes).source := by
        rw [← h.blocked]
        exact ⟨fun hpos => ⟨r, hr, hpos⟩, fun ⟨r', hr', hpos⟩ =>
          Except.ok.inj (hr.symm.trans hr') ▸ hpos⟩
      simp only [htcp, not_true, if_false, hr, ok_bind, h.underAttack, h.hops.lookup, true_and]
      by_cases hbogon : fw.Bogon (Ipv4.parse bytes).source
      · exact ⟨NF_DROP, by simp only [hblocked.2 hbogon, if_true, pure_eq_ok], by simp [hbogon]⟩
      simp only [mt hblocked.1 hbogon, if_false, hbogon, false_or]
      cases fw.underAttack with
      | false => exact ⟨NF_ACCEPT, rfl, by simp [hne]⟩
      | true =>
        simp only [if_true, true_and]
        by_cases hhop : fw.hops.lookup (Ipv4.parse bytes).source (Ipv4.parse bytes).ttl < 1
        · exact ⟨NF_DROP, by simp only [hhop, if_true, pure_eq_ok],
            by simp [lookup_lt_one_iff.1 hhop]⟩
        · exact ⟨NF_ACCEPT, by simp only [hhop, if_false, pure_eq_ok],
            by simp [hne, mt lookup_lt_one_iff.2 hhop]⟩

/-- **What the filter drops.** After any run of packets, works, well-formed
commands and callbacks from initialisation, in any order, the ingress hook
answers every packet, and drops it exactly where the firewall does: it is an
IPv4 frame with a readable header, of TCP, and its source is in a prefix of the
list installed last, or the flag is set and the source's prefix has no entry or
one more than two hops off, the entry being what was written last. -/
theorem lfwFilterIpv4HookFn_drop_iff (e : Endian) (A₀ : Supply) (evs : List LfwEvent)
    (hwf : ∀ ev ∈ evs, ev.WellFormed e) :
    ∃ s₀ s, lfwInitState A₀.toAllocator = .ok s₀ ∧ run (lfwStep e) s₀ evs = .ok s ∧
      ∀ skb, ∃ v, lfwFilterIpv4HookFn e s skb = .ok v ∧
        (v = NF_DROP ↔ (evs.foldl (Firewall.step e) Firewall.init).Drops skb) := by
  obtain ⟨s₀, hinit, hs₀⟩ := lfwInitState_refines A₀
  have hstep : ∀ s fw ev, FwRefines s fw → LfwEvent.WellFormed e ev →
      ∃ s', lfwStep e s ev = .ok s' ∧ FwRefines s' (fw.step e ev) :=
    fun _ _ ev h hev => lfwStep_refines ev h hev
  obtain ⟨s, hrun, hs⟩ := run_simulation hstep hs₀ hwf
  exact ⟨s₀, s, hinit, hrun, fun skb => hs.verdict skb⟩

/-- A TCP packet of the source, as far as the hooks read it. -/
def lfwSampleSkb (source : List U8) (ttl : U8) : SkBuff :=
  ⟨some (List.replicate 12 0 ++ [0x08, 0x00]), List.replicate 8 0 ++ [ttl, 6, 0, 0] ++ source ++
    List.replicate 4 0, 0⟩

/-- A list, a packet learned, the flag, and the work run only then. -/
def lfwSampleEvents : List LfwEvent :=
  [.setBogon .next (lfwSampleRequest 1), .learn (lfwSampleSkb [192, 0, 2, 1] 60),
    .setUnderAttack .next ⟨attrBytes .little ⟨LFW_NLA_UNDER_ATTACK, []⟩, 4⟩,
    .learn (lfwSampleSkb [192, 0, 3, 1] 60), .work .next 0, .bogonCallback 0]

/-- A blocked source, one at its distance, and one that was not learned. -/
theorem lfwFilterIpv4HookFn_drop_sample :
    ∃ s₀ s, lfwInitState Supply.next.toAllocator = .ok s₀ ∧
      run (lfwStep .little) s₀ lfwSampleEvents = .ok s ∧
      lfwFilterIpv4HookFn .little s (lfwSampleSkb [10, 1, 2, 3] 60) = .ok NF_DROP ∧
      lfwFilterIpv4HookFn .little s (lfwSampleSkb [192, 0, 2, 7] 58) ≠ .ok NF_DROP ∧
      lfwFilterIpv4HookFn .little s (lfwSampleSkb [192, 0, 3, 1] 60) = .ok NF_DROP := by
  have hwf : ∀ ev ∈ lfwSampleEvents, ev.WellFormed .little := by
    intro ev hev
    simp only [lfwSampleEvents, List.mem_cons, List.not_mem_nil, or_false] at hev
    rcases hev with rfl | rfl | rfl | rfl | rfl | rfl
    · exact ⟨by decide +kernel, by decide +kernel, by decide +kernel⟩
    all_goals trivial
  obtain ⟨s₀, s, hinit, hrun, hverdict⟩ :=
    lfwFilterIpv4HookFn_drop_iff .little .next lfwSampleEvents hwf
  obtain ⟨v₁, hv₁, hdrop₁⟩ := hverdict (lfwSampleSkb [10, 1, 2, 3] 60)
  obtain ⟨v₂, hv₂, hdrop₂⟩ := hverdict (lfwSampleSkb [192, 0, 2, 7] 58)
  obtain ⟨v₃, hv₃, hdrop₃⟩ := hverdict (lfwSampleSkb [192, 0, 3, 1] 60)
  refine ⟨s₀, s, hinit, hrun, ?_, ?_, ?_⟩
  · rw [hv₁, hdrop₁.2 (by decide +kernel)]
  · intro heq
    rw [hv₂] at heq
    have hnot : ¬ (lfwSampleEvents.foldl (Firewall.step .little) Firewall.init).Drops
        (lfwSampleSkb [192, 0, 2, 7] 58) := by decide +kernel
    exact hnot (hdrop₂.1 (Except.ok.inj heq))
  · rw [hv₃, hdrop₃.2 (by decide +kernel)]

end Librefw
