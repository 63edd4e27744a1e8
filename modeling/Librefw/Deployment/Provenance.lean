import Librefw.Deployment.Verdict
import Librefw.Client.History

/-!
# Where what a host knows comes from

What the filter holds of a prefix, what waits to be learned and what the
database has recorded all stem from packets that reached the host while the
flag was clear (`LfwHostSpec.Stems`), through every boot and every restore.
So a packet that is let through under attack is at most two hops off one of
its prefix that had reached the host in peace (`lfwHost_accepts`).

Nothing the filter knew is lost by a boot, if the listener was there for
every work and the records fit into a message: a restore brings back every
prefix (`lfwHost_restart`).
-/

namespace Librefw

variable {e : Endian} {capacity : U32} {t : LfwHostSpec} {L L' : Ipv4 → Prop}

/-! ## Packets that reached the host in peace -/

/-- The distance a packet has come, as the filter estimates it. -/
def Ipv4.hop (h : Ipv4) : ℤ := hcfGetInitialTtl h.ttl - h.ttl.toNat

/-- The header of the packet of an event, if it is one to learn from. -/
def LfwHostSpec.Learns (t : LfwHostSpec) (h : Ipv4) : LfwHostEvent → Prop
  | .learn skb => Ipv4.parse (skb.data.drop skb.network_offset) = h ∧ h.protocol = IPPROTO_TCP ∧
      t.fw.underAttack = false
  | _ => False

/-- A packet with this header reached the host while the flag was clear. -/
def LfwPeaceful (e : Endian) (capacity : U32) (evs : List LfwHostEvent) (h : Ipv4) : Prop :=
  ∃ pre ev post, evs = pre ++ ev :: post ∧
    (pre.foldl (LfwHostSpec.step e capacity) .init).Learns h ev

/-- What is in flight, in the map and on record stems from packets of a kind. -/
structure LfwHostSpec.Stems (L : Ipv4 → Prop) (t : LfwHostSpec) : Prop where
  pending : ∀ task ∈ t.fw.pending, ∃ h, L h ∧ task = ⟨h.source, h.ttl⟩
  hops : ∀ k x, t.fw.hops k = some x → ∃ h, L h ∧ top24 h.source = k ∧ x = ⟨h.hop, h.ttl⟩
  records : ∀ r ∈ t.records, ∃ h, L h ∧ r = HcfAddNodeTask.ctx ⟨h.source, h.ttl⟩

namespace LfwHostSpec.Stems

theorem init : LfwHostSpec.init.Stems L where
  pending := fun _ h => nomatch h
  hops := fun _ _ h => nomatch h
  records := fun _ h => nomatch h

theorem mono (h : t.Stems L) (hsub : ∀ x, L x → L' x) : t.Stems L' where
  pending := fun task ht =>
    let ⟨x, hx, heq⟩ := h.pending task ht
    ⟨x, hsub x hx, heq⟩
  hops := fun k y hk =>
    let ⟨x, hx, heq⟩ := h.hops k y hk
    ⟨x, hsub x hx, heq⟩
  records := fun r hr =>
    let ⟨x, hx, heq⟩ := h.records r hr
    ⟨x, hsub x hx, heq⟩

/-- Only the map is looked at of a firewall whose list or flag changes. -/
theorem of_fw (h : t.Stems L) {fw : Firewall} (hpending : fw.pending = t.fw.pending)
    (hhops : fw.hops = t.fw.hops) : LfwHostSpec.Stems L { t with fw := fw } where
  pending := hpending ▸ h.pending
  hops := hhops ▸ h.hops
  records := h.records

theorem learn (h : t.Stems L) (hd : Ipv4)
    (hL : hd.protocol = IPPROTO_TCP → t.fw.underAttack = false → L hd) :
    LfwHostSpec.Stems L { t with fw := t.fw.learn hd } := by
  unfold Firewall.learn
  split
  · next hnew =>
    refine ⟨fun task ht => ?_, h.hops, h.records⟩
    rcases List.mem_append.1 ht with ht | ht
    · exact h.pending task ht
    · exact ⟨hd, hL hnew.1 hnew.2, List.mem_singleton.1 ht⟩
  · exact h

theorem work (h : t.Stems L) (i : ℕ) (listening : Bool) : (t.work i listening).Stems L := by
  unfold LfwHostSpec.work Firewall.work
  cases htask : t.fw.pending[i]? with
  | none => exact h
  | some task =>
    obtain ⟨hd, hhd, rfl⟩ := h.pending task (List.mem_of_getElem? htask)
    refine ⟨fun x hx => h.pending x (List.mem_of_mem_eraseIdx hx), fun k x hk => ?_, fun r hr => ?_⟩
    · -- an entry is the one written, or an old one
      simp only [HcfMap.register, HcfMap.write] at hk
      by_cases hkey : k = top24 hd.source
      · subst hkey
        rw [Function.update_self] at hk
        exact ⟨hd, hhd, rfl, (Option.some.inj hk).symm⟩
      · rw [Function.update_of_ne hkey] at hk
        exact h.hops k x hk
    · simp only at hr
      split at hr
      · unfold hcfRecord at hr
        split at hr
        · exact h.records r hr
        · rcases List.mem_append.1 hr with hr | hr
          · exact h.records r hr
          · exact ⟨hd, hhd, List.mem_singleton.1 hr⟩
      · exact h.records r hr

/-- What is restored is on record. -/
theorem setHcf (h : t.Stems L) (capacity : ℕ) (order : RowOrder) :
    (t.setHcf e capacity order).Stems L := by
  unfold LfwHostSpec.setHcf
  split
  · refine ⟨h.pending, fun k x hk => ?_, h.records⟩
    simp only [LfwHostSpec.restored, HcfMap.restore_eq, Option.map_eq_some_iff] at hk
    obtain ⟨y, hlast, rfl⟩ := hk
    have hmem := List.mem_filter.1 (List.mem_of_getLast? hlast)
    obtain ⟨row, hrow, rfl⟩ := List.mem_map.1 hmem.1
    obtain ⟨r, hr, rfl⟩ := List.mem_map.1 ((order.perm _).mem_iff.1 hrow)
    obtain ⟨hd, hhd, rfl⟩ := h.records r hr
    have htop : top24 ((HcfIpCtx.row e (HcfAddNodeTask.ctx ⟨hd.source, hd.ttl⟩)).history e).ip_addr =
        k := of_decide_eq_true hmem.2
    rw [history_row] at htop ⊢
    refine ⟨hd, hhd, htop, ?_⟩
    have hhc : ((hcfMetaOf hd.ttl).hc.toNat : ℤ) = hd.hop := hcfMetaOf_hc hd.ttl
    simp only [HcfIpCtx.entry, HcfAddNodeTask.ctx, hhc]
  · exact h

/-- **Every event keeps the sources.** -/
theorem step (h : t.Stems L) (ev : LfwHostEvent) (hL : ∀ hd, t.Learns hd ev → L hd) :
    (t.step e capacity ev).Stems L := by
  cases ev with
  | learn skb => exact h.learn _ fun htcp hclear => hL _ ⟨rfl, htcp, hclear⟩
  | work A i listening rest => exact h.work i listening
  | setBogon A uninit file rest =>
    refine h.of_fw ?_ ?_
    all_goals
      unfold Firewall.load
      split <;> rfl
  | underAttack A set rest =>
    unfold LfwHostSpec.step
    by_cases hroom : (if set then 24 else 20) ≤ capacity.toNat
    · simp only [if_pos hroom]
      exact h.of_fw rfl rfl
    · simp only [if_neg hroom]
      exact h
  | setHcf A order rest => exact h.setHcf capacity.toNat order
  | boot A => exact ⟨fun _ hin => (nomatch hin), fun _ _ heq => (nomatch heq), h.records⟩
  | bogonCallback i => exact h
  | hcfCallback i => exact h
  | stateCallback i => exact h

end LfwHostSpec.Stems

/-- **What a host knows stems from packets that reached it in peace.** -/
theorem lfwHostRun_stems (e : Endian) (capacity : U32) (evs : List LfwHostEvent) :
    (evs.foldl (LfwHostSpec.step e capacity) .init).Stems (LfwPeaceful e capacity evs) := by
  induction evs using List.reverseRecOn with
  | nil => exact .init
  | append_singleton evs ev ih =>
    rw [List.foldl_append, List.foldl_cons, List.foldl_nil]
    refine (ih.mono fun hd hpeace => ?_).step ev fun hd hlearns =>
      ⟨evs, ev, [], rfl, hlearns⟩
    obtain ⟨pre, ev', post, rfl, hlearns⟩ := hpeace
    exact ⟨pre, ev', post ++ [ev], by simp, hlearns⟩

/-- **What a host lets through under attack.** From the first start on, through
any packets, works, files, flags, restores and boots: if the hook accepts a
packet of TCP over IPv4 while the flag is set, its source is in no prefix of the
list, and a packet from its prefix had reached the host while the flag was clear,
whose distance is at most two hops off its own. -/
theorem lfwHost_accepts (e : Endian) (capacity : U32) (A : Supply) (evs : List LfwHostEvent) :
    ∃ s₀ s, lfwHostInit A.toAllocator = .ok s₀ ∧ run (lfwHostStep e capacity) s₀ evs = .ok s ∧
      ∀ skb eth bytes, lfwStateIsUnderAttack s.kernel.state = .ok true → skb.eth_hdr = some eth →
        Endian.big.word 2 (eth.drop 12) = ETH_P_IP →
        skbHeaderPointer skb skb.network_offset sizeofIphdr = some bytes →
        (Ipv4.parse bytes).protocol = IPPROTO_TCP →
        lfwFilterIpv4HookFn e s.kernel skb = .ok NF_ACCEPT →
        ¬ (evs.foldl (LfwHostSpec.step e capacity) .init).fw.Bogon (Ipv4.parse bytes).source ∧
        ∃ h, LfwPeaceful e capacity evs h ∧ top24 h.source = top24 (Ipv4.parse bytes).source ∧
          ((Ipv4.parse bytes).hop - h.hop).natAbs ≤ 2 := by
  obtain ⟨s₀, hinit, hs₀⟩ := lfwHostInit_means e A
  obtain ⟨s, hrun, hs⟩ := lfwHostRun_means hs₀ capacity evs
  have hstems := lfwHostRun_stems e capacity evs
  refine ⟨s₀, s, hinit, hrun, fun skb eth bytes hattack heth hip hbytes htcp haccept => ?_⟩
  generalize evs.foldl (LfwHostSpec.step e capacity) .init = t at hs hstems ⊢
  have hflag : t.fw.underAttack = true := Except.ok.inj (hs.kernel.underAttack.symm.trans hattack)
  obtain ⟨v, hv, hdrop⟩ := hs.kernel.verdict (e := e) skb
  obtain rfl := Except.ok.inj (haccept.symm.trans hv)
  -- the packet passes every test of the firewall
  have hnot : ¬ t.fw.Drops skb := fun h => absurd (hdrop.2 h) (by decide)
  have hpass : ¬ (t.fw.Bogon (Ipv4.parse bytes).source ∨
      t.fw.underAttack = true ∧ t.fw.Spoofed (Ipv4.parse bytes)) := fun h =>
    hnot ⟨eth, heth, hip, bytes, hbytes, htcp, h⟩
  rw [not_or] at hpass
  refine ⟨hpass.1, ?_⟩
  have hgenuine : ¬ t.fw.Spoofed (Ipv4.parse bytes) := fun h => hpass.2 ⟨hflag, h⟩
  unfold Firewall.Spoofed at hgenuine
  rw [not_or] at hgenuine
  obtain ⟨x, hx⟩ := Option.ne_none_iff_exists'.1 hgenuine.1
  obtain ⟨h, hpeace, htop, rfl⟩ := hstems.hops _ _ hx
  refine ⟨h, hpeace, htop, ?_⟩
  by_contra hfar
  exact hgenuine.2 ⟨_, hx, not_le.1 hfar⟩

/-! ## Boots -/

/-- The listener is there when a work runs. -/
def LfwHostEvent.Listened : LfwHostEvent → Prop
  | .work _ _ listening _ => listening = true
  | _ => True

/-- Every prefix the filter knows is on record. -/
def LfwHostSpec.Covered (t : LfwHostSpec) : Prop :=
  ∀ k, t.fw.hops k ≠ none → ∃ r ∈ t.records, top24 r.source_ip = k

/-- An announcement is on record, under its address at least. -/
theorem exists_mem_hcfRecord (records : List HcfIpCtx) (ctx : HcfIpCtx) :
    ∃ r ∈ hcfRecord records ctx, r.source_ip = ctx.source_ip := by
  unfold hcfRecord
  split
  · next hin => exact List.mem_map.1 hin
  · exact ⟨ctx, List.mem_append_right _ List.mem_cons_self, rfl⟩

theorem mem_hcfRecord_of_mem {records : List HcfIpCtx} {r : HcfIpCtx} (h : r ∈ records)
    (ctx : HcfIpCtx) : r ∈ hcfRecord records ctx := by
  unfold hcfRecord
  split
  · exact h
  · exact List.mem_append_left _ h

namespace LfwHostSpec.Covered

theorem work (h : t.Covered) (i : ℕ) : (t.work i true).Covered := by
  unfold LfwHostSpec.work Firewall.work
  cases htask : t.fw.pending[i]? with
  | none => exact h
  | some task =>
    intro k hk
    simp only [true_and]
    -- what was known before is on record still
    have hold : t.fw.hops k ≠ none → ∃ r ∈ (if t.fw.hops (top24 task.source_ip) = none then
        hcfRecord t.records task.ctx else t.records), top24 r.source_ip = k := by
      intro hknown
      obtain ⟨r, hr, htop⟩ := h k hknown
      refine ⟨r, ?_, htop⟩
      split
      · exact mem_hcfRecord_of_mem hr task.ctx
      · exact hr
    by_cases hkey : k = top24 task.source_ip
    · by_cases hnew : t.fw.hops (top24 task.source_ip) = none
      · obtain ⟨r, hr, hip⟩ := exists_mem_hcfRecord t.records task.ctx
        refine ⟨r, ?_, ?_⟩
        · rw [if_pos hnew]
          exact hr
        · rw [hkey, hip]
          rfl
      · exact hold (hkey ▸ hnew)
    · simp only [HcfMap.register, HcfMap.write, Function.update_of_ne hkey] at hk
      exact hold hk

/-- What is restored is what is on record. -/
theorem restored_ne_none_iff (e : Endian) (records : List HcfIpCtx) (order : RowOrder)
    (k : BitVec 24) :
    LfwHostSpec.restored e records order k ≠ none ↔ ∃ r ∈ records, top24 r.source_ip = k := by
  have hmem : ∀ x, x ∈ (order.arrange (records.map (HcfIpCtx.row e))).map (HcfIpv4Row.history e) ↔
      ∃ r ∈ records, r.entry = x := by
    intro x
    rw [List.mem_map]
    constructor
    · rintro ⟨row, hrow, rfl⟩
      obtain ⟨r, hr, rfl⟩ := List.mem_map.1 ((order.perm _).mem_iff.1 hrow)
      exact ⟨r, hr, (history_row e r).symm⟩
    · rintro ⟨r, hr, rfl⟩
      exact ⟨_, (order.perm _).mem_iff.2 (List.mem_map_of_mem hr), history_row e r⟩
  rw [LfwHostSpec.restored, ne_eq, HcfMap.restore_eq_none_iff, not_forall]
  constructor
  · rintro ⟨x, hx⟩
    rw [Classical.not_imp, not_not] at hx
    obtain ⟨r, hr, rfl⟩ := (hmem x).1 hx.1
    exact ⟨r, hr, hx.2⟩
  · rintro ⟨r, hr, htop⟩
    refine ⟨r.entry, ?_⟩
    rw [Classical.not_imp, not_not]
    exact ⟨(hmem _).2 ⟨r, hr, rfl⟩, htop⟩

theorem setHcf (h : t.Covered) (capacity : ℕ) (order : RowOrder) :
    (t.setHcf e capacity order).Covered := by
  unfold LfwHostSpec.setHcf
  split
  · intro k hk
    exact (restored_ne_none_iff e t.records order k).1 hk
  · exact h

theorem step (h : t.Covered) {ev : LfwHostEvent} (hev : ev.Listened) :
    (t.step e capacity ev).Covered := by
  cases ev with
  | learn skb =>
    unfold LfwHostSpec.step Firewall.learn
    intro k hk
    refine h k ?_
    simp only at hk
    split at hk <;> exact hk
  | work A i listening rest =>
    obtain rfl : listening = true := hev
    exact h.work i
  | setBogon A uninit file rest =>
    unfold LfwHostSpec.step LfwHostSpec.setBogon Firewall.load
    intro k hk
    refine h k ?_
    simp only at hk
    split at hk <;> exact hk
  | underAttack A set rest =>
    unfold LfwHostSpec.step
    by_cases hroom : (if set then 24 else 20) ≤ capacity.toNat
    · simp only [if_pos hroom]
      exact h
    · simp only [if_neg hroom]
      exact h
  | setHcf A order rest => exact h.setHcf capacity.toNat order
  | boot A => exact fun k hk => absurd rfl hk
  | bogonCallback i => exact h
  | hcfCallback i => exact h
  | stateCallback i => exact h

end LfwHostSpec.Covered

theorem lfwHostRun_covered {evs : List LfwHostEvent} (hlisten : ∀ ev ∈ evs, ev.Listened)
    (h : t.Covered) : (evs.foldl (LfwHostSpec.step e capacity) t).Covered := by
  induction evs generalizing t with
  | nil => exact h
  | cons ev evs ih =>
    exact ih (fun x hx => hlisten x (List.mem_cons_of_mem _ hx))
      (h.step (hlisten ev List.mem_cons_self))

/-- The filter knows an address of a prefix that is mapped. -/
theorem HcfMap.lookup_eq_neg_one_iff {M : HcfMap} {source_ip : U32} {ttl : U8} :
    M.lookup source_ip ttl = -1 ↔ M (top24 source_ip) = none := by
  unfold HcfMap.lookup
  cases M (top24 source_ip) with
  | none => simp [HcfMap.answer]
  | some x =>
    simp only [HcfMap.answer, reduceCtorEq, iff_false]
    split <;> omega

/-- **A boot loses nothing that was known.** In every run in which the listener
was there for every work, if the table then fits into a message, a boot and a
restore, in any order of the rows, leave the filter knowing every address it
knew. -/
theorem lfwHost_restart (e : Endian) (capacity : U32) (A A₁ A₂ : Supply) (order : RowOrder)
    (rest : List U8) {evs : List LfwHostEvent} (hlisten : ∀ ev ∈ evs, ev.Listened) :
    ∃ s₀ s s', lfwHostInit A.toAllocator = .ok s₀ ∧ run (lfwHostStep e capacity) s₀ evs = .ok s ∧
      run (lfwHostStep e capacity) s [.boot A₁, .setHcf A₂ order rest] = .ok s' ∧
      (20 + 28 * s.tab.length ≤ capacity.toNat → ∀ source_ip ttl,
        hcfLookupTree s.kernel.hcf.tree s.kernel.hcf.mem source_ip ttl ≠ .ok (-1) →
        hcfLookupTree s'.kernel.hcf.tree s'.kernel.hcf.mem source_ip ttl ≠ .ok (-1)) := by
  obtain ⟨s₀, hinit, hs₀⟩ := lfwHostInit_means e A
  obtain ⟨s, hrun, hs⟩ := lfwHostRun_means hs₀ capacity evs
  have hcovered : (evs.foldl (LfwHostSpec.step e capacity) .init).Covered :=
    lfwHostRun_covered hlisten fun k hk => absurd rfl hk
  generalize evs.foldl (LfwHostSpec.step e capacity) .init = t at hs hcovered
  obtain ⟨s', hrun', hs'⟩ := lfwHostRun_means hs capacity [.boot A₁, .setHcf A₂ order rest]
  refine ⟨s₀, s, s', hinit, hrun, hrun', fun hfit source_ip ttl hknown => ?_⟩
  rw [hs.kernel.hops.lookup, ne_eq, Except.ok.injEq, HcfMap.lookup_eq_neg_one_iff] at hknown
  have hrecords : 20 + 28 * t.records.length ≤ capacity.toNat := by
    rwa [hs.tab, List.length_map] at hfit
  rw [hs'.kernel.hops.lookup, ne_eq, Except.ok.injEq, HcfMap.lookup_eq_neg_one_iff]
  simp only [List.foldl_cons, List.foldl_nil, LfwHostSpec.step, LfwHostSpec.setHcf, if_pos hrecords]
  exact (LfwHostSpec.Covered.restored_ne_none_iff e t.records order _).2 (hcovered _ hknown)

/-- Three packets from two prefixes, and their works. -/
def lfwSampleLearned : List LfwHostEvent :=
  [.learn (lfwSampleSkb [192, 0, 2, 1] 60), .learn (lfwSampleSkb [198, 51, 100, 7] 120),
    .learn (lfwSampleSkb [192, 0, 2, 9] 61), .work .next 1 true [], .work .next 0 true [],
    .work .next 0 true []]

/-- A boot after they were announced to the listener. -/
theorem lfwHost_restart_sample :
    ∃ s₀ s s', lfwHostInit Supply.next.toAllocator = .ok s₀ ∧
      run (lfwHostStep .little 4096) s₀ lfwSampleLearned = .ok s ∧ s.tab.length = 2 ∧
      run (lfwHostStep .little 4096) s
        [.boot .next, .setHcf .next ⟨List.reverse, List.reverse_perm⟩ []] = .ok s' ∧
      ∀ source_ip ttl,
        hcfLookupTree s.kernel.hcf.tree s.kernel.hcf.mem source_ip ttl ≠ .ok (-1) →
        hcfLookupTree s'.kernel.hcf.tree s'.kernel.hcf.mem source_ip ttl ≠ .ok (-1) := by
  have hlisten : ∀ ev ∈ lfwSampleLearned, ev.Listened := by
    simp [lfwSampleLearned, LfwHostEvent.Listened]
  obtain ⟨s₀, s, s', hinit, hrun, hrun', hkeep⟩ := lfwHost_restart .little 4096 .next .next .next
    ⟨List.reverse, List.reverse_perm⟩ [] hlisten
  obtain ⟨s₁, hinit₁, hs₁⟩ := lfwHostInit_means .little .next
  obtain rfl := Except.ok.inj (hinit.symm.trans hinit₁)
  obtain ⟨s₂, hrun₂, hs₂⟩ := lfwHostRun_means hs₁ 4096 lfwSampleLearned
  obtain rfl := Except.ok.inj (hrun.symm.trans hrun₂)
  have htab : s.tab.length = 2 := by
    rw [hs₂.tab, List.length_map]
    decide +kernel
  refine ⟨s₀, s, s', hinit, hrun, htab, hrun', hkeep ?_⟩
  rw [htab]
  decide

end Librefw
