import Librefw.Filter.Model.Traffic
import Librefw.Filter.Verdict
import Librefw.Hcf.Complete

/-!
# What an attack can teach

A packet that arrives under attack is not learned from. Its hook call
shows nothing and leaves the module as it is (`lfwHandle_seenSet`), so a
run tells nothing of how many there were. And whatever is learned has a
source: `LfwStems` says that each pending work and each leaf stems from a
packet or a history entry of given kinds, every input keeps this
(`LfwStems.handle`), and the run that led to a packet says that its hook
call saw the flag clear.
-/

namespace Librefw

open PtrTrie

variable {e : Endian} {s s' : LfwSystem} {x : LfwInput} {xs : List LfwInput}
variable {T : HcfAddNodeTask → Prop} {H : HcfHistoryEntry → Prop} {outs : List LfwOutput}

/-! ## The hook -/

theorem ipHdr_eq (skb : SkBuff) : ipHdr skb = some (skb.data.drop skb.network_offset) := rfl

/-- The hook call that sees the flag set does nothing. -/
theorem lfwHcLearnIpv4HookFn_set {task : Option HcfAddNodeTask} {skb : SkBuff}
    (h : lfwHookSees e s skb = some true) :
    lfwHcLearnIpv4HookFn e task skb s = .ok (NF_ACCEPT, s) := by
  unfold lfwHookSees at h
  unfold lfwHcLearnIpv4HookFn
  rw [ipHdr_eq] at h ⊢
  simp only at h ⊢
  by_cases htcp : (IpHdr.ofBytes e (skb.data.drop skb.network_offset)).protocol = IPPROTO_TCP
  · rw [if_neg (by simpa using htcp)] at h ⊢
    cases hflag : lfwStateIsUnderAttack s.state with
    | error f =>
      rw [hflag] at h
      cases h
    | ok b =>
      rw [hflag] at h
      obtain rfl : b = true := Option.some.inj h
      rfl
  · rw [if_pos htcp]
    rfl

/-- The hook call that returns has changed nothing, or has queued its packet, a TCP packet,
with the flag clear. -/
theorem lfwHcLearnIpv4HookFn_cases {task : Option HcfAddNodeTask} {skb : SkBuff} {v : ℕ}
    (h : lfwHcLearnIpv4HookFn e task skb s = .ok (v, s')) :
    s' = s ∨ ∃ kzalloc, task = some kzalloc ∧
      (IpHdr.ofBytes e (skb.data.drop skb.network_offset)).protocol = IPPROTO_TCP ∧
      lfwHookSees e s skb = some false ∧
      s' = { s with workqueue := s.workqueue ++ [lfwTaskOf e skb] } := by
  unfold lfwHcLearnIpv4HookFn at h
  unfold lfwHookSees
  rw [ipHdr_eq] at h ⊢
  simp only at h ⊢
  -- a packet that is not TCP is let through before the flag is read
  by_cases htcp : (IpHdr.ofBytes e (skb.data.drop skb.network_offset)).protocol = IPPROTO_TCP
  · rw [if_neg (by simpa using htcp)] at h ⊢
    obtain ⟨b, hflag, h⟩ := bind_eq_ok.1 h
    cases b with
    | true =>
      obtain ⟨-, rfl⟩ := Prod.mk.inj (Except.ok.inj h)
      exact Or.inl rfl
    | false =>
      cases task with
      | none =>
        obtain ⟨-, rfl⟩ := Prod.mk.inj (Except.ok.inj h)
        exact Or.inl rfl
      | some kzalloc =>
        obtain ⟨-, rfl⟩ := Prod.mk.inj (Except.ok.inj h)
        exact Or.inr ⟨kzalloc, rfl, htcp, by rw [hflag]; rfl, rfl⟩
  · rw [if_pos htcp] at h
    obtain ⟨-, rfl⟩ := Prod.mk.inj (Except.ok.inj h)
    exact Or.inl rfl

/-- **A packet whose hook call sees the flag set** shows nothing and changes nothing. -/
theorem lfwHandle_seenSet (s : LfwSystem) (x : LfwInput) (h : lfwSeenSet e s x = true) :
    lfwHandle e s x = .ok ([], s) := by
  cases x with
  | localIn task skb =>
    have hsees : lfwHookSees e s skb = some true := of_decide_eq_true h
    rw [lfwHandle, lfwHcLearnIpv4HookFn_set hsees]
    rfl
  | _ => cases h

/-! ## Where a leaf stems from -/

/-- A leaf at an address stems from a history entry, or from a packet, of the address's
prefix. -/
def HcfStems (T : HcfAddNodeTask → Prop) (H : HcfHistoryEntry → Prop) (ip : U32)
    (leaf : HcfMeta) : Prop :=
  (∃ x, H x ∧ top24 x.ip_addr = top24 ip ∧ leaf = ⟨x.hc, x.ttl⟩) ∨
    ∃ task, T task ∧ top24 task.source_ip = top24 ip ∧ leaf = hcfMetaOf task.ttl

/-- Every work that waits, and every leaf, has its source. -/
structure LfwStems (T : HcfAddNodeTask → Prop) (H : HcfHistoryEntry → Prop) (s : LfwSystem) :
    Prop where
  pending : ∀ task ∈ s.workqueue, T task
  leaves : ∃ t, HcfInv s.hcf t ∧
    ∀ ip leaf, (vals t).find (ipPath ip 24) = some leaf → HcfStems T H ip leaf

/-- What an input brings is of the given kinds. -/
def LfwBrings (e : Endian) (T : HcfAddNodeTask → Prop) (H : HcfHistoryEntry → Prop)
    (s : LfwSystem) : LfwInput → Prop
  | .localIn task skb => task.isSome → lfwHookSees e s skb = some false →
      (IpHdr.ofBytes e (skb.data.drop skb.network_offset)).protocol = IPPROTO_TCP →
      T (lfwTaskOf e skb)
  | .setHcfHistory _ info => ∀ x ∈ hcfHistoryEntries e info, H x
  | _ => True

theorem lfwInitState_stems {A : Allocator} (h : lfwInitState A = .ok s) : LfwStems T H s := by
  unfold lfwInitState at h
  cases hcell : lfwInitStateCell A with
  | error r => rw [hcell] at h; cases h
  | ok cell =>
    cases hbg : lfwInitBgState A with
    | error r => rw [hcell, hbg] at h; cases h
    | ok bg =>
      cases hhcf : hcfInitState A with
      | error r => rw [hcell, hbg, hhcf] at h; cases h
      | ok hcf =>
        rw [hcell, hbg, hhcf] at h
        obtain rfl := Except.ok.inj h
        obtain ⟨a, hinv⟩ := hcfInitState_any hhcf
        refine ⟨fun task htask => absurd htask (List.not_mem_nil), hcfBlank a, hinv,
          fun ip leaf hleaf => ?_⟩
        rw [find_hcfBlank] at hleaf
        cases hleaf

/-- A leaf that a history installs stems from one of its entries. -/
theorem hcfStems_of_restore {u : BitTrie HcfMeta} {entries : List HcfHistoryEntry} {ip : U32}
    {leaf : HcfMeta} (hmap : MapsTo u (HcfMap.restore entries)) (hH : ∀ x ∈ entries, H x)
    (hleaf : u.find (ipPath ip 24) = some leaf) : HcfStems T H ip leaf := by
  have hentry := hmap ip
  rw [hleaf, HcfMap.restore_eq, Option.map_some, eq_comm, Option.map_eq_some_iff] at hentry
  obtain ⟨x, hlast, hx⟩ := hentry
  have hmem := List.mem_filter.1 (List.mem_of_getLast? hlast)
  exact Or.inl ⟨x, hH x hmem.1, of_decide_eq_true hmem.2,
    (HcfMeta.entry_inj (x := ⟨x.hc, x.ttl⟩) hx).symm⟩

/-- A leaf after a register work is its own, or was there before. -/
theorem hcfStems_of_put {u : BitTrie HcfMeta} {task : HcfAddNodeTask} {ip : U32} {leaf : HcfMeta}
    (hu : ∀ ip leaf, u.find (ipPath ip 24) = some leaf → HcfStems T H ip leaf) (hT : T task)
    (hleaf : (BitTrie.put HcfMeta.zero (fun _ => hcfMetaOf task.ttl) (ipPath task.source_ip 24) u).find
      (ipPath ip 24) = some leaf) : HcfStems T H ip leaf := by
  by_cases hkey : ipPath ip 24 = ipPath task.source_ip 24
  · rw [hkey, BitTrie.find_put_self] at hleaf
    exact Or.inr ⟨task, hT, top24_eq_iff.2 hkey.symm, (Option.some.inj hleaf).symm⟩
  · have hlen : (ipPath ip 24).length = (ipPath task.source_ip 24).length := by
      rw [length_ipPath, length_ipPath]
    rw [BitTrie.find_put_of_ne hlen hkey] at hleaf
    exact hu ip leaf hleaf

/-- **Every input keeps the sources.** -/
theorem LfwStems.handle (h : LfwStems T H s) (hb : LfwBrings e T H s x)
    (hrun : lfwHandle e s x = .ok (outs, s')) : LfwStems T H s' := by
  obtain ⟨t, hinv, hleaves⟩ := h.leaves
  cases x with
  | localIn task skb =>
    obtain ⟨⟨v, s₁⟩, hhook, hrun⟩ := bind_eq_ok.1 hrun
    obtain ⟨-, rfl⟩ := Prod.mk.inj (Except.ok.inj hrun)
    -- the one input that adds a work
    rcases lfwHcLearnIpv4HookFn_cases hhook with rfl | ⟨kzalloc, rfl, htcp, hsees, rfl⟩
    · exact h
    · refine ⟨fun task htask => ?_, t, hinv, hleaves⟩
      rcases List.mem_append.1 htask with hold | hnew
      · exact h.pending task hold
      · obtain rfl := List.mem_singleton.1 hnew
        exact hb rfl hsees htcp
  | ingress skb =>
    obtain ⟨v, -, hrun⟩ := bind_eq_ok.1 hrun
    obtain ⟨-, rfl⟩ := Prod.mk.inj (Except.ok.inj hrun)
    exact h
  | work A i =>
    rw [lfwHandle] at hrun
    cases htask : s.workqueue[i]? with
    | none =>
      rw [htask] at hrun
      obtain ⟨-, rfl⟩ := Prod.mk.inj (Except.ok.inj hrun)
      exact h
    | some task =>
      rw [htask] at hrun
      obtain ⟨⟨announced, hcf⟩, hwork, hrun⟩ := bind_eq_ok.1 hrun
      obtain ⟨-, rfl⟩ := Prod.mk.inj (Except.ok.inj hrun)
      -- the works put one leaf each, and a history puts all there are
      obtain ⟨t', hinv', hvals⟩ := hinv.work_any hwork
      have hT : T task := h.pending task (List.mem_of_getElem? htask)
      refine ⟨fun task' htask' => h.pending task' (List.mem_of_mem_eraseIdx htask'), t', hinv',
        fun ip leaf hleaf => ?_⟩
      rw [hvals] at hleaf
      exact hcfStems_of_put hleaves hT hleaf
  | setBogon A info =>
    obtain ⟨⟨ret, bg⟩, -, hrun⟩ := bind_eq_ok.1 hrun
    obtain ⟨-, rfl⟩ := Prod.mk.inj (Except.ok.inj hrun)
    exact ⟨h.pending, t, hinv, hleaves⟩
  | setHcfHistory A info =>
    obtain ⟨⟨ret, hcf⟩, hhist, hrun⟩ := bind_eq_ok.1 hrun
    obtain ⟨-, rfl⟩ := Prod.mk.inj (Except.ok.inj hrun)
    rcases hinv.history_any hhist with hsame | ⟨t', hinv', hmap⟩
    · exact ⟨h.pending, t, hsame, hleaves⟩
    · exact ⟨h.pending, t', hinv', fun ip leaf hleaf => hcfStems_of_restore hmap hb hleaf⟩
  | setUnderAttack A info =>
    obtain ⟨⟨ret, state⟩, -, hrun⟩ := bind_eq_ok.1 hrun
    obtain ⟨-, rfl⟩ := Prod.mk.inj (Except.ok.inj hrun)
    exact ⟨h.pending, t, hinv, hleaves⟩
  | bogonCallback i =>
    obtain ⟨bg, -, hrun⟩ := bind_eq_ok.1 hrun
    obtain ⟨-, rfl⟩ := Prod.mk.inj (Except.ok.inj hrun)
    exact ⟨h.pending, t, hinv, hleaves⟩
  | hcfCallback i =>
    obtain ⟨hcf, hfree, hrun⟩ := bind_eq_ok.1 hrun
    obtain ⟨-, rfl⟩ := Prod.mk.inj (Except.ok.inj hrun)
    obtain ⟨hcf', hfree', hinv'⟩ := hcfFreeNodeRcu_spec i hinv
    obtain rfl := Except.ok.inj (hfree'.symm.trans hfree)
    exact ⟨h.pending, t, hinv', hleaves⟩
  | stateCallback i =>
    obtain ⟨state, -, hrun⟩ := bind_eq_ok.1 hrun
    obtain ⟨-, rfl⟩ := Prod.mk.inj (Except.ok.inj hrun)
    exact ⟨h.pending, t, hinv, hleaves⟩

/-! ## Runs -/

/-- The work stems from a TCP packet of the run whose hook call saw the flag clear. -/
def LfwSawClear (e : Endian) (s₀ : LfwSystem) (xs : List LfwInput) (task : HcfAddNodeTask) : Prop :=
  ∃ pre kzalloc skb post outs s₁, xs = pre ++ .localIn (some kzalloc) skb :: post ∧
    lfwTrace e s₀ pre = .ok (outs, s₁) ∧ lfwHookSees e s₁ skb = some false ∧
    (IpHdr.ofBytes e (skb.data.drop skb.network_offset)).protocol = IPPROTO_TCP ∧
    task = lfwTaskOf e skb

/-- The entry is of a history that the run restored. -/
def LfwRestored (e : Endian) (xs : List LfwInput) (entry : HcfHistoryEntry) : Prop :=
  ∃ A info, .setHcfHistory A info ∈ xs ∧ entry ∈ hcfHistoryEntries e info

/-- Every run from initialisation keeps the sources. -/
theorem lfwTrace_stems {A₀ : Allocator} {s₀ : LfwSystem} (hinit : lfwInitState A₀ = .ok s₀)
    (hrun : lfwTrace e s₀ xs = .ok (outs, s)) :
    LfwStems (LfwSawClear e s₀ xs) (LfwRestored e xs) s := by
  refine trace_keeps (P := LfwBrings e (LfwSawClear e s₀ xs) (LfwRestored e xs))
    (fun _ _ _ _ h hb hstep => h.handle hb hstep) (lfwInitState_stems hinit) ?_ hrun
  intro pre x post outs₁ s₁ hsplit hpre
  cases x with
  | localIn task skb =>
    intro hsome hsees htcp
    obtain ⟨kzalloc, rfl⟩ := Option.isSome_iff_exists.1 hsome
    exact ⟨pre, kzalloc, skb, post, outs₁, s₁, hsplit, hpre, hsees, htcp, rfl⟩
  | setHcfHistory A info =>
    intro entry hentry
    exact ⟨A, info, by simp [hsplit], hentry⟩
  | _ => trivial

/-- **Traffic under attack teaches nothing.** Two runs that are one but for packets for the
host whose hook calls see the flag set give the same verdicts, announcements and returns and
end in the same state, works and tree among the rest. And in every state reached each work
that waits stems from a TCP packet whose hook call saw the flag clear, and each leaf from
such a packet of its prefix or from a history entry of it. -/
theorem lfwTrace_unpoisoned (e : Endian) :
    (∀ s xs ys, lfwCalm e s xs = lfwCalm e s ys → lfwTrace e s xs = lfwTrace e s ys) ∧
    ∀ A₀ s₀ xs outs s, lfwInitState A₀ = .ok s₀ → lfwTrace e s₀ xs = .ok (outs, s) →
      (∀ task ∈ s.workqueue, LfwSawClear e s₀ xs task) ∧
      ∀ ip, ∃ leaf, hcfLeaf s.hcf ip = .ok leaf ∧
        ∀ x ∈ leaf, HcfStems (LfwSawClear e s₀ xs) (LfwRestored e xs) ip x := by
  refine ⟨fun s xs ys hcalm => trace_eq_of_purge_eq lfwHandle_seenSet hcalm, ?_⟩
  intro A₀ s₀ xs outs s hinit hrun
  have hstems := lfwTrace_stems hinit hrun
  obtain ⟨t, hinv, hleaves⟩ := hstems.leaves
  exact ⟨hstems.pending, fun ip => ⟨_, hinv.leaf ip, fun x hx => hleaves ip x hx⟩⟩

/-- A packet learned, the flag, its work, what comes under attack, and the flag cleared. -/
def lfwSampleTraffic (attack : List LfwInput) : List LfwInput :=
  [.localIn (some ⟨0, 0⟩) (lfwSampleSkb [192, 0, 2, 1] 60),
    .setUnderAttack Supply.next.toAllocator ⟨attrBytes .little ⟨LFW_NLA_UNDER_ATTACK, []⟩, 4⟩,
    .work Supply.next.toAllocator 0] ++ attack ++
  [.setUnderAttack Supply.next.toAllocator ⟨[], 0⟩]

/-- Two packets of a learned prefix, sent under attack at another distance. -/
def lfwSampleAttack : List LfwInput :=
  [.localIn (some ⟨0, 0⟩) (lfwSampleSkb [192, 0, 2, 1] 40),
    .localIn (some ⟨0, 0⟩) (lfwSampleSkb [192, 0, 2, 2] 41)]

theorem lfwTrace_unpoisoned_sample :
    ∃ s₀ outs s, lfwInitState Supply.next.toAllocator = .ok s₀ ∧
      lfwTrace .little s₀ (lfwSampleTraffic lfwSampleAttack) =
        lfwTrace .little s₀ (lfwSampleTraffic []) ∧
      lfwTrace .little s₀ (lfwSampleTraffic []) = .ok (outs, s) ∧
      hcfLeaf s.hcf 0xC0000201#32 = .ok (some ⟨4, 60⟩) ∧
      HcfStems (LfwSawClear .little s₀ (lfwSampleTraffic []))
        (LfwRestored .little (lfwSampleTraffic [])) 0xC0000201#32 ⟨4, 60⟩ := by
  obtain ⟨htwo, hone⟩ := lfwTrace_unpoisoned .little
  obtain ⟨s₀, hinit⟩ : ∃ s₀, lfwInitState Supply.next.toAllocator = .ok s₀ := ⟨_, rfl⟩
  obtain ⟨outs, s, hrun, hleaf⟩ : ∃ outs s, lfwTrace .little s₀ (lfwSampleTraffic []) =
      .ok (outs, s) ∧ hcfLeaf s.hcf 0xC0000201#32 = .ok (some ⟨4, 60⟩) := by
    obtain rfl := Except.ok.inj hinit
    exact ⟨_, _, rfl, rfl⟩
  refine ⟨s₀, outs, s, hinit, htwo _ _ _ ?_, hrun, hleaf, ?_⟩
  · obtain rfl := Except.ok.inj hinit
    rfl
  · obtain ⟨leaf, hleaf', hstems⟩ := (hone _ _ _ _ _ hinit hrun).2 0xC0000201#32
    obtain rfl := Except.ok.inj (hleaf.symm.trans hleaf')
    exact hstems _ rfl

end Librefw
