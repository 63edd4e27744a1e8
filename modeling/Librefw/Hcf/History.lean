import Librefw.Hcf.Refinement
import Librefw.Kernel.Model.Policy

/-!
# What a history message installs

An entry of a history is parsed into locals that start at zero, and goes
into the tree whatever it had (`hcfParseEntry_getD`); it should count only
if it is complete. So the leaf of a prefix is the last entry that was
parsed, where it should be the last complete one; and where these are the
same for every prefix, so are the trees (`hcfBuilt_eq_iff`). They differ
in what `HcfHistoryExact` forbids: an entry that is not complete, the last
of its prefix, with something else in it than the last complete one has
(`hcfHistory_installs_iff`).
-/

namespace Librefw

open PtrTrie

variable {e : Endian} {s : HcfState} {info : GenlInfo}

/-! ## The last entry of a prefix -/

/-- The last entry of a prefix. -/
def hcfLastEntry (entries : List HcfHistoryEntry) (k : BitVec 24) : Option HcfHistoryEntry :=
  (entries.filter fun x => top24 x.ip_addr = k).getLast?

theorem hcfLastEntry_append (xs ys : List HcfHistoryEntry) (k : BitVec 24) :
    hcfLastEntry (xs ++ ys) k = (hcfLastEntry ys k <|> hcfLastEntry xs k) := by
  unfold hcfLastEntry
  rw [List.filter_append, List.getLast?_append]
  cases (ys.filter fun x => top24 x.ip_addr = k).getLast? <;> rfl

theorem hcfLastEntry_eq_none {entries : List HcfHistoryEntry} {k : BitVec 24}
    (h : ∀ x ∈ entries, top24 x.ip_addr ≠ k) : hcfLastEntry entries k = none := by
  unfold hcfLastEntry
  rw [List.getLast?_eq_none_iff, List.filter_eq_nil_iff]
  simpa only [decide_eq_true_eq, ne_eq] using h

/-- A history entry as an entry of the map. -/
def HcfHistoryEntry.entry (x : HcfHistoryEntry) : HcfEntry := ⟨x.hc.toNat, x.ttl⟩

/-- What a history should leave behind: lookups that answer by the last complete entry of the
prefix, and the tree that its complete entries alone build. -/
structure HcfInstalls (e : Endian) (info : GenlInfo) (s : HcfState) : Prop where
  lookup : ∀ source_ip ttl, hcfLookupTree s.tree s.mem source_ip ttl =
    .ok (match hcfLastEntry (hcfCarriedEntries e info) (top24 source_ip) with
      | none => -1
      | some x => hcfCompare ttl x.hc)
  absent : ∃ t a, HcfInv s t ∧
    vals t = hcfBuilt (vals (hcfBlank a)) (hcfCarriedEntries e info)

/-! ## The tree of a list of entries -/

variable {u : BitTrie HcfMeta} {entries xs ys : List HcfHistoryEntry} {q : List Bool}

/-- A key that is on the way to no entry is as it was. -/
theorem find_hcfBuilt_of_not (h : ∀ x ∈ entries, ¬ q <+: ipPath x.ip_addr 24) :
    (hcfBuilt u entries).find q = u.find q := by
  induction entries generalizing u with
  | nil => rfl
  | cons x entries ih =>
    have hput : (BitTrie.put HcfMeta.zero (fun _ => ⟨x.hc, x.ttl⟩) (ipPath x.ip_addr 24) u).find q =
        u.find q := BitTrie.find_put_of_not_prefix (h x List.mem_cons_self)
    exact (ih fun y hy => h y (List.mem_cons_of_mem x hy)).trans hput

/-- And a key above that of some entry is there from then on, with what it had. -/
theorem find_hcfBuilt_above (hlen : q.length ≠ 24)
    (h : ∃ x ∈ entries, q <+: ipPath x.ip_addr 24) :
    (hcfBuilt u entries).find q = some ((u.find q).getD HcfMeta.zero) := by
  have hne : ∀ x : HcfHistoryEntry, q ≠ ipPath x.ip_addr 24 := fun x heq =>
    hlen (heq ▸ length_ipPath _ _)
  induction entries generalizing u with
  | nil =>
    obtain ⟨x, hx, -⟩ := h
    exact absurd hx List.not_mem_nil
  | cons x entries ih =>
    have hput : (BitTrie.put HcfMeta.zero (fun _ => ⟨x.hc, x.ttl⟩) (ipPath x.ip_addr 24) u).find q =
        if q <+: ipPath x.ip_addr 24 then some ((u.find q).getD HcfMeta.zero) else u.find q := by
      rw [BitTrie.find_put, if_neg (hne x)]
    show (hcfBuilt (BitTrie.put HcfMeta.zero (fun _ => ⟨x.hc, x.ttl⟩) (ipPath x.ip_addr 24) u)
      entries).find q = _
    by_cases hrest : ∃ y ∈ entries, q <+: ipPath y.ip_addr 24
    · rw [ih hrest, hput]
      split <;> rfl
    · push Not at hrest
      obtain ⟨y, hy, hq⟩ := h
      rcases List.mem_cons.1 hy with rfl | hy
      · rw [find_hcfBuilt_of_not hrest, hput, if_pos hq]
      · exact absurd hq (hrest y hy)

/-- A prefix has a last entry if it has one. -/
theorem hcfLastEntry_isSome {k : BitVec 24} :
    (∃ x ∈ entries, top24 x.ip_addr = k) ↔ (hcfLastEntry entries k).isSome := by
  constructor
  · rintro ⟨x, hx, hk⟩
    rw [Option.isSome_iff_ne_none, ne_eq, hcfLastEntry, List.getLast?_eq_none_iff,
      List.filter_eq_nil_iff]
    exact fun hno => hno x hx (decide_eq_true hk)
  · intro hsome
    by_contra hno
    push Not at hno
    rw [hcfLastEntry_eq_none hno] at hsome
    cases hsome

/-- **Two lists of entries build one tree** exactly if every prefix ends up with the same leaf. -/
theorem hcfBuilt_eq_iff (hu : MapsTo u HcfMap.empty) :
    hcfBuilt u xs = hcfBuilt u ys ↔ ∀ source_ip,
      (hcfLastEntry xs (top24 source_ip)).map HcfHistoryEntry.entry =
        (hcfLastEntry ys (top24 source_ip)).map HcfHistoryEntry.entry := by
  have hleaf : ∀ (l : List HcfHistoryEntry) source_ip,
      ((hcfBuilt u l).find (ipPath source_ip 24)).map HcfMeta.entry =
        (hcfLastEntry l (top24 source_ip)).map HcfHistoryEntry.entry := fun l source_ip =>
    (hu.built l source_ip).trans (HcfMap.restore_eq l (top24 source_ip))
  constructor
  · intro heq source_ip
    rw [← hleaf, ← hleaf, heq]
  · intro hlast
    -- the entries have the same prefixes, so the same keys are on the way to them
    have hsub : ∀ {l l' : List HcfHistoryEntry}, (∀ source_ip,
        (hcfLastEntry l (top24 source_ip)).map HcfHistoryEntry.entry =
          (hcfLastEntry l' (top24 source_ip)).map HcfHistoryEntry.entry) → ∀ {q : List Bool},
        (∃ x ∈ l, q <+: ipPath x.ip_addr 24) → ∃ y ∈ l', q <+: ipPath y.ip_addr 24 := by
      rintro l l' hl q ⟨x, hx, hq⟩
      have hsome := hcfLastEntry_isSome.1 ⟨x, hx, rfl⟩
      rw [← Option.isSome_map (f := HcfHistoryEntry.entry), hl, Option.isSome_map,
        ← hcfLastEntry_isSome] at hsome
      obtain ⟨y, hy, htop⟩ := hsome
      exact ⟨y, hy, (top24_eq_iff.1 htop).symm ▸ hq⟩
    refine BitTrie.ext_find fun q => ?_
    by_cases hq : ∃ x ∈ xs, q <+: ipPath x.ip_addr 24
    · by_cases hlen : q.length = 24
      · obtain ⟨x, -, hpre⟩ := hq
        obtain rfl := hpre.eq_of_length (hlen.trans (length_ipPath x.ip_addr 24).symm)
        have hsame := (hleaf xs x.ip_addr).trans ((hlast x.ip_addr).trans (hleaf ys x.ip_addr).symm)
        exact Option.map_injective (fun _ _ => HcfMeta.entry_inj) hsame
      · rw [find_hcfBuilt_above hlen hq, find_hcfBuilt_above hlen (hsub hlast hq)]
    · have hq' : ¬ ∃ y ∈ ys, q <+: ipPath y.ip_addr 24 := fun h =>
        hq (hsub (fun source_ip => (hlast source_ip).symm) h)
      push Not at hq hq'
      rw [find_hcfBuilt_of_not hq, find_hcfBuilt_of_not hq']

/-! ## Complete entries and the others -/

/-- The condition under which a history installs its complete entries alone. An
entry that is not complete, the last one at its address (`0.0.0.0` if it has
none), has to repeat the time-to-live and the hop count of the last complete entry
there, zero standing for what it lacks. -/
def HcfHistoryExact (e : Endian) (info : GenlInfo) : Prop :=
  ∀ xs pos ys, attrsOfType LFW_NLA_HCF_HISTORY (info.all e) = xs ++ pos :: ys →
    hcfCarried e pos = none →
    (∀ q ∈ ys, top24 (hcfAddrOf e q) ≠ top24 (hcfAddrOf e pos)) →
    ∃ x ∈ hcfLastEntry (xs.filterMap (hcfCarried e)) (top24 (hcfAddrOf e pos)),
      x.ttl = hcfTtlOf e pos ∧ x.hc = hcfHcOf e pos

/-- A list has no element with a property, or a last one. -/
theorem exists_last {α : Type} (p : α → Prop) (l : List α) :
    (∀ q ∈ l, ¬ p q) ∨ ∃ xs pos ys, l = xs ++ pos :: ys ∧ p pos ∧ ∀ q ∈ ys, ¬ p q := by
  induction l with
  | nil => exact Or.inl fun q hq => absurd hq List.not_mem_nil
  | cons a l ih =>
    rcases ih with hnone | ⟨xs, pos, ys, rfl, hpos, hys⟩
    · by_cases ha : p a
      · exact Or.inr ⟨[], a, l, rfl, ha, hnone⟩
      · refine Or.inl fun q hq => ?_
        rcases List.mem_cons.1 hq with rfl | hq
        · exact ha
        · exact hnone q hq
    · exact Or.inr ⟨a :: xs, pos, ys, rfl, hpos, hys⟩

/-- A complete entry has the address it is parsed with. -/
theorem hcfCarried_addr {pos : NlAttr} {x : HcfHistoryEntry} (h : hcfCarried e pos = some x) :
    x.ip_addr = hcfAddrOf e pos := by
  rw [← hcfParseEntry_eq h, hcfParseEntry_getD]

section Split

variable {xs ys : List NlAttr} {pos : NlAttr} {k : BitVec 24}

/-- Entries of other prefixes, parsed or complete, are not found. -/
theorem hcfLastEntry_of_others (hys : ∀ q ∈ ys, top24 (hcfAddrOf e q) ≠ k) :
    hcfLastEntry (ys.map (hcfParseEntry e)) k = none ∧
      hcfLastEntry (ys.filterMap (hcfCarried e)) k = none := by
  refine ⟨hcfLastEntry_eq_none fun x hx => ?_, hcfLastEntry_eq_none fun x hx => ?_⟩
  · obtain ⟨q, hq, rfl⟩ := List.mem_map.1 hx
    rw [hcfParseEntry_getD]
    exact hys q hq
  · obtain ⟨q, hq, hcarried⟩ := List.mem_filterMap.1 hx
    rw [hcfCarried_addr hcarried]
    exact hys q hq

/-- **The last entry of a prefix** is found as it is parsed; among the complete
ones, it is found if it is complete, and else the last one before it. -/
theorem hcfLastEntry_split (xs : List NlAttr) (hpos : top24 (hcfAddrOf e pos) = k)
    (hys : ∀ q ∈ ys, top24 (hcfAddrOf e q) ≠ k) :
    hcfLastEntry ((xs ++ pos :: ys).map (hcfParseEntry e)) k = some (hcfParseEntry e pos) ∧
      hcfLastEntry ((xs ++ pos :: ys).filterMap (hcfCarried e)) k =
        (hcfCarried e pos <|> hcfLastEntry (xs.filterMap (hcfCarried e)) k) := by
  obtain ⟨hparsed, hcomplete⟩ := hcfLastEntry_of_others hys
  have hsingle : ∀ x : HcfHistoryEntry, x.ip_addr = hcfAddrOf e pos →
      hcfLastEntry [x] k = some x := by
    intro x hx
    have hk : top24 x.ip_addr = k := by rw [hx, hpos]
    rw [hcfLastEntry, List.filter_singleton]
    simp [hk]
  have hsplit : xs ++ pos :: ys = xs ++ ([pos] ++ ys) := rfl
  -- what comes after the entry is of other prefixes, and what comes before is older
  rw [hsplit, List.map_append, List.map_append, List.filterMap_append, List.filterMap_append,
    hcfLastEntry_append, hcfLastEntry_append, hcfLastEntry_append, hcfLastEntry_append, hparsed,
    hcomplete]
  constructor
  · rw [List.map_singleton, hsingle _ (by rw [hcfParseEntry_getD])]
    rfl
  · cases hcarried : hcfCarried e pos with
    | none =>
      rw [List.filterMap_cons_none hcarried]
      rfl
    | some x =>
      rw [List.filterMap_cons_some hcarried, List.filterMap_nil,
        hsingle x (hcfCarried_addr hcarried)]
      rfl

end Split

/-- An entry of the map tells its two words. -/
theorem HcfHistoryEntry.entry_eq_iff {x y : HcfHistoryEntry} :
    x.entry = y.entry ↔ x.ttl = y.ttl ∧ x.hc = y.hc := by
  rw [entry, entry, HcfEntry.mk.injEq, Nat.cast_inj, BitVec.toNat_inj, and_comm]

/-- **The two last entries of every prefix are one leaf** exactly under the
condition. -/
theorem hcfHistoryExact_iff (e : Endian) (info : GenlInfo) :
    HcfHistoryExact e info ↔ ∀ source_ip,
      (hcfLastEntry (hcfHistoryEntries e info) (top24 source_ip)).map HcfHistoryEntry.entry =
        (hcfLastEntry (hcfCarriedEntries e info) (top24 source_ip)).map
          HcfHistoryEntry.entry := by
  unfold HcfHistoryExact hcfHistoryEntries hcfCarriedEntries
  generalize attrsOfType LFW_NLA_HCF_HISTORY (info.all e) = l
  constructor
  · intro hexact source_ip
    -- a prefix without entries is unknown either way; else its last entry decides
    rcases exists_last (fun q => top24 (hcfAddrOf e q) = top24 source_ip) l with
      hnone | ⟨xs, pos, ys, rfl, hpos, hys⟩
    · obtain ⟨hparsed, hcomplete⟩ := hcfLastEntry_of_others hnone
      rw [hparsed, hcomplete]
    · obtain ⟨hparsed, hcomplete⟩ := hcfLastEntry_split xs hpos hys
      rw [hparsed, hcomplete]
      cases hcarried : hcfCarried e pos with
      | some x =>
        rw [hcfParseEntry_eq hcarried]
        rfl
      | none =>
        obtain ⟨x, hx, halike⟩ := hexact xs pos ys rfl hcarried (hpos ▸ hys)
        rw [hpos] at hx
        rw [Option.mem_def.1 hx, hcfParseEntry_getD]
        exact congrArg some (HcfHistoryEntry.entry_eq_iff.2 halike).symm
  · intro hall xs pos ys hl hcarried hys
    obtain ⟨hparsed, hcomplete⟩ := hcfLastEntry_split xs (Eq.refl (top24 (hcfAddrOf e pos))) hys
    have hsame := hall (hcfAddrOf e pos)
    rw [hl, hparsed, hcomplete, hcarried, hcfParseEntry_getD] at hsame
    -- what is found before it is all that can be like it
    cases hlast : hcfLastEntry (xs.filterMap (hcfCarried e)) (top24 (hcfAddrOf e pos)) with
    | none =>
      rw [hlast] at hsame
      cases hsame
    | some x =>
      rw [hlast] at hsame
      exact ⟨x, rfl, HcfHistoryEntry.entry_eq_iff.1 (Option.some.inj hsame).symm⟩

/-- **What a history installs.** In any state a run reaches, with allocations
that succeed, the command returns zero, and leaves its complete entries behind and
nothing else if and only if `HcfHistoryExact` holds of the message. -/
theorem hcfHistory_installs_iff {A₀ : Supply} {s₀ : HcfState} {ops : List HcfOp} (A : Supply)
    (info : GenlInfo) (hinit : hcfInitState A₀.toAllocator = .ok s₀)
    (hreach : run (hcfStep e) s₀ ops = .ok s) :
    ∃ s', hcfRegisterIpHistory e A.toAllocator info s = .ok (0, s') ∧
      (HcfInstalls e info s' ↔ HcfHistoryExact e info) := by
  obtain ⟨t₀, hinv₀⟩ := hcfRun_inv hinit hreach
  obtain ⟨s', t, a, hrun, hinv, hvals⟩ := hcfRegisterIpHistory_spec e A info hinv₀
  refine ⟨s', hrun, ?_⟩
  have hblank : MapsTo (vals (hcfBlank a)) HcfMap.empty := mapsTo_blank a
  have hmap := hblank.built (hcfHistoryEntries e info)
  rw [← hvals] at hmap
  rw [hcfHistoryExact_iff, ← hcfBuilt_eq_iff hblank, ← hvals]
  constructor
  · rintro ⟨-, t', b, hinv', hvals'⟩
    obtain rfl := hinv'.stored.unique hinv.stored (hinv'.root_eq.trans hinv.root_eq.symm)
    exact hvals'
  · intro hsame
    refine ⟨fun source_ip ttl => ?_, t, a, hinv, hsame⟩
    have hlast := (hcfBuilt_eq_iff hblank).1 (hvals.symm.trans hsame) source_ip
    have hrefines : HcfRefines s' (HcfMap.restore (hcfHistoryEntries e info)) := ⟨t, hinv, hmap⟩
    have hanswer : (HcfMap.restore (hcfHistoryEntries e info)) (top24 source_ip) =
        (hcfLastEntry (hcfCarriedEntries e info) (top24 source_ip)).map HcfHistoryEntry.entry :=
      (HcfMap.restore_eq _ _).trans hlast
    rw [hrefines.lookup, HcfMap.lookup, hanswer]
    cases hcfLastEntry (hcfCarriedEntries e info) (top24 source_ip) with
    | none => rfl
    | some x => exact congrArg Except.ok (hcfCompare_eq ttl x.hc).symm

/-- After an empty run, the sample history installs its one entry. -/
theorem hcfHistory_installs_iff_sample :
    ∃ s₀ s', hcfInitState Supply.next.toAllocator = .ok s₀ ∧
      hcfRegisterIpHistory .little Supply.next.toAllocator hcfSampleHistory s₀ = .ok (0, s') ∧
      HcfInstalls .little hcfSampleHistory s' := by
  obtain ⟨a, s₀, hinit, -⟩ := hcfInitState_spec Supply.next
  have hnil : run (hcfStep .little) s₀ [] = .ok s₀ := rfl
  obtain ⟨s', hrun, hiff⟩ := hcfHistory_installs_iff Supply.next hcfSampleHistory hinit hnil
  refine ⟨s₀, s', hinit, hrun, hiff.2 fun xs pos ys hl hcarried => ?_⟩
  have hwf : HcfWellFormed .little hcfSampleHistory := by decide +kernel
  have hsome := hwf pos (hl ▸ List.mem_append_right xs List.mem_cons_self)
  rw [hcarried] at hsome
  cases hsome

/-- A history of one IPv6 row, sixteen hops away. -/
def hcfSampleHistory6 : GenlInfo :=
  let entry := streamBytes .little
    [⟨LFW_NLA_HCF_HISTORY_IP, List.replicate 16 1⟩, ⟨LFW_NLA_HCF_HISTORY_TTL, [48]⟩,
      ⟨LFW_NLA_HCF_HISTORY_HC, [16]⟩]
  let attrs := attrBytes .little ⟨NLA_F_NESTED + LFW_NLA_HCF_HISTORY, entry⟩
  ⟨attrs, attrs.length⟩

/-- The row of an IPv6 address makes `0.0.0.0/24` known. -/
theorem hcfHistory_installs_absent :
    ¬ ∀ (e : Endian) (A₀ A : Supply) (s₀ s s' : HcfState) (ops : List HcfOp) (info : GenlInfo),
      hcfInitState A₀.toAllocator = .ok s₀ → run (hcfStep e) s₀ ops = .ok s →
      lfwPolicyAdmits e info = true →
      hcfRegisterIpHistory e A.toAllocator info s = .ok (0, s') → HcfInstalls e info s' := by
  intro hall
  obtain ⟨a, s₀, hinit, -⟩ := hcfInitState_spec Supply.next
  have hnil : run (hcfStep .little) s₀ [] = .ok s₀ := rfl
  obtain ⟨s', hrun, hiff⟩ := hcfHistory_installs_iff Supply.next hcfSampleHistory6 hinit hnil
  have hexact := hiff.1 (hall .little _ _ s₀ s₀ s' [] _ hinit hnil (by decide +kernel) hrun)
  obtain ⟨pos, hl, hcarried⟩ : ∃ pos,
      attrsOfType LFW_NLA_HCF_HISTORY (hcfSampleHistory6.all .little) = [pos] ∧
        hcfCarried .little pos = none := ⟨_, rfl, by decide +kernel⟩
  obtain ⟨x, hx, -⟩ := hexact [] pos [] hl hcarried fun q hq => absurd hq List.not_mem_nil
  cases hx

end Librefw
