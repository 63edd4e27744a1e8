import Librefw.Hcf.State
import Librefw.Kernel.NlOps
import Librefw.Common.Run

/-!
# The hop-count tree refines a map of 24-bit prefixes

What the component is for: a map from the top 24 bits of an address to a
hop count and the time-to-live it was seen with. A register work writes
one entry (`HcfMap.register`), a history message replaces the map by what
its entries carry (`HcfMap.restore`), and a lookup compares hop counts.

`HcfRefines` is the abstraction relation: the component keeps its
invariant, and the leaves of its tree are the map. Every event keeps it
(`hcfStep_refines`), so every run does, and a lookup in any state reached
is a lookup in the map.
-/

namespace Librefw

open PtrTrie

variable {s s' : HcfState} {t t' : PtrTrie HcfMeta} {M : HcfMap}

/-! ## The map -/

/-- The top 24 bits of an address. -/
def top24 (ip : U32) : BitVec 24 := ip.extractLsb' 8 24

/-- What a prefix is mapped to, the hop count a number. -/
structure HcfEntry where
  hc : ℤ
  ttl : U8
  deriving DecidableEq, Repr

abbrev HcfMap := BitVec 24 → Option HcfEntry

namespace HcfMap

def empty : HcfMap := fun _ => none

/-- The map with the entry of one address's prefix written. -/
def write (M : HcfMap) (ip : U32) (x : HcfEntry) : HcfMap :=
  Function.update M (top24 ip) (some x)

/-- A register work. -/
def register (M : HcfMap) (task : HcfAddNodeTask) : HcfMap :=
  M.write task.source_ip ⟨hcfGetInitialTtl task.ttl - task.ttl.toNat, task.ttl⟩

/-- A history: its entries, written one after another into an empty map. -/
def restore (entries : List HcfHistoryEntry) : HcfMap :=
  entries.foldl (fun M x => M.write x.ip_addr ⟨x.hc.toNat, x.ttl⟩) empty

/-- The comparison with a mapped hop count. -/
def answer (ttl : U8) : Option HcfEntry → ℤ
  | none => -1
  | some x => if ((hcfGetInitialTtl ttl - ttl.toNat) - x.hc).natAbs ≤ 2 then 1 else 0

/-- A lookup. -/
def lookup (M : HcfMap) (source_ip : U32) (ttl : U8) : ℤ := answer ttl (M (top24 source_ip))

end HcfMap

/-! ## Histories of distinct prefixes -/

namespace HcfMap

variable {entries entries' : List HcfHistoryEntry} {k : BitVec 24}

/-- **The last entry of a prefix is the one restored.** -/
theorem restore_eq (entries : List HcfHistoryEntry) (k : BitVec 24) :
    restore entries k = (entries.filter fun x => top24 x.ip_addr = k).getLast?.map
      fun x => ⟨x.hc.toNat, x.ttl⟩ := by
  have hstep : ∀ (M : HcfMap) (x : HcfHistoryEntry), M.write x.ip_addr ⟨x.hc.toNat, x.ttl⟩ k =
      if decide (top24 x.ip_addr = k) then some ⟨x.hc.toNat, x.ttl⟩ else M k := by
    intro M x
    unfold write
    by_cases hk : top24 x.ip_addr = k
    · subst hk
      simp
    · rw [Function.update_of_ne (Ne.symm hk)]
      simp [hk]
  have hfold := @foldl_lastWrite _ _ _ (fun M x => M.write x.ip_addr ⟨x.hc.toNat, x.ttl⟩)
    (fun M : HcfMap => M k) _ _ hstep entries empty
  rw [restore, hfold]
  cases (entries.filter fun x => top24 x.ip_addr = k).getLast? <;> rfl

/-- A prefix is restored exactly if some entry is of it. -/
theorem restore_eq_none_iff : restore entries k = none ↔ ∀ x ∈ entries, top24 x.ip_addr ≠ k := by
  rw [restore_eq, Option.map_eq_none_iff, List.getLast?_eq_none_iff, List.filter_eq_nil_iff]
  simp only [decide_eq_true_eq, ne_eq]

theorem restore_of_notMem (h : ∀ x ∈ entries, top24 x.ip_addr ≠ k) : restore entries k = none :=
  restore_eq_none_iff.2 h

/-- Of entries with distinct prefixes each one is restored. -/
theorem restore_of_mem (hnd : (entries.map fun x => top24 x.ip_addr).Nodup) {x : HcfHistoryEntry}
    (hx : x ∈ entries) : restore entries (top24 x.ip_addr) = some ⟨x.hc.toNat, x.ttl⟩ := by
  have hone : entries.filter (fun y => top24 y.ip_addr = top24 x.ip_addr) = [x] := by
    induction entries with
    | nil => cases hx
    | cons y entries ih =>
      rw [List.map_cons, List.nodup_cons] at hnd
      rcases List.mem_cons.1 hx with rfl | hx
      · rw [List.filter_cons_of_pos (by simp), List.filter_eq_nil_iff.2 fun z hz => ?_]
        intro heq
        exact hnd.1 (List.mem_map.2 ⟨z, hz, of_decide_eq_true heq⟩)
      · rw [List.filter_cons_of_neg, ih hnd.2 hx]
        intro heq
        exact hnd.1 (List.mem_map.2 ⟨x, hx, (of_decide_eq_true heq).symm⟩)
  rw [restore_eq, hone]
  rfl

/-- The order of distinct prefixes does not matter. -/
theorem restore_perm (hnd : (entries.map fun x => top24 x.ip_addr).Nodup)
    (hperm : entries'.Perm entries) : restore entries' = restore entries := by
  have hnd' : (entries'.map fun x => top24 x.ip_addr).Nodup := (hperm.map _).nodup_iff.2 hnd
  funext k
  by_cases hk : ∃ x ∈ entries, top24 x.ip_addr = k
  · obtain ⟨x, hx, rfl⟩ := hk
    rw [restore_of_mem hnd hx, restore_of_mem hnd' (hperm.mem_iff.2 hx)]
  · push Not at hk
    rw [restore_of_notMem hk, restore_of_notMem fun x hx => hk x (hperm.mem_iff.1 hx)]

end HcfMap

/-- A leaf as an entry of the map. -/
def HcfMeta.entry (leaf : HcfMeta) : HcfEntry := ⟨leaf.hc.toNat, leaf.ttl⟩

/-- A leaf is what its entry says. -/
theorem HcfMeta.entry_inj {x y : HcfMeta} (h : x.entry = y.entry) : x = y := by
  obtain ⟨hc, ttl⟩ := x
  obtain ⟨hc', ttl'⟩ := y
  simp only [entry, HcfEntry.mk.injEq, Nat.cast_inj] at h
  rw [BitVec.eq_of_toNat_eq h.1, h.2]

theorem top24_eq_iff {ip ip' : U32} : top24 ip = top24 ip' ↔ ipPath ip 24 = ipPath ip' 24 := by
  rw [ipPath_24]
  unfold top24
  constructor
  · intro h
    apply BitVec.eq_of_getLsbD_eq
    intro i hi
    have hbit := congrArg (fun x => BitVec.getLsbD x i) h
    simp only [BitVec.getLsbD_extractLsb', BitVec.getLsbD_ushiftRight] at hbit ⊢
    by_cases h24 : i < 24
    · simpa [h24] using hbit
    · rw [BitVec.getLsbD_of_ge _ _ (by omega), BitVec.getLsbD_of_ge _ _ (by omega)]
  · intro h
    apply BitVec.eq_of_getLsbD_eq
    intro i hi
    have hbit := congrArg (fun x => BitVec.getLsbD x i) h
    simp only [BitVec.getLsbD_extractLsb', BitVec.getLsbD_ushiftRight] at hbit ⊢
    rw [hbit]

/-- What a register work writes, as an entry. -/
theorem hcfMetaOf_entry (ttl : U8) :
    (hcfMetaOf ttl).entry = ⟨hcfGetInitialTtl ttl - ttl.toNat, ttl⟩ := by
  rw [HcfMeta.entry, hcfMetaOf_hc]
  rfl

/-- The answer for a leaf is the answer for its entry. -/
theorem hcfAnswer_eq (ttl : U8) (leaf : Option HcfMeta) :
    hcfAnswer ttl leaf = HcfMap.answer ttl (leaf.map HcfMeta.entry) := by
  cases leaf with
  | none => rfl
  | some x => exact hcfCompare_eq ttl x.hc

/-! ## Well-formed histories -/

/-- What the container of a history entry carries, if it has an address of
four bytes, a time-to-live and a hop count: of each the last one. -/
def hcfCarried (e : Endian) (pos : NlAttr) : Option HcfHistoryEntry := do
  let ip ← lastOf (fun a => a.type = LFW_NLA_HCF_HISTORY_IP ∧ a.len = 4) (NlAttr.getU32 e)
    (pos.nested e)
  let ttl ← lastOf (fun a => a.type = LFW_NLA_HCF_HISTORY_TTL) NlAttr.getU8 (pos.nested e)
  let hc ← lastOf (fun a => a.type = LFW_NLA_HCF_HISTORY_HC) NlAttr.getU8 (pos.nested e)
  pure ⟨ip, ttl, hc⟩

/-- What a history message carries. -/
def hcfCarriedEntries (e : Endian) (info : GenlInfo) : List HcfHistoryEntry :=
  (attrsOfType LFW_NLA_HCF_HISTORY (info.all e)).filterMap (hcfCarried e)

/-- A history message is well formed if every one of its entries is complete. -/
def HcfWellFormed (e : Endian) (info : GenlInfo) : Prop :=
  ∀ pos ∈ attrsOfType LFW_NLA_HCF_HISTORY (info.all e), (hcfCarried e pos).isSome

instance (e : Endian) (info : GenlInfo) : Decidable (HcfWellFormed e info) :=
  inferInstanceAs (Decidable (∀ pos ∈ _, _))

/-- The address of an entry: its last one of four bytes, zero without one. -/
def hcfAddrOf (e : Endian) (pos : NlAttr) : U32 :=
  (lastOf (fun a => a.type = LFW_NLA_HCF_HISTORY_IP ∧ a.len = 4) (NlAttr.getU32 e)
    (pos.nested e)).getD 0

/-- The time-to-live of an entry, zero without one. -/
def hcfTtlOf (e : Endian) (pos : NlAttr) : U8 :=
  (lastOf (fun a => a.type = LFW_NLA_HCF_HISTORY_TTL) NlAttr.getU8 (pos.nested e)).getD 0

/-- The hop count of an entry, zero without one. -/
def hcfHcOf (e : Endian) (pos : NlAttr) : U8 :=
  (lastOf (fun a => a.type = LFW_NLA_HCF_HISTORY_HC) NlAttr.getU8 (pos.nested e)).getD 0

/-- **An entry is parsed** as the last attribute of each field says, zero where
there is none. -/
theorem hcfParseEntry_getD (e : Endian) (pos : NlAttr) :
    hcfParseEntry e pos = ⟨hcfAddrOf e pos, hcfTtlOf e pos, hcfHcOf e pos⟩ := by
  have hip : ∀ (r : HcfHistoryEntry) (a : NlAttr), (hcfParseField e r a).ip_addr =
      if decide (a.type = LFW_NLA_HCF_HISTORY_IP ∧ a.len = 4) then a.getU32 e else r.ip_addr := by
    intro r a
    unfold hcfParseField
    by_cases h1 : a.type = LFW_NLA_HCF_HISTORY_IP
    · by_cases h2 : a.len = 4 <;> simp [h1, h2]
    · simp only [h1, if_false, false_and, decide_false]
      split
      · rfl
      · split <;> rfl
  have httl : ∀ (r : HcfHistoryEntry) (a : NlAttr), (hcfParseField e r a).ttl =
      if decide (a.type = LFW_NLA_HCF_HISTORY_TTL) then a.getU8 else r.ttl := by
    intro r a
    unfold hcfParseField
    by_cases h1 : a.type = LFW_NLA_HCF_HISTORY_IP
    · rw [if_pos h1, h1]
      split <;> rfl
    · rw [if_neg h1]
      by_cases h2 : a.type = LFW_NLA_HCF_HISTORY_TTL
      · simp [h2]
      · simp only [h2, if_false, decide_false]
        split <;> rfl
  have hhc : ∀ (r : HcfHistoryEntry) (a : NlAttr), (hcfParseField e r a).hc =
      if decide (a.type = LFW_NLA_HCF_HISTORY_HC) then a.getU8 else r.hc := by
    intro r a
    unfold hcfParseField
    by_cases h1 : a.type = LFW_NLA_HCF_HISTORY_IP
    · rw [if_pos h1, h1]
      split <;> rfl
    · rw [if_neg h1]
      by_cases h2 : a.type = LFW_NLA_HCF_HISTORY_TTL
      · rw [if_pos h2, h2]
        rfl
      · rw [if_neg h2]
        by_cases h3 : a.type = LFW_NLA_HCF_HISTORY_HC <;> simp [h3]
  have e1 := foldl_lastWrite hip (pos.nested e) ⟨0, 0, 0⟩
  have e2 := foldl_lastWrite httl (pos.nested e) ⟨0, 0, 0⟩
  have e3 := foldl_lastWrite hhc (pos.nested e) ⟨0, 0, 0⟩
  exact HcfHistoryEntry.ext e1 e2 e3

/-- Parsing a complete entry yields what it carries. -/
theorem hcfParseEntry_eq {e : Endian} {pos : NlAttr} {x : HcfHistoryEntry}
    (h : hcfCarried e pos = some x) : hcfParseEntry e pos = x := by
  simp only [hcfCarried, Option.bind_eq_bind, Option.bind_eq_some_iff] at h
  obtain ⟨ip, hip, ttl, httl, hc, hhc, hx⟩ := h
  obtain rfl := Option.some.inj hx
  rw [hcfParseEntry_getD, hcfAddrOf, hcfTtlOf, hcfHcOf, hip, httl, hhc]
  rfl

/-- The entries parsed from a well-formed message are those it carries. -/
theorem hcfHistoryEntries_eq {e : Endian} {info : GenlInfo} (h : HcfWellFormed e info) :
    hcfHistoryEntries e info = hcfCarriedEntries e info := by
  unfold hcfHistoryEntries hcfCarriedEntries
  unfold HcfWellFormed at h
  generalize attrsOfType LFW_NLA_HCF_HISTORY (info.all e) = l at h ⊢
  induction l with
  | nil => rfl
  | cons pos l ih =>
    obtain ⟨x, hx⟩ := Option.isSome_iff_exists.1 (h pos (List.mem_cons_self ..))
    rw [List.map_cons, List.filterMap_cons_some hx, hcfParseEntry_eq hx,
      ih fun q hq => h q (List.mem_cons_of_mem _ hq)]

/-! ## The abstraction relation -/

/-- A trie whose leaves are the map. -/
def MapsTo (u : BitTrie HcfMeta) (M : HcfMap) : Prop :=
  ∀ ip, (u.find (ipPath ip 24)).map HcfMeta.entry = M (top24 ip)

/-- The component stands for the map. -/
def HcfRefines (s : HcfState) (M : HcfMap) : Prop := ∃ t, HcfInv s t ∧ MapsTo (vals t) M

/-- Putting a leaf writes an entry, and no other. -/
theorem MapsTo.put {u : BitTrie HcfMeta} (h : MapsTo u M) (ip : U32) (leaf : HcfMeta) :
    MapsTo (BitTrie.put HcfMeta.zero (fun _ => leaf) (ipPath ip 24) u) (M.write ip leaf.entry) := by
  intro ip'
  unfold HcfMap.write
  by_cases hkey : ipPath ip' 24 = ipPath ip 24
  · rw [hkey, BitTrie.find_put_self, top24_eq_iff.2 hkey, Function.update_self]
    rfl
  · have hlen : (ipPath ip' 24).length = (ipPath ip 24).length := by
      rw [length_ipPath, length_ipPath]
    rw [BitTrie.find_put_of_ne hlen hkey, Function.update_of_ne (mt top24_eq_iff.1 hkey)]
    exact h ip'

/-- Building a history restores it. -/
theorem MapsTo.built {u : BitTrie HcfMeta} (h : MapsTo u M) (entries : List HcfHistoryEntry) :
    MapsTo (hcfBuilt u entries)
      (entries.foldl (fun M x => M.write x.ip_addr ⟨x.hc.toNat, x.ttl⟩) M) := by
  induction entries generalizing u M with
  | nil => exact h
  | cons x entries ih => exact ih (h.put x.ip_addr ⟨x.hc, x.ttl⟩)

theorem mapsTo_blank (a : Addr) : MapsTo (vals (hcfBlank a)) HcfMap.empty := by
  intro ip
  rw [find_hcfBlank]
  rfl

theorem hcfInitState_refines (A : Supply) :
    ∃ s, hcfInitState A.toAllocator = .ok s ∧ HcfRefines s HcfMap.empty := by
  obtain ⟨a, s, hinit, hinv⟩ := hcfInitState_spec A
  exact ⟨s, hinit, hcfBlank a, hinv, mapsTo_blank a⟩

/-- **A lookup in the tree is a lookup in the map.** -/
theorem HcfRefines.lookup (h : HcfRefines s M) (source_ip : U32) (ttl : U8) :
    hcfLookupTree s.tree s.mem source_ip ttl = .ok (M.lookup source_ip ttl) := by
  obtain ⟨t, hinv, hmap⟩ := h
  rw [← hinv.root_eq, hcfLookupTree_spec hinv.stored, hcfVerdict, hcfAnswer_eq, hmap]
  rfl

/-- The leaf at an address's path, read from memory. -/
theorem HcfInv.leaf (h : HcfInv s t) (ip : U32) :
    hcfLeaf s ip = .ok ((vals t).find (ipPath ip 24)) := by
  obtain ⟨a, hroot⟩ := Option.ne_none_iff_exists'.1 (mt root_eq_none.1 h.ne_nil)
  have hwalk := walk_spec h.stored h.ne_nil (ipPath ip 24)
  rw [hroot, ← hcfDescend_24] at hwalk
  unfold hcfLeaf
  rw [← h.root_eq, hroot]
  simp only [hwalk, ok_bind]
  cases hr : root (t.descend (ipPath ip 24)) with
  | none =>
    rw [find_eq_none_of_descend hr]
    rfl
  | some c =>
    obtain ⟨n, hn, hfind⟩ := h.stored.data_of_descend hr
    simp only [hfind, Mem.load_of_lookup hn, ok_bind, pure_eq_ok]

theorem HcfRefines.leaf (h : HcfRefines s M) (ip : U32) :
    ∃ x, hcfLeaf s ip = .ok x ∧ x.map HcfMeta.entry = M (top24 ip) := by
  obtain ⟨t, hinv, hmap⟩ := h
  exact ⟨_, hinv.leaf ip, hmap ip⟩

/-! ## Steps and runs -/

/-- What an event does to the map. -/
def hcfMapStep (e : Endian) (M : HcfMap) : HcfOp → HcfMap
  | .work _ task => M.register task
  | .history _ info => HcfMap.restore (hcfCarriedEntries e info)
  | .callback _ => M

/-- The events of well-behaved clients: their histories are well formed. -/
def HcfOp.WellFormed (e : Endian) : HcfOp → Prop
  | .history _ info => HcfWellFormed e info
  | _ => True

/-- A register work writes its entry, and announces it if the prefix is new. -/
theorem HcfRefines.work (A : Supply) (task : HcfAddNodeTask) (h : HcfRefines s M) :
    ∃ s', hcfRegisterIpWork A.toAllocator task s =
        .ok (if (M (top24 task.source_ip)).isSome then none
          else some ⟨task.source_ip, task.ttl, (hcfMetaOf task.ttl).hc⟩, s') ∧
      HcfRefines s' (M.register task) := by
  obtain ⟨t, hinv, hmap⟩ := h
  obtain ⟨s', t', hrun, hinv', hvals⟩ := hcfRegisterIpWork_spec A task hinv
  have hsome : (M (top24 task.source_ip)).isSome =
      ((vals t).find (ipPath task.source_ip 24)).isSome := by
    rw [← hmap, Option.isSome_map]
  refine ⟨s', ?_, t', hinv', ?_⟩
  · rw [hrun, hsome]
    rfl
  · rw [hvals, HcfMap.register, ← hcfMetaOf_entry]
    exact hmap.put task.source_ip (hcfMetaOf task.ttl)

/-- A history of any shape replaces the tree by its entries as they are parsed. -/
theorem HcfInv.history (e : Endian) (A : Supply) (info : GenlInfo) (h : HcfInv s t) :
    ∃ s', hcfRegisterIpHistory e A.toAllocator info s = .ok (0, s') ∧
      HcfRefines s' (HcfMap.restore (hcfHistoryEntries e info)) := by
  obtain ⟨s', t', a, hrun, hinv', hvals⟩ := hcfRegisterIpHistory_spec e A info h
  refine ⟨s', hrun, t', hinv', ?_⟩
  rw [hvals]
  exact (mapsTo_blank a).built _

/-- A history replaces the map. -/
theorem HcfRefines.history (e : Endian) (A : Supply) {info : GenlInfo} (hwf : HcfWellFormed e info)
    (h : HcfRefines s M) :
    ∃ s', hcfRegisterIpHistory e A.toAllocator info s = .ok (0, s') ∧
      HcfRefines s' (HcfMap.restore (hcfCarriedEntries e info)) := by
  obtain ⟨t, hinv, -⟩ := h
  rw [← hcfHistoryEntries_eq hwf]
  exact hinv.history e A info

/-- **Every event is a step of the map.** -/
theorem hcfStep_refines (e : Endian) (op : HcfOp) (h : HcfRefines s M) (hwf : op.WellFormed e) :
    ∃ s', hcfStep e s op = .ok s' ∧ HcfRefines s' (hcfMapStep e M op) := by
  cases op with
  | work A task =>
    obtain ⟨s', hrun, hs'⟩ := h.work A task
    refine ⟨s', ?_, hs'⟩
    simp only [hcfStep, hrun, ok_bind, pure_eq_ok]
  | history A info =>
    obtain ⟨s', hrun, hs'⟩ := h.history e A hwf
    refine ⟨s', ?_, hs'⟩
    simp only [hcfStep, hrun, ok_bind, pure_eq_ok]
  | callback i =>
    obtain ⟨t, hinv, hmap⟩ := h
    obtain ⟨s', hrun, hinv'⟩ := hcfFreeNodeRcu_spec i hinv
    exact ⟨s', hrun, t, hinv', hmap⟩

/-- **Every run from initialisation is a run of the map.** -/
theorem hcfRun_refines (e : Endian) (A : Supply) {ops : List HcfOp}
    (hwf : ∀ op ∈ ops, op.WellFormed e) :
    ∃ s₀ s, hcfInitState A.toAllocator = .ok s₀ ∧ run (hcfStep e) s₀ ops = .ok s ∧
      HcfRefines s (ops.foldl (hcfMapStep e) HcfMap.empty) := by
  obtain ⟨s₀, hinit, hs₀⟩ := hcfInitState_refines A
  have hstep : ∀ s M op, HcfRefines s M → HcfOp.WellFormed e op →
      ∃ s', hcfStep e s op = .ok s' ∧ HcfRefines s' (hcfMapStep e M op) :=
    fun _ _ op h hop => hcfStep_refines e op h hop
  obtain ⟨s, hrun, hs⟩ := run_simulation hstep hs₀ hwf
  exact ⟨s₀, s, hinit, hrun, hs⟩

/-- Every state a run reaches stands for a map, whatever its histories carry. -/
theorem hcfRun_maps {e : Endian} {A : Supply} {ops : List HcfOp} {s₀ : HcfState}
    (hinit : hcfInitState A.toAllocator = .ok s₀) (hrun : run (hcfStep e) s₀ ops = .ok s) :
    ∃ M, HcfRefines s M := by
  obtain ⟨s₁, hinit₁, hs₁⟩ := hcfInitState_refines A
  obtain rfl := Except.ok.inj (hinit₁.symm.trans hinit)
  refine @run_keeps _ _ _ _ _ _ (fun s => ∃ M, HcfRefines s M) ?_ ⟨_, hs₁⟩ hrun
  rintro s op s' ⟨M, h⟩ hstep
  cases op with
  | work A task =>
    obtain ⟨s₂, hwork, h'⟩ := h.work A task
    simp only [hcfStep, hwork, ok_bind, pure_eq_ok, Except.ok.injEq] at hstep
    exact ⟨_, hstep ▸ h'⟩
  | history A info =>
    obtain ⟨t, hinv, -⟩ := h
    obtain ⟨s₂, hhist, h'⟩ := hinv.history e A info
    simp only [hcfStep, hhist, ok_bind, pure_eq_ok, Except.ok.injEq] at hstep
    exact ⟨_, hstep ▸ h'⟩
  | callback i =>
    obtain ⟨t, hinv, hmap⟩ := h
    obtain ⟨s₂, hfree, h'⟩ := hcfFreeNodeRcu_spec i hinv
    obtain rfl := Except.ok.inj (hfree.symm.trans hstep)
    exact ⟨M, t, h', hmap⟩

/-- And keeps the invariant. -/
theorem hcfRun_inv {e : Endian} {A : Supply} {ops : List HcfOp} {s₀ : HcfState}
    (hinit : hcfInitState A.toAllocator = .ok s₀) (hrun : run (hcfStep e) s₀ ops = .ok s) :
    ∃ t, HcfInv s t := by
  obtain ⟨M, t, h, -⟩ := hcfRun_maps hinit hrun
  exact ⟨t, h⟩

/-- **The hop-count tree is a map of 24-bit prefixes.** In every state a run
of works, well-formed histories and callbacks reaches, one more work puts its
own entry at its prefix, with the hop count in full, and leaves the leaf of
every other prefix as it was; and a lookup answers `-1` exactly for a prefix
that is not mapped, else whether the hop counts are within two. -/
theorem hcfTree_refines_map (e : Endian) (A₀ : Supply) (ops : List HcfOp)
    (hwf : ∀ op ∈ ops, op.WellFormed e) :
    ∃ s₀ s, hcfInitState A₀.toAllocator = .ok s₀ ∧ run (hcfStep e) s₀ ops = .ok s ∧
      (∀ (A : Supply) (task : HcfAddNodeTask), ∃ announced s' leaf,
        hcfRegisterIpWork A.toAllocator task s = .ok (announced, s') ∧
        hcfLeaf s' task.source_ip = .ok (some leaf) ∧ leaf.ttl = task.ttl ∧
        (leaf.hc.toNat : ℤ) = hcfGetInitialTtl task.ttl - task.ttl.toNat ∧
        ∀ ip : U32, ip >>> 8 ≠ task.source_ip >>> 8 → hcfLeaf s' ip = hcfLeaf s ip) ∧
      ∃ M, M = ops.foldl (hcfMapStep e) HcfMap.empty ∧
        ∀ source_ip ttl,
          (M (top24 source_ip) = none ↔
            hcfLookupTree s.tree s.mem source_ip ttl = .ok (-1)) ∧
          ∀ x, M (top24 source_ip) = some x →
            hcfLookupTree s.tree s.mem source_ip ttl =
              .ok (if ((hcfGetInitialTtl ttl - ttl.toNat) - x.hc).natAbs ≤ 2 then 1 else 0) := by
  obtain ⟨s₀, s, hinit, hrun, href⟩ := hcfRun_refines e A₀ hwf
  refine ⟨s₀, s, hinit, hrun, fun A task => ?_, _, rfl, fun source_ip ttl => ⟨?_, ?_⟩⟩
  · obtain ⟨t, hinv, -⟩ := href
    obtain ⟨s', t', hwork, hinv', hvals⟩ := hcfRegisterIpWork_spec A task hinv
    refine ⟨_, s', hcfMetaOf task.ttl, hwork, ?_, rfl, hcfMetaOf_hc task.ttl, fun ip hne => ?_⟩
    · rw [hinv'.leaf, hvals, BitTrie.find_put_self]
    · have hkey : ipPath ip 24 ≠ ipPath task.source_ip 24 := mt ipPath_24.1 hne
      have hlen : (ipPath ip 24).length = (ipPath task.source_ip 24).length := by
        rw [length_ipPath, length_ipPath]
      rw [hinv'.leaf, hinv.leaf, hvals, BitTrie.find_put_of_ne hlen hkey]
  · rw [href.lookup, HcfMap.lookup]
    constructor
    · intro hnone
      rw [hnone]
      rfl
    · intro hans
      cases hM : ops.foldl (hcfMapStep e) HcfMap.empty (top24 source_ip) with
      | none => rfl
      | some x =>
        rw [hM] at hans
        simp only [HcfMap.answer, Except.ok.injEq] at hans
        split at hans <;> omega
  · intro x hx
    rw [href.lookup, HcfMap.lookup, hx]
    rfl

/-- A history message of one entry: `1.2.3.4`, six hops away. -/
def hcfSampleHistory : GenlInfo :=
  let entry := streamBytes .little
    [⟨LFW_NLA_HCF_HISTORY_IP, [4, 3, 2, 1]⟩, ⟨LFW_NLA_HCF_HISTORY_TTL, [58]⟩,
      ⟨LFW_NLA_HCF_HISTORY_HC, [6]⟩]
  let attrs := attrBytes .little ⟨NLA_F_NESTED + LFW_NLA_HCF_HISTORY, entry⟩
  ⟨attrs, attrs.length⟩

example : hcfCarriedEntries .little hcfSampleHistory = [⟨0x01020304#32, 58, 6⟩] := by decide +kernel

/-- Two works around a replacement, and a callback. -/
def hcfSampleOps : List HcfOp :=
  [.work .next ⟨0x0A000001#32, 64⟩, .history .next hcfSampleHistory,
    .work .next ⟨0x01020399#32, 50⟩, .callback 3]

theorem hcfSampleOps_wellFormed : ∀ op ∈ hcfSampleOps, op.WellFormed .little := by
  have h : HcfWellFormed .little hcfSampleHistory := by decide +kernel
  intro op hop
  simp only [hcfSampleOps, List.mem_cons, List.not_mem_nil, or_false] at hop
  rcases hop with rfl | rfl | rfl | rfl
  · trivial
  · exact h
  · trivial
  · trivial

theorem hcfTree_refines_map_sample :
    ∃ s₀ s, hcfInitState Supply.next.toAllocator = .ok s₀ ∧
      run (hcfStep .little) s₀ hcfSampleOps = .ok s ∧
      hcfLookupTree s.tree s.mem 0x01020304#32 51 = .ok 1 := by
  obtain ⟨s₀, s, hinit, hrun, -, M, hM, hlookup⟩ :=
    hcfTree_refines_map .little .next hcfSampleOps hcfSampleOps_wellFormed
  refine ⟨s₀, s, hinit, hrun, ?_⟩
  have hx : M (top24 0x01020304#32) = some ⟨14, 50⟩ := by
    rw [hM]
    decide +kernel
  rw [(hlookup 0x01020304#32 51).2 _ hx]
  decide +kernel

end Librefw
