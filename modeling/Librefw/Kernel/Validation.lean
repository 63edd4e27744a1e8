import Librefw.Kernel.Model.Validation

/-!
# Validation and what the handlers read

The tables and the handlers fit: whatever passes, each read of a handler
stays inside the payload of an attribute that is present. What does not
fit is the family's `maxattr`, the highest attribute of the one enum for
all levels: the family's own table ends before it, and validation indexes
behind the table for an attribute of the types in between
(`lfwNlValidation_covers_iff`).
-/

namespace Librefw

variable {e : Endian} {info : GenlInfo} {a b pos : NlAttr} {beyond : NlAttr → Bool}
variable {α : Type} {pol : List (ℕ × α)}

/-! ## The tables -/

/-- An entry that is listed is in the table. -/
theorem lt_tableSize_of_lookup {t : ℕ} {p : α} (h : pol.lookup t = some p) : t < tableSize pol := by
  induction pol with
  | nil => cases h
  | cons entry pol ih =>
    obtain ⟨i, q⟩ := entry
    have hmax : tableSize ((i, q) :: pol) = max (i + 1) (tableSize pol) := rfl
    rw [List.lookup_cons] at h
    by_cases hi : t = i
    · omega
    · have hbeq : (t == i) = false := by simpa using hi
      rw [hbeq] at h
      have := ih h
      omega

/-- A nested table is consulted up to its last index. -/
theorem nlaConsultsNested_inside {pol : List (ℕ × NlaScalar)} {c : PolicyConsult}
    (h : c ∈ nlaConsultsNested e pol a) : c.Inside := by
  obtain ⟨b, hb, rfl⟩ := List.mem_map.1 h
  have htype := of_decide_eq_true (List.mem_filter.1 hb).2
  show b.type < tableSize pol
  omega

/-- **One attribute** is validated inside the tables if it has an entry, or no business
with the table. -/
theorem nlaConsults_inside_iff {maxattr : ℕ} {pol : List (ℕ × NlaPolicy)} :
    (∀ c ∈ nlaConsults e maxattr pol a, c.Inside) ↔
      ¬ (1 ≤ a.type ∧ tableSize pol ≤ a.type ∧ a.type ≤ maxattr) := by
  unfold nlaConsults
  by_cases htype : 1 ≤ a.type ∧ a.type ≤ maxattr
  · rw [if_pos htype]
    constructor
    · intro hall
      have hself : a.type < tableSize pol := hall _ (List.mem_cons_self ..)
      omega
    · intro hsize c hc
      rcases List.mem_cons.1 hc with rfl | hc
      · show a.type < tableSize pol
        omega
      · -- what a container consults is in its own table
        cases hp : pol.lookup a.type with
        | none =>
          rw [hp] at hc
          cases hc
        | some p =>
          rw [hp] at hc
          cases p with
          | scalar p => cases hc
          | nested nested_policy => exact nlaConsultsNested_inside hc
  · rw [if_neg htype]
    refine iff_of_true (fun c hc => by cases hc) ?_
    omega

theorem tableSize_lfwPol : tableSize lfwPol = LFW_NLA_PKT_FILTER_LOG + 1 := by decide

/-! ## What passes -/

/-- An attribute that passes passes its entry, if it has one. -/
theorem admits_of_validates {p : NlaPolicy} (h : lfwNlValidates e beyond info = true)
    (ha : a ∈ info.all e) (hp : lfwPol.lookup a.type = some p) : p.admits e a = true := by
  have hone := List.all_eq_true.1 h a ha
  have hlt := lt_tableSize_of_lookup hp
  rw [if_neg (by omega), hp] at hone
  exact hone

/-- So does what is in a container. -/
theorem nested_admits_of_validates {nested_policy : List (ℕ × NlaScalar)}
    (h : lfwNlValidates e beyond info = true) (ha : a ∈ info.all e)
    (hp : lfwPol.lookup a.type = some (.nested nested_policy)) (hb : b ∈ a.nested e) :
    ∃ q, nested_policy.lookup b.type = some q ∧ q.admits b = true := by
  have hnested := admits_of_validates h ha hp
  rw [NlaPolicy.admits, Bool.and_eq_true] at hnested
  exact (Option.any_eq_true _ _).1 (List.all_eq_true.1 hnested.2 b hb)

/-! ## The reads -/

theorem mem_of_mem_attrsOfType {type : ℕ} {attrs : List NlAttr} (h : a ∈ attrsOfType type attrs) :
    a ∈ attrs ∧ a.type = type :=
  ⟨List.mem_of_mem_filter h, of_decide_eq_true (List.mem_filter.1 h).2⟩

theorem mem_of_attrs {type : ℕ} (h : info.attrs e type = some a) :
    a ∈ info.all e ∧ a.type = type :=
  mem_of_mem_attrsOfType (List.mem_of_getLast? h)

/-- The slot of a container is what its reads write. -/
theorem lfwSlot_gets (e : Endian) (pos : NlAttr) (p : LfwIpPrefix) :
    (pos.nested e).foldl (lfwParseField e) p =
      ((lfwPrefixGets e pos).map NlaGet.attr).foldl (lfwParseField e) p := by
  unfold lfwPrefixGets
  induction pos.nested e generalizing p with
  | nil => rfl
  | cons b l ih =>
    rw [List.foldl_cons, ih, List.flatMap_cons, List.map_append, List.foldl_append]
    congr 1
    unfold lfwParseField
    split
    · next h => simp [h]
    · split
      · next h => simp [h, LFW_NLA_N_IP_PREFIX_LEN, LFW_NLA_N_IP_ADDR]
      · rfl

/-- The entry of a container is what its reads write. -/
theorem hcfParseEntry_gets (e : Endian) (pos : NlAttr) :
    hcfParseEntry e pos =
      ((hcfEntryGets e pos).map NlaGet.attr).foldl (hcfParseField e) ⟨0, 0, 0⟩ := by
  unfold hcfParseEntry hcfEntryGets
  generalize (⟨0, 0, 0⟩ : HcfHistoryEntry) = entry
  induction pos.nested e generalizing entry with
  | nil => rfl
  | cons b l ih =>
    rw [List.foldl_cons, ih, List.flatMap_cons, List.map_append, List.foldl_append]
    congr 1
    unfold hcfParseField
    split
    · next h =>
      split
      · next hlen => simp [h, hlen]
      · rfl
    · split
      · next h => simp [h, LFW_NLA_HCF_HISTORY_TTL, LFW_NLA_HCF_HISTORY_IP]
      · split
        · next h =>
          simp [h, LFW_NLA_HCF_HISTORY_HC, LFW_NLA_HCF_HISTORY_TTL, LFW_NLA_HCF_HISTORY_IP]
        · rfl

theorem lfwPrefixGets_inside {g : NlaGet} (h : lfwNlValidates e beyond info = true)
    (hpos : pos ∈ info.all e) (htype : pos.type = LFW_NLA_IP_PREFIX)
    (hg : g ∈ lfwPrefixGets e pos) : g.Inside e info := by
  obtain ⟨b, hb, hg⟩ := List.mem_flatMap.1 hg
  have hpresent : LfwPresent e info b := Or.inr ⟨pos, hpos, hb⟩
  obtain ⟨q, hq, hadm⟩ := nested_admits_of_validates h hpos (by rw [htype]; rfl) hb
  split at hg
  · next hb =>
    obtain rfl := List.mem_singleton.1 hg
    rw [hb] at hq
    obtain rfl : NlaScalar.u32 = q := Option.some.inj hq
    exact ⟨hpresent, (of_decide_eq_true hadm).ge⟩
  · split at hg
    · next hb =>
      obtain rfl := List.mem_singleton.1 hg
      rw [hb] at hq
      obtain rfl : NlaScalar.u8 = q := Option.some.inj hq
      exact ⟨hpresent, (of_decide_eq_true hadm).ge⟩
    · cases hg

theorem hcfEntryGets_inside {g : NlaGet} (h : lfwNlValidates e beyond info = true)
    (hpos : pos ∈ info.all e) (htype : pos.type = LFW_NLA_HCF_HISTORY)
    (hg : g ∈ hcfEntryGets e pos) : g.Inside e info := by
  obtain ⟨b, hb, hg⟩ := List.mem_flatMap.1 hg
  have hpresent : LfwPresent e info b := Or.inr ⟨pos, hpos, hb⟩
  obtain ⟨q, hq, hadm⟩ := nested_admits_of_validates h hpos (by rw [htype]; rfl) hb
  split at hg
  · -- the table admits shorter addresses, and the handler looks at the length
    split at hg
    · next hlen =>
      obtain rfl := List.mem_singleton.1 hg
      exact ⟨hpresent, hlen.ge⟩
    · cases hg
  · split at hg
    · next hb =>
      obtain rfl := List.mem_singleton.1 hg
      rw [hb] at hq
      obtain rfl : NlaScalar.u8 = q := Option.some.inj hq
      exact ⟨hpresent, (of_decide_eq_true hadm).ge⟩
    · split at hg
      · next hb =>
        obtain rfl := List.mem_singleton.1 hg
        rw [hb] at hq
        obtain rfl : NlaScalar.u8 = q := Option.some.inj hq
        exact ⟨hpresent, (of_decide_eq_true hadm).ge⟩
      · cases hg

/-- **Every read of a handler** stays inside what passed. -/
theorem lfwNlOps_inside {cmd : ℕ} {gets : Endian → Bool → GenlInfo → List NlaGet}
    (hop : (cmd, gets) ∈ lfwNlOps) (h : lfwNlValidates e beyond info = true) {allocated : Bool}
    {g : NlaGet} (hg : g ∈ gets e allocated info) : g.Inside e info := by
  simp only [lfwNlOps, List.mem_cons, Prod.mk.injEq, List.not_mem_nil, or_false] at hop
  rcases hop with ⟨-, rfl⟩ | ⟨-, rfl⟩ | ⟨-, rfl⟩
  · rcases List.mem_append.1 hg with hcount | hprefix
    · obtain ⟨a, ha, rfl⟩ := List.mem_map.1 hcount
      obtain ⟨hmem, htype⟩ := mem_of_attrs (Option.mem_toList.1 ha)
      have hadm := admits_of_validates h hmem (p := .scalar .u32) (by rw [htype]; rfl)
      exact ⟨Or.inl hmem, (of_decide_eq_true hadm).ge⟩
    · split at hprefix
      · cases hprefix
      · obtain ⟨pos, hpos, hg⟩ := List.mem_flatMap.1 hprefix
        obtain ⟨hmem, htype⟩ := mem_of_mem_attrsOfType hpos
        exact lfwPrefixGets_inside h hmem htype hg
  · obtain ⟨a, ha, rfl⟩ := List.mem_map.1 hg
    exact ⟨Or.inl (mem_of_attrs (Option.mem_toList.1 ha)).1, Nat.zero_le _⟩
  · unfold hcfRegisterIpHistoryGets at hg
    split at hg
    · cases hg
    · obtain ⟨pos, hpos, hg⟩ := List.mem_flatMap.1 hg
      obtain ⟨hmem, htype⟩ := mem_of_mem_attrsOfType hpos
      exact hcfEntryGets_inside h hmem htype hg

/-! ## The law -/

/-- Validation stays inside its tables, and what passes covers what is read. -/
def LfwNlValidationCovers (e : Endian) (info : GenlInfo) : Prop :=
  (∀ c ∈ lfwNlConsults e info, c.Inside) ∧
    ∀ beyond cmd gets allocated, (cmd, gets) ∈ lfwNlOps → lfwNlValidates e beyond info = true →
      ∀ g ∈ gets e allocated info, g.Inside e info

/-- **Where validation covers what is read.** Exactly on the messages without a top-level
attribute of a type above the table's last and up to `maxattr`: the types of the fields of a
logged packet. -/
theorem lfwNlValidation_covers_iff (e : Endian) (info : GenlInfo) :
    LfwNlValidationCovers e info ↔
      ∀ a ∈ info.all e, ¬ (LFW_NLA_PKT_FILTER_LOG < a.type ∧ a.type ≤ LFW_NLA_MAX) := by
  have hconsults : (∀ c ∈ lfwNlConsults e info, c.Inside) ↔
      ∀ a ∈ info.all e, ∀ c ∈ nlaConsults e LFW_NLA_MAX lfwPol a, c.Inside := by
    unfold lfwNlConsults
    simp only [List.mem_flatMap, forall_exists_index, and_imp]
    exact forall_comm.trans (forall_congr' fun a => forall_comm)
  constructor
  · rintro ⟨hin, -⟩ a ha
    have hone := nlaConsults_inside_iff.1 (hconsults.1 hin a ha)
    rw [tableSize_lfwPol] at hone
    omega
  · intro hnot
    refine ⟨hconsults.2 fun a ha => nlaConsults_inside_iff.2 ?_, ?_⟩
    · have hone := hnot a ha
      rw [tableSize_lfwPol]
      omega
    · intro beyond cmd gets allocated hop h g hg
      exact lfwNlOps_inside hop h hg

/-- A request with one attribute, the action of a logged packet at top level. -/
def lfwActionInfo : GenlInfo := ⟨attrBytes .little ⟨LFW_NLA_PKT_FILTER_LOG_ACTION, [0]⟩, 8⟩

theorem lfwNlValidation_action : ¬ LfwNlValidationCovers .little lfwActionInfo := by
  rintro ⟨hin, -⟩
  have hout : (24 : ℕ) < 17 := hin ⟨17, 24⟩ (by decide)
  omega

end Librefw
