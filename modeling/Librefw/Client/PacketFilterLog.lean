import Librefw.Client.Model.PacketFilterLog
import Librefw.Log.PacketFilter
import Mathlib.Tactic.FinCases

/-!
# What the client makes of a packet log

The decoder walks the payload from its generic netlink header on, where the
attributes begin four bytes later. It takes the header for an attribute, 262
or 1537 bytes long, and goes on in the middle of a container. From there it
may meet heads of containers among the data, but no container holds two of
them that both lead to an event the kernel logs (`count_le`), and the first
three are lost, so it never prints as many events as were sent
(`waitForMessagesCallback_ne`). Started at the attributes it would print
them all (`pktFilterEvents_genlAttrs`).
-/

namespace Librefw

open MsgBuf

variable {e : Endian} {boot_ns : U64}

/-! ## The decoder at the attributes -/

/-- An event as it should be printed: its time shifted. -/
def shownEvent (boot_ns : U64) (x : U64 × PktFilterEvent) : PacketFilterEvent :=
  ⟨x.1 + boot_ns, x.2.source_ip, x.2.dest_ip, x.2.source_port, x.2.dest_port, x.2.protocol, x.2.ttl,
    x.2.action⟩

/-- A container is decoded into its event. -/
theorem pktFilterDecode_seen (x : U64 × PktFilterEvent) (rest : List U8) :
    pktFilterDecode e boot_ns (seen (pktEntry e x) rest) = shownEvent boot_ns x := by
  have hts : ∀ event v rest, pktFilterField e boot_ns event
      (seen ⟨LFW_NLA_PKT_FILTER_LOG_TS, e.ofWord (w := 8) v⟩ rest) =
        { event with ts := v + boot_ns } := fun event v rest =>
    congrArg (fun v => { event with ts := v + boot_ns }) (getU64_seen e _ v rest)
  have hsrc : ∀ event v rest, pktFilterField e boot_ns event
      (seen ⟨LFW_NLA_PKT_FILTER_LOG_SRC_IP, e.ofWord (w := 4) v⟩ rest) =
        { event with source_ip := v } := fun event v rest =>
    congrArg (fun v => { event with source_ip := v }) (getU32_seen e _ v rest)
  have hdest : ∀ event v rest, pktFilterField e boot_ns event
      (seen ⟨LFW_NLA_PKT_FILTER_LOG_DEST_IP, e.ofWord (w := 4) v⟩ rest) =
        { event with dest_ip := v } := fun event v rest =>
    congrArg (fun v => { event with dest_ip := v }) (getU32_seen e _ v rest)
  have hsport : ∀ event v rest, pktFilterField e boot_ns event
      (seen ⟨LFW_NLA_PKT_FILTER_LOG_SRC_PORT, e.ofWord (w := 2) v⟩ rest) =
        { event with source_port := v } := fun event v rest =>
    congrArg (fun v => { event with source_port := v }) (getU16_seen e _ v rest)
  have hdport : ∀ event v rest, pktFilterField e boot_ns event
      (seen ⟨LFW_NLA_PKT_FILTER_LOG_DEST_PORT, e.ofWord (w := 2) v⟩ rest) =
        { event with dest_port := v } := fun event v rest =>
    congrArg (fun v => { event with dest_port := v }) (getU16_seen e _ v rest)
  have hproto : ∀ event v rest, pktFilterField e boot_ns event
      (seen ⟨LFW_NLA_PKT_FILTER_LOG_PROTO, [v]⟩ rest) = { event with proto := v } :=
    fun _ _ _ => rfl
  have httl : ∀ event v rest, pktFilterField e boot_ns event
      (seen ⟨LFW_NLA_PKT_FILTER_LOG_TTL, [v]⟩ rest) = { event with ttl := v } :=
    fun _ _ _ => rfl
  have haction : ∀ event v rest, pktFilterField e boot_ns event
      (seen ⟨LFW_NLA_PKT_FILTER_LOG_ACTION, [v]⟩ rest) = { event with action := v } :=
    fun _ _ _ => rfl
  -- the fields are written one after another, each over a field still zero
  unfold pktFilterDecode pktEntry
  rw [nested_container e (pktFilterFields_fit e x.1 x.2)]
  simp only [pktFilterFields, seenAll, List.foldl_cons, List.foldl_nil, hts, hsrc, hdest, hsport,
    hdport, hproto, httl, haction]
  rfl

theorem pktEntry_fits (x : U64 × PktFilterEvent) : (pktEntry e x).Fits := by
  have hsize := size_pktEntry (e := e) x
  refine container_fits (by decide) ?_
  change (pktEntry e x).size < 2 ^ 16
  omega

theorem pktEntry_type (x : U64 × PktFilterEvent) :
    (pktEntry e x).type % 2 ^ 14 = LFW_NLA_PKT_FILTER_LOG :=
  container_type (by decide) _

/-- **Started at the attributes**, as the other listeners are, the decoder prints
every event in order. -/
theorem pktFilterEvents_genlAttrs (xs : List (U64 × PktFilterEvent)) (room cmd : ℕ)
    (rest : List U8) :
    pktFilterEvents e boot_ns ((genlAttrs ((genlmsgPut room cmd).bytes ++
      streamBytes e (xs.map (pktEntry e))) rest).all e) = xs.map (shownEvent boot_ns) := by
  have hfits : ∀ f ∈ xs.map (pktEntry e), f.Fits := by
    intro f hf
    obtain ⟨x, -, rfl⟩ := List.mem_map.1 hf
    exact pktEntry_fits x
  have htype : ∀ f ∈ xs.map (pktEntry e), f.type % 2 ^ 14 = LFW_NLA_PKT_FILTER_LOG := by
    intro f hf
    obtain ⟨x, -, rfl⟩ := List.mem_map.1 hf
    exact pktEntry_type x
  rw [all_genlAttrs hfits, pktFilterEvents, attrsOfType_seenAll_of_all htype]
  exact map_seenAll (fun x _ rest => pktFilterDecode_seen x rest) rest

/-! ## The words a lost reader meets -/

variable {x : U64 × PktFilterEvent} {i : ℕ} {w : List U8}

theorem word_attrHead {len type : ℕ} (h : len < 2 ^ 16) :
    (e.word 2 (attrHead e len type)).toNat = len := toNat_word_bytes e h _

theorem word_drop_attrHead {len type : ℕ} (h : type < 2 ^ 16) :
    (e.word 2 ((attrHead e len type).drop 2)).toNat = type := by
  have hdrop : (attrHead e len type).drop 2 = e.bytes 2 type ++ [] := by
    rw [attrHead, List.drop_append_of_le_length (by simp), List.drop_of_length_le (by simp),
      List.nil_append, List.append_nil]
  rw [hdrop]
  exact toNat_word_bytes e h []

theorem word_zeros : (e.word 2 [0, 0]).toNat = 0 := by
  cases e <;> decide

/-- The types of the words of a container, where the data do not decide. -/
def pktTypes : List (Option ℕ) :=
  [some LFW_NLA_PKT_FILTER_LOG, some LFW_NLA_PKT_FILTER_LOG_TS, none, none,
    some LFW_NLA_PKT_FILTER_LOG_SRC_IP, none, some LFW_NLA_PKT_FILTER_LOG_DEST_IP, none,
    some LFW_NLA_PKT_FILTER_LOG_SRC_PORT, some 0, some LFW_NLA_PKT_FILTER_LOG_DEST_PORT, some 0,
    some LFW_NLA_PKT_FILTER_LOG_PROTO, some 0, some LFW_NLA_PKT_FILTER_LOG_TTL, some 0,
    some LFW_NLA_PKT_FILTER_LOG_ACTION, some 0]

/-- A word of a container, as the head of an attribute, is of a given type. -/
def HasType (e : Endian) (type : Option ℕ) (w : List U8) : Prop :=
  ∀ n ∈ type, (e.word 2 (w.drop 2)).toNat % 2 ^ 14 = n

theorem pktWords_hasType (e : Endian) (x : U64 × PktFilterEvent) :
    List.Forall₂ (HasType e) pktTypes (pktWords e x) := by
  have hnone : ∀ w, HasType e none w := by
    intro w n hn
    cases hn
  have hhead : ∀ len type n, type < 2 ^ 16 → type % 2 ^ 14 = n →
      HasType e (some n) (attrHead e len type) := by
    rintro len type n htype rfl m hm
    obtain rfl := Option.some.inj hm
    rw [word_drop_attrHead htype]
  have hpad : ∀ w : List U8, w.drop 2 = [0, 0] → HasType e (some 0) w := by
    intro w hw n hn
    obtain rfl := Option.some.inj hn
    rw [hw, word_zeros, Nat.zero_mod]
  have hport : ∀ v : U16, (e.ofWord (w := 2) v ++ [0, 0]).drop 2 = [0, 0] := by
    intro v
    have hlen := Endian.length_ofWord e (w := 2) v
    rw [List.drop_append, List.drop_of_length_le (by omega), hlen]
    rfl
  exact .cons (hhead _ _ _ (by decide) rfl) <| .cons (hhead _ _ _ (by decide) rfl) <|
    .cons (hnone _) <| .cons (hnone _) <| .cons (hhead _ _ _ (by decide) rfl) <| .cons (hnone _) <|
    .cons (hhead _ _ _ (by decide) rfl) <| .cons (hnone _) <|
    .cons (hhead _ _ _ (by decide) rfl) <| .cons (hpad _ (hport _)) <|
    .cons (hhead _ _ _ (by decide) rfl) <| .cons (hpad _ (hport _)) <|
    .cons (hhead _ _ _ (by decide) rfl) <| .cons (hpad _ rfl) <|
    .cons (hhead _ _ _ (by decide) rfl) <| .cons (hpad _ rfl) <|
    .cons (hhead _ _ _ (by decide) rfl) <| .cons (hpad _ rfl) .nil

theorem type_of_word {n : ℕ} (hw : (pktWords e x)[i]? = some w)
    (ht : pktTypes[i]? = some (some n)) :
    (e.word 2 (w.drop 2)).toNat % 2 ^ 14 = n := by
  obtain ⟨hlt, rfl⟩ := List.getElem?_eq_some_iff.1 hw
  obtain ⟨hlt', ht'⟩ := List.getElem?_eq_some_iff.1 ht
  have hget := (List.forall₂_iff_get.1 (pktWords_hasType e x)).2 i hlt' hlt
  rw [List.get_eq_getElem, List.get_eq_getElem, ht'] at hget
  exact hget n rfl

theorem lt_of_word (hw : (pktWords e x)[i]? = some w) : i < 18 :=
  (List.getElem?_eq_some_iff.1 hw).1

/-- Only the head of a container, the two words of the time and the two addresses
can be taken for the head of a container. -/
theorem index_of_log (hw : (pktWords e x)[i]? = some w)
    (h : (e.word 2 (w.drop 2)).toNat % 2 ^ 14 = LFW_NLA_PKT_FILTER_LOG) :
    i = 0 ∨ i = 2 ∨ i = 3 ∨ i = 5 ∨ i = 7 := by
  have htable : ∀ i < 18, ∃ t, pktTypes[i]? = some t ∧
      (t = none ∨ t = some LFW_NLA_PKT_FILTER_LOG → i = 0 ∨ i = 2 ∨ i = 3 ∨ i = 5 ∨ i = 7) := by
    decide
  obtain ⟨t, ht, hindex⟩ := htable i (lt_of_word hw)
  cases t with
  | none => exact hindex (Or.inl rfl)
  | some n =>
    have hn := type_of_word hw ht
    rw [h] at hn
    exact hindex (Or.inr (congrArg some hn.symm))

/-- Between the second word of the time and the second address, a word that can be
taken for a protocol or an action is followed by the head of an address. -/
theorem index_of_told (hw : (pktWords e x)[i]? = some w) (h3 : 3 ≤ i) (h6 : i ≤ 6)
    (h : (e.word 2 (w.drop 2)).toNat % 2 ^ 14 = LFW_NLA_PKT_FILTER_LOG_PROTO ∨
      (e.word 2 (w.drop 2)).toNat % 2 ^ 14 = LFW_NLA_PKT_FILTER_LOG_ACTION) :
    i = 3 ∨ i = 5 := by
  have h4 : i = 4 → pktTypes[i]? = some (some LFW_NLA_PKT_FILTER_LOG_SRC_IP) := by
    rintro rfl
    rfl
  have h6' : i = 6 → pktTypes[i]? = some (some LFW_NLA_PKT_FILTER_LOG_DEST_IP) := by
    rintro rfl
    rfl
  by_contra hno
  rcases (by omega : i = 4 ∨ i = 6) with hi | hi
  · rw [type_of_word hw (h4 hi)] at h
    revert h
    decide
  · rw [type_of_word hw (h6' hi)] at h
    revert h
    decide

/-- The head of an address begins with the low or the high byte of eight. -/
theorem head_of_address {type : ℕ} :
    (attrHead e 8 type).headD 0 = 0 ∨ (attrHead e 8 type).headD 0 = 8 := by
  cases e
  · exact Or.inr rfl
  · exact Or.inl rfl

/-! ## The message as a lost reader sees it -/

/-- What a message of these events begins a client's memory with. -/
def pktMemory (e : Endian) (xs : List (U64 × PktFilterEvent)) (room cmd : ℕ) (rest : List U8) :
    List U8 :=
  (genlmsgPut room cmd).bytes ++ streamBytes e (xs.map (pktEntry e)) ++ rest

variable {xs : List (U64 × PktFilterEvent)} {k : ℕ} (room cmd : ℕ) (rest : List U8)

/-- Past the generic netlink header, each word of a message is a word of a
container. -/
theorem exists_drop_pktMemory (hx : xs[k]? = some x) (hw : (pktWords e x)[i]? = some w) :
    ∃ tail, (pktMemory e xs room cmd rest).drop (4 + (72 * k + 4 * i)) = w ++ tail := by
  obtain ⟨tail, htail⟩ := exists_drop_stream (e := e) hx (lt_of_word hw) rest
  have hhead : (pktMemory e xs room cmd rest).drop 4 =
      streamBytes e (xs.map (pktEntry e)) ++ rest := by
    rw [pktMemory, List.append_assoc]
    exact List.drop_left' rfl
  obtain ⟨hlt, rfl⟩ := List.getElem?_eq_some_iff.1 hw
  rw [← List.drop_drop, hhead, htail, List.drop_eq_getElem_cons hlt, List.flatten_cons,
    List.append_assoc]
  exact ⟨_, rfl⟩

/-- The attribute a lost reader sees at a word. -/
theorem attrAt_word (hx : xs[k]? = some x) (hw : (pktWords e x)[i]? = some w) :
    (attrAt e (pktMemory e xs room cmd rest) (4 + (72 * k + 4 * i))).nla_len = (e.word 2 w).toNat ∧
      (attrAt e (pktMemory e xs room cmd rest) (4 + (72 * k + 4 * i))).nla_type =
        (e.word 2 (w.drop 2)).toNat := by
  obtain ⟨tail, htail⟩ := exists_drop_pktMemory room cmd rest hx hw
  have hlen : w.length = 4 := length_of_mem_pktWords (List.mem_of_getElem? hw)
  have htail₂ : (pktMemory e xs room cmd rest).drop (4 + (72 * k + 4 * i) + 2) =
      w.drop 2 ++ tail := by
    rw [← List.drop_drop, htail, List.drop_append_of_le_length (by omega)]
  have hlen₂ : (w.drop 2).length = 2 := by
    rw [List.length_drop]
    omega
  unfold attrAt
  simp only [htail, htail₂, Endian.word_append e (w := 2) (by omega : 2 ≤ w.length),
    Endian.word_append e (w := 2) hlen₂.ge, and_self]

/-- What it reads as a byte is the first of the next word. -/
theorem getU8_attrAt (hx : xs[k]? = some x) (hw : (pktWords e x)[i + 1]? = some w) :
    (attrAt e (pktMemory e xs room cmd rest) (4 + (72 * k + 4 * i))).getU8 = w.headD 0 := by
  obtain ⟨tail, htail⟩ := exists_drop_pktMemory room cmd rest hx hw
  have hlen : w.length = 4 := length_of_mem_pktWords (List.mem_of_getElem? hw)
  have hnext : 4 + (72 * k + 4 * i) + 4 = 4 + (72 * k + 4 * (i + 1)) := by omega
  unfold NlAttr.getU8 attrAt
  simp only [hnext, htail]
  cases w with
  | nil => simp at hlen
  | cons b w => rfl

/-! ## Events that are told apart from noise -/

/-- Values that no word read out of place yields together. What the kernel logs
is of this kind: its action is one. -/
def Told (protocol action : U8) : Prop := protocol ≠ 0 ∧ protocol ≠ 8 ∨ action ≠ 0 ∧ action ≠ 8

instance (protocol action : U8) : Decidable (Told protocol action) :=
  inferInstanceAs (Decidable (_ ∧ _ ∨ _ ∧ _))

theorem logPktFilterEvent_told (e : Endian) (iph : List U8) (skb : SkBuff) :
    Told (logPktFilterEvent e iph skb).protocol (logPktFilterEvent e iph skb).action :=
  Or.inr ⟨by simp [logPktFilterEvent], by simp [logPktFilterEvent]⟩

/-- The protocol is what a protocol attribute says. -/
theorem pktFilterField_proto (event : PacketFilterEvent) (b : NlAttr) :
    (pktFilterField e boot_ns event b).proto =
      if b.type = LFW_NLA_PKT_FILTER_LOG_PROTO then b.getU8 else event.proto := by
  by_cases hb : b.type = LFW_NLA_PKT_FILTER_LOG_PROTO
  · rw [pktFilterField, hb]
    rfl
  · rw [if_neg hb]
    unfold pktFilterField
    repeat' split
    all_goals rfl

/-- The action is what an action attribute says. -/
theorem pktFilterField_action (event : PacketFilterEvent) (b : NlAttr) :
    (pktFilterField e boot_ns event b).action =
      if b.type = LFW_NLA_PKT_FILTER_LOG_ACTION then b.getU8 else event.action := by
  by_cases hb : b.type = LFW_NLA_PKT_FILTER_LOG_ACTION
  · rw [pktFilterField, hb]
    rfl
  · rw [if_neg hb]
    unfold pktFilterField
    repeat' split
    all_goals rfl

/-- An event decoded from nothing but small values is not told. -/
theorem not_told_of_small {pos : NlAttr} (h : ∀ b ∈ pos.nested e,
    b.type = LFW_NLA_PKT_FILTER_LOG_PROTO ∨ b.type = LFW_NLA_PKT_FILTER_LOG_ACTION →
      b.getU8 = 0 ∨ b.getU8 = 8) :
    ¬ Told (pktFilterDecode e boot_ns pos).proto (pktFilterDecode e boot_ns pos).action := by
  -- both fields start at zero and only such attributes write them
  have hsmall : ∀ event : PacketFilterEvent, (event.proto = 0 ∨ event.proto = 8) →
      (event.action = 0 ∨ event.action = 8) →
      (((pos.nested e).foldl (pktFilterField e boot_ns) event).proto = 0 ∨
        ((pos.nested e).foldl (pktFilterField e boot_ns) event).proto = 8) ∧
      (((pos.nested e).foldl (pktFilterField e boot_ns) event).action = 0 ∨
        ((pos.nested e).foldl (pktFilterField e boot_ns) event).action = 8) := by
    generalize pos.nested e = l at h
    induction l with
    | nil => exact fun event hp ha => ⟨hp, ha⟩
    | cons b l ih =>
      intro event hp ha
      refine ih (fun c hc => h c (List.mem_cons_of_mem _ hc)) _ ?_ ?_
      · rw [pktFilterField_proto]
        split
        · next hb => exact h b (List.mem_cons_self ..) (Or.inl hb)
        · exact hp
      · rw [pktFilterField_action]
        split
        · next hb => exact h b (List.mem_cons_self ..) (Or.inr hb)
        · exact ha
  obtain ⟨hp, ha⟩ := hsmall .zero (Or.inl rfl) (Or.inl rfl)
  unfold pktFilterDecode
  rintro (⟨h0, h8⟩ | ⟨h0, h8⟩)
  · exact hp.elim h0 h8
  · exact ha.elim h0 h8

/-! ## Counting -/

theorem exists_word (e : Endian) (xs : List (U64 × PktFilterEvent)) {p : ℕ} (h4 : 4 ≤ p)
    (hmod : p % 4 = 0) (hlt : p < 4 + 72 * xs.length) :
    ∃ k i x w, p = 4 + (72 * k + 4 * i) ∧ k < xs.length ∧ xs[k]? = some x ∧
      (pktWords e x)[i]? = some w := by
  have hk : (p - 4) / 72 < xs.length := by omega
  have hi : (p - 4) % 72 / 4 < (pktWords e (xs[(p - 4) / 72])).length := by
    change _ < 18
    omega
  exact ⟨(p - 4) / 72, (p - 4) % 72 / 4, xs[(p - 4) / 72], _, by omega, hk,
    List.getElem?_eq_getElem hk, List.getElem?_eq_getElem hi⟩

/-- A head out of place within the first half of a container yields no event that
is told: all it can read there as a protocol or an action is the head of an
address. -/
theorem not_told_of_short {i : ℕ} (hx : xs[k]? = some x) (h2 : 2 ≤ i)
    (hshort : 4 * i + (attrAt e (pktMemory e xs room cmd rest) (4 + (72 * k + 4 * i))).nla_len ≤ 28) :
    ¬ Told (pktFilterDecode e boot_ns
        (attrAt e (pktMemory e xs room cmd rest) (4 + (72 * k + 4 * i)))).proto
      (pktFilterDecode e boot_ns
        (attrAt e (pktMemory e xs room cmd rest) (4 + (72 * k + 4 * i)))).action := by
  refine not_told_of_small fun b hb htype => ?_
  set p := 4 + (72 * k + 4 * i) with hp
  set len := (attrAt e (pktMemory e xs room cmd rest) p).nla_len with hlen
  have hnested : b ∈ nlaForEach e ((pktMemory e xs room cmd rest).drop (p + 4))
      (p + len - (p + 4)) := by
    have hsub : p + len - (p + 4) = len - 4 := by omega
    rw [hsub]
    exact hb
  -- every attribute the head contains begins at a word of the same container
  obtain ⟨q, hpq, hq4, rfl, hq⟩ := exists_attrAt (by omega) hnested
  obtain ⟨j, rfl⟩ : ∃ j, q = 4 + (72 * k + 4 * j) := ⟨(q - 4 - 72 * k) / 4, by omega⟩
  have hword : ∀ j < 18, ∃ w, (pktWords e x)[j]? = some w := fun j hj =>
    ⟨_, List.getElem?_eq_getElem (by exact hj)⟩
  obtain ⟨w, hw⟩ := hword j (by omega)
  have htype' := htype
  unfold NlAttr.type at htype'
  rw [(attrAt_word room cmd rest hx hw).2] at htype'
  rcases index_of_told hw (by omega) (by omega) htype' with rfl | rfl
  · rw [getU8_attrAt room cmd rest hx rfl]
    exact head_of_address
  · rw [getU8_attrAt room cmd rest hx rfl]
    exact head_of_address

/-- **No container is taken for two events that are told.** From an offset on, a
walk finds no more of them than there are containers that begin, or are not half
over, after it. -/
theorem count_le {p : ℕ} (h4 : 4 ≤ p) (hmod : p % 4 = 0)
    (htold : ∀ a ∈ nlaForEach e ((pktMemory e xs room cmd rest).drop p) (4 + 72 * xs.length - p),
      a.type = LFW_NLA_PKT_FILTER_LOG →
        Told (pktFilterDecode e boot_ns a).proto (pktFilterDecode e boot_ns a).action) :
    (attrsOfType LFW_NLA_PKT_FILTER_LOG (nlaForEach e ((pktMemory e xs room cmd rest).drop p)
      (4 + 72 * xs.length - p))).length ≤ xs.length - (p + 36) / 72 := by
  induction hd : 4 + 72 * xs.length - p using Nat.strong_induction_on generalizing p with
  | _ d ih =>
    subst hd
    rw [nlaForEach_drop] at htold ⊢
    split at htold
    · next hok =>
      rw [if_pos hok]
      -- the walk stands at a word of some container
      obtain ⟨k, i, x, w, hp, hk, hx, hw⟩ := exists_word e xs h4 hmod (by omega)
      have hle := le_nlaAlign (attrAt e (pktMemory e xs room cmd rest) p).nla_len
      have halign := nlaAlign_mod (attrAt e (pktMemory e xs room cmd rest) p).nla_len
      have hrest := ih _ (by omega) (by omega) (by omega)
        (fun a ha => htold a (List.mem_cons_of_mem _ ha)) rfl
      by_cases hlog : (attrAt e (pktMemory e xs room cmd rest) p).type = LFW_NLA_PKT_FILTER_LOG
      · -- it ends in the second half of its container, or later
        have hfar : 4 + 72 * k + 32 ≤
            p + nlaAlign (attrAt e (pktMemory e xs room cmd rest) p).nla_len := by
          have hlog' := hlog
          have hhead := htold _ (List.mem_cons_self ..) hlog
          subst hp
          unfold NlAttr.type at hlog'
          rw [(attrAt_word room cmd rest hx hw).2] at hlog'
          by_cases hi : i = 0
          · subst hi
            obtain rfl := Option.some.inj hw
            have h72 : (attrAt e (pktMemory e xs room cmd rest) (4 + (72 * k + 4 * 0))).nla_len = 72 :=
              (attrAt_word room cmd rest hx hw).1.trans (word_attrHead (by decide))
            omega
          · by_contra hnear
            have hindex := index_of_log hw hlog'
            exact not_told_of_short room cmd rest hx (by omega) (by omega) hhead
        have hfirst : i ≤ 7 := by
          subst hp
          unfold NlAttr.type at hlog
          rw [(attrAt_word room cmd rest hx hw).2] at hlog
          have hindex := index_of_log hw hlog
          omega
        unfold attrsOfType at hrest ⊢
        rw [List.filter_cons, if_pos (decide_eq_true hlog), List.length_cons]
        omega
      · unfold attrsOfType at hrest ⊢
        rw [List.filter_cons, if_neg (by simp [hlog])]
        omega
    · next hno =>
      rw [if_neg hno]
      simp [attrsOfType]

/-! ## The decoder at the header -/

/-- The generic netlink header of a packet log, taken for an attribute. -/
theorem attrAt_header :
    (attrAt e (pktMemory e xs room LFW_NL_CMD_PKT_FILTER_LOG rest) 0).type = 0 ∧
      256 ≤ (attrAt e (pktMemory e xs room LFW_NL_CMD_PKT_FILTER_LOG rest) 0).nla_len := by
  have hmem : pktMemory e xs room LFW_NL_CMD_PKT_FILTER_LOG rest =
      [6, 1] ++ ([0, 0] ++ (streamBytes e (xs.map (pktEntry e)) ++ rest)) := rfl
  have hlen : e.word 2 ((pktMemory e xs room LFW_NL_CMD_PKT_FILTER_LOG rest).drop 0) =
      e.word 2 [6, 1] := by
    rw [hmem]
    exact Endian.word_append e (w := 2) (le_refl 2) _
  have htype : e.word 2 ((pktMemory e xs room LFW_NL_CMD_PKT_FILTER_LOG rest).drop (0 + 2)) =
      e.word 2 [0, 0] := by
    have hdrop : (pktMemory e xs room LFW_NL_CMD_PKT_FILTER_LOG rest).drop (0 + 2) =
        [0, 0] ++ (streamBytes e (xs.map (pktEntry e)) ++ rest) := by
      rw [hmem]
      rfl
    rw [hdrop]
    exact Endian.word_append e (w := 2) (le_refl 2) _
  unfold attrAt NlAttr.type
  simp only [hlen, htype, word_zeros, Nat.zero_mod, true_and]
  cases e <;> decide

/-- Of a message with events that are told fewer are decoded than it has. -/
theorem pktFilterEvents_lt (hne : xs ≠ [])
    (htold : ∀ a ∈ nlaForEach e (pktMemory e xs room LFW_NL_CMD_PKT_FILTER_LOG rest)
        (4 + 72 * xs.length), a.type = LFW_NLA_PKT_FILTER_LOG →
      Told (pktFilterDecode e boot_ns a).proto (pktFilterDecode e boot_ns a).action) :
    (pktFilterEvents e boot_ns (nlaForEach e
      (pktMemory e xs room LFW_NL_CMD_PKT_FILTER_LOG rest) (4 + 72 * xs.length))).length <
        xs.length := by
  obtain ⟨htype, hlen⟩ := @attrAt_header e xs room rest
  have hpos := List.length_pos_iff.2 hne
  have hwalk := nlaForEach_drop e (pktMemory e xs room LFW_NL_CMD_PKT_FILTER_LOG rest) 0
    (4 + 72 * xs.length)
  rw [List.drop_zero, Nat.sub_zero, Nat.zero_add] at hwalk
  rw [hwalk] at htold ⊢
  rw [pktFilterEvents, List.length_map]
  split at htold
  · next hok =>
    have hle := le_nlaAlign (attrAt e (pktMemory e xs room LFW_NL_CMD_PKT_FILTER_LOG rest) 0).nla_len
    have halign := nlaAlign_mod
      (attrAt e (pktMemory e xs room LFW_NL_CMD_PKT_FILTER_LOG rest) 0).nla_len
    -- the header is skipped with at least the first three containers
    have hcount := count_le room LFW_NL_CMD_PKT_FILTER_LOG rest (by omega) halign
      fun a ha => htold a (List.mem_cons_of_mem _ ha)
    rw [if_pos hok]
    unfold attrsOfType at hcount ⊢
    rw [List.filter_cons, if_neg (by simp [htype, LFW_NLA_PKT_FILTER_LOG])]
    omega
  · next hno =>
    rw [if_neg hno]
    exact hpos

/-- **The packet log is never decoded.** For any page of packets, at least one
and no more than fit in a message, whose events are told as all those are that
the kernel logs, the client does not print the events, whatever follows the
message in memory. -/
theorem waitForMessagesCallback_ne (e : Endian) (boot_ns : U64) (page : RbPage) (rest : List U8)
    (hne : page.packets ≠ []) (hfit : 72 * page.packets.length ≤ 8 * 1024)
    (htold : ∀ x ∈ page.packets, Told x.2.protocol x.2.action) :
    ∃ msg, flushPktFilterPage e page = .ok msg ∧
      waitForMessagesCallback e boot_ns msg rest ≠ page.packets.map (shownEvent boot_ns) := by
  have hlen : ((genlmsgPut (GENL_HDRLEN + 8 * 1024) LFW_NL_CMD_PKT_FILTER_LOG).bytes ++
      streamBytes e (page.packets.map (pktEntry e))).length = 4 + 72 * page.packets.length := by
    rw [List.length_append, length_stream, length_genlmsgPut]
  refine ⟨_, flushPktFilterPage_eq hfit, fun heq => ?_⟩
  unfold waitForMessagesCallback at heq
  rw [hlen] at heq
  -- were all the events decoded, each would be told
  have hdecoded : ∀ a ∈ nlaForEach e (pktMemory e page.packets (GENL_HDRLEN + 8 * 1024)
      LFW_NL_CMD_PKT_FILTER_LOG rest) (4 + 72 * page.packets.length),
      a.type = LFW_NLA_PKT_FILTER_LOG →
        Told (pktFilterDecode e boot_ns a).proto (pktFilterDecode e boot_ns a).action := by
    intro a ha htype
    have hevent : pktFilterDecode e boot_ns a ∈ page.packets.map (shownEvent boot_ns) := by
      rw [← heq]
      exact List.mem_map_of_mem (List.mem_filter.2 ⟨ha, decide_eq_true htype⟩)
    obtain ⟨x, hx, hshown⟩ := List.mem_map.1 hevent
    rw [← hshown]
    exact htold x hx
  have hlt := pktFilterEvents_lt (GENL_HDRLEN + 8 * 1024) rest hne hdecoded
  have hcount := congrArg List.length heq
  rw [List.length_map] at hcount
  exact absurd hcount hlt.ne

/-- A burst, a pause, and another packet: two of TCP, one of UDP and one of ICMP, whose ports are
zero. -/
def pktSampleBurst : RbPage :=
  ⟨1000, [.data 0 ⟨0x010200C0#32, 0x020200C0#32, 0x3412#16, 0x5000#16, 6, 60, 1⟩,
    .data 24 ⟨0x070200C0#32, 0x020200C0#32, 0x3500#16, 0x3500#16, 17, 118, 1⟩,
    .timeExtend 3 17, .data 0 ⟨0x0A6433C6#32, 0x020200C0#32, 0, 0, 1, 250, 1⟩,
    .data 7 ⟨0x010200C0#32, 0x020200C0#32, 0x3412#16, 0xBB01#16, 6, 60, 1⟩]⟩

theorem waitForMessagesCallback_ne_sample :
    ∃ msg, flushPktFilterPage .little pktSampleBurst = .ok msg ∧
      waitForMessagesCallback .little 5 msg [] ≠ pktSampleBurst.packets.map (shownEvent 5) :=
  waitForMessagesCallback_ne .little 5 pktSampleBurst [] (by decide) (by decide) (by decide +kernel)

/-- A page with one packet: from `192.0.2.1`, port 4660, to `192.0.2.2`, port 80. -/
def pktSamplePage : RbPage :=
  ⟨1000, [.data 24 ⟨0x010200C0#32, 0x020200C0#32, 0x3412#16, 0x5000#16, 6, 60, 1⟩]⟩

/-- Of the page with one packet nothing is printed. -/
theorem waitForMessagesCallback_none :
    ¬ ∀ (e : Endian) (boot_ns : U64) (page : RbPage) (rest msg : List U8), page.packets ≠ [] →
      72 * page.packets.length ≤ 8 * 1024 → flushPktFilterPage e page = .ok msg →
      waitForMessagesCallback e boot_ns msg rest = page.packets.map (shownEvent boot_ns) := by
  intro h
  have hfit : 72 * pktSamplePage.packets.length ≤ 8 * 1024 := by decide
  have hclaim := h .little 5 pktSamplePage [] _ (by decide) hfit (flushPktFilterPage_eq hfit)
  revert hclaim
  decide +kernel

end Librefw
