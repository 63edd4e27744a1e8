import Librefw.Bogon.Set
import Librefw.Client.Hcf
import Librefw.Client.Model.Bogon

/-!
# The bogon list from file to kernel

A well-formed line (`BogonLine`) is read as its address and its length
(`bogonLine_text`) and packed as one container of twenty bytes
(`packPrefixes_eq`), which the kernel reads back as one slot of its buffer
(`lfwSlot_entryField`). So a file that fits arrives as it is
(`sendBogonList_round_trip`). Where the buffer fills up, what is sent
depends on what room is left: `sendBogonList_eq` has the cases.
-/

namespace Librefw

open MsgBuf

variable {e : Endian} {uninit : ℕ → U32}

/-! ## Entries -/

/-- The container of an entry. -/
def bogonEntryField (e : Endian) (entry : LfwIpPrefix) : Field :=
  container e LFW_NLA_IP_PREFIX
    [⟨LFW_NLA_N_IP_ADDR, e.ofWord (w := 4) entry.ipPrefix⟩,
      ⟨LFW_NLA_N_IP_PREFIX_LEN, [entry.ipPrefixLen]⟩]

/-- An address and a length are packed as an entry. -/
theorem container_bogonFields (s_addr : U32) (len : U16) :
    container e LFW_NLA_IP_PREFIX (bogonFields e s_addr len) =
      bogonEntryField e ⟨s_addr, len.setWidth 8⟩ := rfl

theorem size_bogonEntryField (entry : LfwIpPrefix) : (bogonEntryField e entry).size = 20 := by
  rw [bogonEntryField, size_container, length_streamBytes]
  simp [Field.size, nlaAlign]

theorem bogonEntryField_fits (entry : LfwIpPrefix) : (bogonEntryField e entry).Fits := by
  refine container_fits (by decide) ?_
  have := size_bogonEntryField (e := e) entry
  unfold bogonEntryField at this
  omega

/-- **An entry is read back as its slot.** -/
theorem lfwSlot_entryField (entry : LfwIpPrefix) (rest : List U8) :
    lfwSlot e (seen (bogonEntryField e entry) rest) = entry := by
  have haddr : ∀ (p : LfwIpPrefix) v rest, lfwParseField e p
      (seen ⟨LFW_NLA_N_IP_ADDR, e.ofWord (w := 4) v⟩ rest) = { p with ipPrefix := v } := by
    intro p v rest
    have htype : (seen ⟨LFW_NLA_N_IP_ADDR, e.ofWord (w := 4) v⟩ rest).type = LFW_NLA_N_IP_ADDR := by
      show LFW_NLA_N_IP_ADDR % 2 ^ 14 = LFW_NLA_N_IP_ADDR
      decide
    rw [lfwParseField, if_pos htype, getU32_seen]
  have hplen : ∀ (p : LfwIpPrefix) v rest, lfwParseField e p
      (seen ⟨LFW_NLA_N_IP_PREFIX_LEN, [v]⟩ rest) = { p with ipPrefixLen := v } :=
    fun _ _ _ => rfl
  have hfit : ∀ f ∈ ([⟨LFW_NLA_N_IP_ADDR, e.ofWord (w := 4) entry.ipPrefix⟩,
      ⟨LFW_NLA_N_IP_PREFIX_LEN, [entry.ipPrefixLen]⟩] : List Field), f.Fits := by
    intro f hf
    simp only [List.mem_cons, List.not_mem_nil, or_false] at hf
    rcases hf with rfl | rfl
    · simp [Field.Fits, LFW_NLA_N_IP_ADDR]
    · simp [Field.Fits, LFW_NLA_N_IP_PREFIX_LEN]
  unfold lfwSlot bogonEntryField
  rw [nested_container e hfit]
  simp only [seenAll, List.foldl_cons, List.foldl_nil, haddr, hplen]

/-- The bytes of an entry are of it alone. -/
theorem bogonEntryField_inj {entry entry' : LfwIpPrefix}
    (h : attrBytes e (bogonEntryField e entry) = attrBytes e (bogonEntryField e entry')) :
    entry = entry' := by
  have hwalk : ∀ x : LfwIpPrefix, nlaForEach e (attrBytes e (bogonEntryField e x) ++ []) 20 =
      seen (bogonEntryField e x) [] :: nlaForEach e [] 0 := by
    intro x
    have hsize := size_bogonEntryField (e := e) x
    rw [nlaForEach_attrBytes e (bogonEntryField_fits x) [] hsize.le, hsize]
  have hseen : seen (bogonEntryField e entry) [] = seen (bogonEntryField e entry') [] := by
    have hcons := (hwalk entry).symm.trans ((congrArg (fun b => nlaForEach e (b ++ []) 20) h).trans
      (hwalk entry'))
    exact (List.cons.inj hcons).1
  rw [← lfwSlot_entryField (e := e) entry [], hseen, lfwSlot_entryField]

/-! ## Lines -/

/-- A line of a bogon list: the dotted quad of an address, a slash, and a decimal
of at most 32. -/
structure BogonLine where
  address : U32
  decimal : List Char
  decimal_ne_nil : decimal ≠ []
  isDigit : ∀ c ∈ decimal, c.isDigit = true
  le_32 : digitsVal decimal ≤ 32

namespace BogonLine

/-- The line as it stands in the file. -/
def text (l : BogonLine) : List Char := (dottedQuad l.address).toList ++ '/' :: l.decimal

/-- What the kernel should make of it. -/
def entry (e : Endian) (l : BogonLine) : LfwIpPrefix :=
  ⟨htonl e l.address, BitVec.ofNat 8 (digitsVal l.decimal)⟩

/-- The container it is packed as. -/
def field (e : Endian) (l : BogonLine) : Field :=
  container e LFW_NLA_IP_PREFIX
    (bogonFields e (htonl e l.address) (BitVec.ofNat 16 (digitsVal l.decimal)))

/-- The octets of an address. -/
theorem dottedQuad_toList (ip : U32) : (dottedQuad ip).toList =
    Nat.toDigits 10 ((ip >>> 24).toNat % 256) ++ '.' ::
      (Nat.toDigits 10 ((ip >>> 16).toNat % 256) ++ '.' ::
        (Nat.toDigits 10 ((ip >>> 8).toNat % 256) ++ '.' ::
          Nat.toDigits 10 ((ip >>> 0).toNat % 256))) := by
  simp [dottedQuad]

/-- A dotted quad is digits and dots. -/
theorem mem_dottedQuad {ip : U32} {c : Char} (h : c ∈ (dottedQuad ip).toList) :
    c.isDigit = true ∨ c = '.' := by
  have hdigit : ∀ n, n < 256 → c ∈ Nat.toDigits 10 n → c.isDigit = true := by
    intro n hn hc
    obtain ⟨d, rest, hd, hfirst, hrest, -⟩ := toDigits_octet ⟨n, hn⟩
    simp only at hd
    rw [hd] at hc
    rcases List.mem_cons.1 hc with rfl | hc
    · exact hfirst
    · exact hrest c hc
  rw [dottedQuad_toList] at h
  simp only [List.mem_append, List.mem_cons] at h
  rcases h with h | h | h | h | h | h | h
  · exact Or.inl (hdigit _ (Nat.mod_lt _ (by omega)) h)
  · exact Or.inr h
  · exact Or.inl (hdigit _ (Nat.mod_lt _ (by omega)) h)
  · exact Or.inr h
  · exact Or.inl (hdigit _ (Nat.mod_lt _ (by omega)) h)
  · exact Or.inr h
  · exact Or.inl (hdigit _ (Nat.mod_lt _ (by omega)) h)

/-- **A dotted quad is read as the address in network order.** -/
theorem inetPton_dottedQuad (ip : U32) :
    inetPton (dottedQuad ip).toList = some (Endian.big.ofWord (w := 4) ip) := by
  have hlt : ∀ k : ℕ, (ip >>> k).toNat % 256 < 256 := fun k => Nat.mod_lt _ (by omega)
  rw [dottedQuad_toList, inetPton_dotted (hlt 24) (hlt 16) (hlt 8) (hlt 0), ofWord_big]
  have hmod : ∀ n : ℕ, BitVec.ofNat 8 (n % 256) = BitVec.ofNat 8 n := by
    intro n
    apply BitVec.eq_of_toNat_eq
    rw [BitVec.toNat_ofNat, BitVec.toNat_ofNat]
    omega
  simp only [hmod, List.map_cons, List.map_nil]

/-- **A line is read as its address and its length.** -/
theorem bogonLine_text (l : BogonLine) (uninit : U32) :
    bogonLine e uninit l.text = .ok (htonl e l.address, BitVec.ofNat 16 (digitsVal l.decimal)) := by
  have hslash : '/' ∉ (dottedQuad l.address).toList := by
    intro h
    rcases mem_dottedQuad h with h | h <;> exact absurd h (by decide)
  -- the slash found is the first, and an address has none
  have hpos : l.text.idxOf? '/' = some (dottedQuad l.address).toList.length := by
    refine List.idxOf?_eq_some_iff.2 ⟨?_, ?_, fun j hj heq => hslash ?_⟩
    · simp [text]
    · simp [text]
    · rw [← heq]
      simp only [text, List.getElem_append_left hj]
      exact List.getElem_mem hj
  have htake : l.text.take (dottedQuad l.address).toList.length = (dottedQuad l.address).toList :=
    List.take_left
  have hdrop : l.text.drop ((dottedQuad l.address).toList.length + 1) = l.decimal := by
    simp [text]
  have hnul : (dottedQuad l.address).toList.takeWhile (· ≠ '\x00') =
      (dottedQuad l.address).toList := by
    refine List.takeWhile_eq_self_iff.2 fun c hc => ?_
    have hne : c ≠ '\x00' := by
      rintro rfl
      rcases mem_dottedQuad hc with h | h <;> exact absurd h (by decide)
    simpa using hne
  have hlen : digitsVal l.decimal < 2 ^ 31 := by
    have := l.le_32
    omega
  unfold bogonLine
  simp only [hpos, htake, hdrop, hnul, stoi_digits l.decimal_ne_nil l.isDigit hlen, ok_bind,
    inetPton_dottedQuad, pure_eq_ok]
  rfl

/-- The length goes through 16 bits and then 8, and 32 fits either. -/
theorem field_eq (l : BogonLine) : l.field e = bogonEntryField e (l.entry e) := by
  have hlen : ((BitVec.ofNat 16 (digitsVal l.decimal)).setWidth 8 : U8) =
      BitVec.ofNat 8 (digitsVal l.decimal) := by
    have := l.le_32
    apply BitVec.eq_of_toNat_eq
    rw [BitVec.toNat_setWidth, BitVec.toNat_ofNat, BitVec.toNat_ofNat]
    omega
  rw [field, container_bogonFields, hlen]
  rfl

theorem size_field (l : BogonLine) : (l.field e).size = 20 := by
  rw [field_eq, size_bogonEntryField]

theorem field_fits (l : BogonLine) : (l.field e).Fits := by
  rw [field_eq]
  exact bogonEntryField_fits _

theorem field_type (l : BogonLine) : (l.field e).type % 2 ^ 14 = LFW_NLA_IP_PREFIX :=
  container_type (by decide) _

theorem length_fields (lines : List BogonLine) :
    (streamBytes e (lines.map (field e))).length = 20 * lines.length := by
  induction lines with
  | nil => rfl
  | cons l lines ih =>
    have hcons : streamBytes e ((l :: lines).map (field e)) =
        attrBytes e (l.field e) ++ streamBytes e (lines.map (field e)) := rfl
    rw [hcons, List.length_append, length_attrBytes, size_field, ih, List.length_cons]
    omega

/-- **A container is read back as the line's slot.** -/
theorem lfwSlot_seen (l : BogonLine) (rest : List U8) :
    lfwSlot e (seen (l.field e) rest) = l.entry e := by
  rw [field_eq, lfwSlot_entryField]

/-- The entry has the line's address, in host order, and the line's length. -/
theorem entry_host (l : BogonLine) :
    getUnalignedBe32 e (l.entry e).ipPrefix = l.address ∧
      (l.entry e).ipPrefixLen.toNat = digitsVal l.decimal := by
  refine ⟨getUnalignedBe32_htonl e l.address, ?_⟩
  have := l.le_32
  show (BitVec.ofNat 8 (digitsVal l.decimal)).toNat = digitsVal l.decimal
  rw [BitVec.toNat_ofNat]
  omega

/-- A line has no newline in it. -/
theorem newline_notMem (l : BogonLine) : '\n' ∉ l.text := by
  intro h
  rcases List.mem_append.1 h with h | h
  · rcases mem_dottedQuad h with h | h <;> exact absurd h (by decide)
  · rcases List.mem_cons.1 h with h | h
    · exact absurd h (by decide)
    · exact absurd (l.isDigit _ h) (by decide)

end BogonLine

/-- A file all of whose lines are well formed. -/
structure BogonFile where
  content : List Char
  lines : List BogonLine
  getlines_eq : getlines content = lines.map BogonLine.text

/-- The file with these lines, each ended. -/
def BogonFile.ofLines (lines : List BogonLine) : BogonFile where
  content := lines.flatMap fun l => l.text ++ ['\n']
  lines := lines
  getlines_eq := by
    induction lines with
    | nil => rfl
    | cons l lines ih =>
      rw [List.flatMap_cons, List.append_assoc, List.singleton_append,
        getlines_append l.newline_notMem, ih, List.map_cons]

/-! ## Packing -/

variable {lines : List BogonLine} {msg : MsgBuf} {n : U32}

/-- One line, packed if it fits. -/
theorem packPrefixes_cons (l : BogonLine) (rest : List (List Char)) (n : U32) (msg : MsgBuf) :
    packPrefixes e uninit (l.text :: rest) n msg =
      if msg.bytes.length + 20 ≤ msg.cap then
        packPrefixes e uninit rest (n + 1) { msg with bytes := msg.bytes ++ attrBytes e (l.field e) }
      else if msg.bytes.length + 4 ≤ msg.cap then .ok (n, msg)
      else .error (.fault .nullDeref) := by
  have hsize := l.size_field (e := e)
  unfold BogonLine.field at hsize
  rw [packPrefixes, l.bogonLine_text]
  simp only [Except.mapError, ok_bind]
  by_cases hfit : msg.bytes.length + 20 ≤ msg.cap
  · rw [if_pos hfit, packNested_of_fits (by omega)]
    rfl
  · rw [if_neg hfit]
    by_cases hopen : msg.bytes.length + 4 ≤ msg.cap
    · rw [if_pos hopen, packNested_of_not_fits hopen (by omega)]
      rfl
    · rw [if_neg hopen, packNested_of_full (by omega)]
      rfl

/-- **Lines that fit are packed one after another**, and counted. -/
theorem packPrefixes_append (hfit : msg.bytes.length + 20 * lines.length ≤ msg.cap)
    (rest : List (List Char)) :
    packPrefixes e uninit (lines.map BogonLine.text ++ rest) n msg =
      packPrefixes e uninit rest (n + BitVec.ofNat 32 lines.length)
        { msg with bytes := msg.bytes ++ streamBytes e (lines.map (BogonLine.field e)) } := by
  induction lines generalizing msg n with
  | nil => simp [streamBytes]
  | cons l lines ih =>
    have hlen : (msg.bytes ++ attrBytes e (l.field e)).length = msg.bytes.length + 20 := by
      rw [List.length_append, length_attrBytes, l.size_field]
    have hstream : streamBytes e ((l :: lines).map (BogonLine.field e)) =
        attrBytes e (l.field e) ++ streamBytes e (lines.map (BogonLine.field e)) := rfl
    -- the count is a 32-bit one, so it adds up modulo its width
    have hcount : n + BitVec.ofNat 32 (l :: lines).length =
        n + 1 + BitVec.ofNat 32 lines.length := by
      rw [List.length_cons, BitVec.ofNat_add, BitVec.add_comm (BitVec.ofNat 32 lines.length),
        ← BitVec.add_assoc]
      rfl
    rw [List.length_cons] at hfit
    rw [List.map_cons, List.cons_append, packPrefixes_cons, if_pos (by omega), hcount, hstream,
      ← List.append_assoc]
    exact ih (by simp only [hlen]; omega)

/-- The same, from a message that has its header only. -/
theorem packPrefixes_header {room : ℕ} (hfit : 4 + 20 * lines.length ≤ room)
    (rest : List (List Char)) :
    packPrefixes e uninit (lines.map BogonLine.text ++ rest) 0
        (genlmsgPut room LFW_NL_CMD_SET_BOGON) =
      packPrefixes e uninit rest (BitVec.ofNat 32 lines.length)
        ⟨room, (genlmsgPut room LFW_NL_CMD_SET_BOGON).bytes ++
          streamBytes e (lines.map (BogonLine.field e))⟩ := by
  have hpack := @packPrefixes_append e uninit lines (genlmsgPut room LFW_NL_CMD_SET_BOGON) 0 hfit
    rest
  have hzero : 0 + BitVec.ofNat 32 lines.length = BitVec.ofNat 32 lines.length :=
    BitVec.zero_add _
  rwa [hzero] at hpack

/-! ## What is sent -/

/-- The count attribute. -/
def bogonCount (e : Endian) (n : ℕ) : Field :=
  ⟨LFW_NLA_NUM_IP_PREFIX, e.ofWord (w := 4) (BitVec.ofNat 32 n)⟩

/-- The message that carries a list, with its count if `counted`. -/
def bogonMessage (e : Endian) (lines : List BogonLine) (counted : Bool) : List U8 :=
  (genlmsgPut 0 LFW_NL_CMD_SET_BOGON).bytes ++
    streamBytes e (lines.map (BogonLine.field e) ++ if counted then [bogonCount e lines.length] else [])

/-- The count after the lines, if it fits. -/
theorem nlaPut_count (room : ℕ) (lines : List BogonLine) :
    ((⟨room, (genlmsgPut room LFW_NL_CMD_SET_BOGON).bytes ++
        streamBytes e (lines.map (BogonLine.field e))⟩ : MsgBuf).nlaPut e
        (bogonCount e lines.length)).2.bytes =
      bogonMessage e lines (4 + 20 * lines.length + 8 ≤ room) := by
  have hsize : (bogonCount e lines.length).size = 8 := by
    simp [bogonCount, Field.size, nlaAlign]
  have hlen : ((genlmsgPut room LFW_NL_CMD_SET_BOGON).bytes ++
      streamBytes e (lines.map (BogonLine.field e))).length = 4 + 20 * lines.length := by
    rw [List.length_append, length_genlmsgPut, BogonLine.length_fields]
  have hstream : streamBytes e (lines.map (BogonLine.field e) ++ [bogonCount e lines.length]) =
      streamBytes e (lines.map (BogonLine.field e)) ++ attrBytes e (bogonCount e lines.length) := by
    simp [streamBytes]
  unfold nlaPut bogonMessage
  simp only [hlen, hsize]
  by_cases hfit : 4 + 20 * lines.length + 8 ≤ room
  · simp only [hfit, if_true, decide_true, hstream, ← List.append_assoc]
    rfl
  · simp only [hfit, if_false, decide_false, Bool.false_eq_true, List.append_nil]
    rfl

/-- **What is sent**, by how much room there is: nothing without a header; all the
lines if they fit, with the count if it does too; else the lines that fit, as
long as a container can still be opened for the next one. -/
theorem sendBogonList_eq (e : Endian) (uninit : ℕ → U32) (capacity : U32) (file : BogonFile) :
    sendBogonList e uninit capacity (some file.content) =
      if capacity.toNat < 20 then .error (.exception .systemError)
      else if 20 + 20 * file.lines.length ≤ capacity.toNat then
        .ok (some (bogonMessage e file.lines (28 + 20 * file.lines.length ≤ capacity.toNat)))
      else if (capacity.toNat - 20) % 20 < 4 then .error (.fault .nullDeref)
      else
        .ok (some (bogonMessage e (file.lines.take ((capacity.toNat - 20) / 20))
          (8 ≤ (capacity.toNat - 20) % 20))) := by
  obtain ⟨content, lines, hfile⟩ := file
  unfold sendBogonList makeMessage NLMSG_HDRLEN GENL_HDRLEN
  by_cases hhdr : capacity.toNat < 20
  · rw [if_pos hhdr, if_neg (by omega)]
    rfl
  rw [if_neg hhdr, if_pos (by omega)]
  simp only [hfile, pure_eq_ok, ok_bind]
  set room := capacity.toNat - 16 with hroom
  by_cases hall : 20 + 20 * lines.length ≤ capacity.toNat
  · -- every line fits
    have hpack := @packPrefixes_header e uninit lines room (by omega) []
    rw [List.append_nil] at hpack
    have hcount := nlaPut_count (e := e) room lines
    have hiff : (4 + 20 * lines.length + 8 ≤ room) = (28 + 20 * lines.length ≤ capacity.toNat) :=
      propext (by omega)
    unfold bogonCount at hcount
    rw [if_pos hall, hpack]
    simp only [packPrefixes, pure_eq_ok, ok_bind, hcount, hiff]
  · rw [if_neg hall]
    -- the line after those that fit finds `(capacity - 20) % 20` bytes
    set k := (capacity.toNat - 20) / 20 with hk
    have hklt : k < lines.length := by omega
    have hlen : (lines.take k).length = k := List.length_take_of_le (by omega)
    have hsplit : lines.map BogonLine.text = (lines.take k).map BogonLine.text ++
        lines[k].text :: (lines.drop (k + 1)).map BogonLine.text := by
      rw [← List.map_cons, ← List.drop_eq_getElem_cons hklt, ← List.map_append,
        List.take_append_drop]
    have hpack := @packPrefixes_header e uninit (lines.take k) room (by omega)
      (lines[k].text :: (lines.drop (k + 1)).map BogonLine.text)
    have hlen' : ((genlmsgPut room LFW_NL_CMD_SET_BOGON).bytes ++
        streamBytes e ((lines.take k).map (BogonLine.field e))).length = 4 + 20 * k := by
      rw [List.length_append, length_genlmsgPut, BogonLine.length_fields, hlen]
    rw [hsplit, hpack, packPrefixes_cons]
    simp only [hlen']
    rw [if_neg (by omega)]
    by_cases hopen : (capacity.toNat - 20) % 20 < 4
    · rw [if_pos hopen, if_neg (by omega)]
      rfl
    · have hcount := nlaPut_count (e := e) room (lines.take k)
      have hiff : (4 + 20 * (lines.take k).length + 8 ≤ room) = (8 ≤ (capacity.toNat - 20) % 20) :=
        propext (by omega)
      unfold bogonCount at hcount
      rw [if_neg hopen, if_pos (by omega)]
      simp only [ok_bind, hcount, hiff]

/-! ## What the kernel reads -/

theorem bogonCount_fits (n : ℕ) : (bogonCount e n).Fits := by
  simp [bogonCount, Field.Fits, LFW_NLA_NUM_IP_PREFIX]

theorem bogonCount_type (n : ℕ) : (bogonCount e n).type % 2 ^ 14 = LFW_NLA_NUM_IP_PREFIX := by
  show LFW_NLA_NUM_IP_PREFIX % 2 ^ 14 = LFW_NLA_NUM_IP_PREFIX
  decide

/-- The attributes of a message. -/
theorem all_bogonMessage (lines : List BogonLine) (counted : Bool) (rest : List U8) :
    (genlAttrs (bogonMessage e lines counted) rest).all e =
      seenAll e (lines.map (BogonLine.field e) ++
        if counted then [bogonCount e lines.length] else []) rest := by
  refine all_genlAttrs (fun f hf => ?_) 0 LFW_NL_CMD_SET_BOGON rest
  rcases List.mem_append.1 hf with hf | hf
  · obtain ⟨l, -, rfl⟩ := List.mem_map.1 hf
    exact l.field_fits
  · cases counted with
    | true =>
      obtain rfl := List.mem_singleton.1 hf
      exact bogonCount_fits _
    | false => cases hf

/-- **The kernel's buffer is the list.** -/
theorem slots_bogonMessage (lines : List BogonLine) (counted : Bool) (rest : List U8) :
    (lfwPrefixAttrs e (genlAttrs (bogonMessage e lines counted) rest)).map (lfwSlot e) =
      lines.map (BogonLine.entry e) := by
  have hother : ∀ f ∈ (if counted then [bogonCount e lines.length] else []),
      f.type % 2 ^ 14 ≠ LFW_NLA_IP_PREFIX := by
    intro f hf
    cases counted with
    | true =>
      obtain rfl := List.mem_singleton.1 hf
      rw [bogonCount_type]
      decide
    | false => cases hf
  have htype : ∀ f ∈ lines.map (BogonLine.field e), f.type % 2 ^ 14 = LFW_NLA_IP_PREFIX := by
    intro f hf
    obtain ⟨l, -, rfl⟩ := List.mem_map.1 hf
    exact l.field_type
  rw [lfwPrefixAttrs, all_bogonMessage, seenAll_append, attrsOfType, List.filter_append,
    ← attrsOfType, ← attrsOfType, attrsOfType_seenAll_of_all htype,
    attrsOfType_seenAll_of_none hother, List.append_nil]
  exact map_seenAll (fun l _ rest => l.lfwSlot_seen rest) _

/-- The count attribute of a message, if it has one. -/
theorem attrs_bogonMessage (lines : List BogonLine) (counted : Bool) (rest : List U8) :
    (genlAttrs (bogonMessage e lines counted) rest).attrs e LFW_NLA_NUM_IP_PREFIX =
      if counted then some (seen (bogonCount e lines.length) rest) else none := by
  have hother : ∀ f ∈ lines.map (BogonLine.field e), f.type % 2 ^ 14 ≠ LFW_NLA_NUM_IP_PREFIX := by
    intro f hf
    obtain ⟨l, -, rfl⟩ := List.mem_map.1 hf
    rw [l.field_type]
    decide
  rw [GenlInfo.attrs, all_bogonMessage, seenAll_append, attrsOfType, List.filter_append,
    ← attrsOfType, ← attrsOfType, attrsOfType_seenAll_of_none hother, List.nil_append]
  cases counted with
  | true =>
    have htype : ∀ f ∈ [bogonCount e lines.length], f.type % 2 ^ 14 = LFW_NLA_NUM_IP_PREFIX := by
      intro f hf
      obtain rfl := List.mem_singleton.1 hf
      exact bogonCount_type _
    simp only [if_true, attrsOfType_seenAll_of_all htype]
    rfl
  | false => rfl

/-- A message that carries a list: as many containers as it has entries, each
read as its entry, and the count of them. -/
def BogonCarried (e : Endian) (lines : List BogonLine) (msg : List U8) : Prop :=
  ∀ rest, (∃ a ∈ (genlAttrs msg rest).attrs e LFW_NLA_NUM_IP_PREFIX,
      (a.getU32 e).toNat = lines.length) ∧
    (lfwPrefixAttrs e (genlAttrs msg rest)).map (lfwSlot e) = lines.map (BogonLine.entry e)

theorem lfwNumPrefix_of_attrs {info : GenlInfo} {a : NlAttr}
    (h : info.attrs e LFW_NLA_NUM_IP_PREFIX = some a) :
    lfwNumPrefix e info = (a.getU32 e).toNat := by
  unfold lfwNumPrefix
  rw [h]

/-- A counted message carries its list, if the count fits its word. -/
theorem bogonCarried_message (e : Endian) (h : lines.length < 2 ^ 32) :
    BogonCarried e lines (bogonMessage e lines true) := by
  intro rest
  refine ⟨⟨seen (bogonCount e lines.length) rest, ?_, ?_⟩, slots_bogonMessage lines true rest⟩
  · rw [attrs_bogonMessage]
    rfl
  · rw [bogonCount, getU32_seen, BitVec.toNat_ofNat, Nat.mod_eq_of_lt h]

/-- A message carries no list but its own, and none without a count. -/
theorem lines_of_bogonCarried {lines' : List BogonLine} {counted : Bool}
    (h : BogonCarried e lines (bogonMessage e lines' counted)) :
    counted = true ∧ lines.length = lines'.length := by
  obtain ⟨⟨a, ha, -⟩, hslots⟩ := h []
  rw [slots_bogonMessage] at hslots
  rw [attrs_bogonMessage] at ha
  have hlen := congrArg List.length hslots
  rw [List.length_map, List.length_map] at hlen
  cases counted with
  | true => exact ⟨rfl, hlen.symm⟩
  | false => cases ha

/-! ## The round trip -/

/-- The loads that a counted message leads to. -/
theorem lfwBogonSet_of_carried {A : Allocator} {info : GenlInfo} {s : LfwBgState}
    {prefixes : List LfwIpPrefix} (hnum : lfwNumPrefix e info = prefixes.length)
    (hslots : (lfwPrefixAttrs e info).map (lfwSlot e) = prefixes) (hne : prefixes ≠ [])
    (hmax : prefixes.length < 2 ^ 29) {buf : Addr} {bufs : Mem (List LfwIpPrefix)}
    (halloc : s.bufs.zalloc A (List.replicate prefixes.length .zero) = (some buf, bufs)) :
    lfwBogonSet e A info s = (do
      let s' ← lfwLoadBgTree e A prefixes prefixes.length { s with bufs := bufs.set buf prefixes }
      let bufs' ← s'.bufs.free buf
      pure (0, { s' with bufs := bufs' })) := by
  have hlen : (lfwPrefixAttrs e info).length = prefixes.length := by
    rw [← hslots, List.length_map]
  have hparse := lfwParsePrefixes_spec e (lfwPrefixAttrs e info) hlen.le []
  rw [hslots, hlen, Nat.sub_self, List.nil_append, List.replicate_zero, List.append_nil,
    List.nil_append, List.length_nil] at hparse
  have hpos : prefixes.length ≠ 0 := by
    rwa [ne_eq, List.length_eq_zero_iff]
  have hbuf : buf ∈ bufs := by
    obtain ⟨b, bufs₁, h₁, hext⟩ := Mem.zalloc_supply A.complete s.bufs
      (List.replicate prefixes.length LfwIpPrefix.zero)
    obtain ⟨hb, rfl⟩ := Prod.mk.inj (h₁.symm.trans (Mem.zalloc_complete halloc))
    obtain rfl := Option.some.inj hb
    exact hext.mem_self
  have hvzalloc := (lfwVzalloc_of_ne A s.bufs hpos).trans halloc
  unfold lfwBogonSet
  simp only [hnum, hpos, if_false, lfwBufEntries_of_lt A hmax, hvzalloc, hparse, ok_bind,
    Mem.store_of_mem hbuf]

/-- **The round trip of a bogon list.** A well-formed file that fits in the
message is sent, and the kernel loads exactly its list, in order: each address
in host order the quad's, each length the decimal, and as many as there are
lines. An empty file is sent too, and refused. -/
theorem sendBogonList_round_trip (e : Endian) (uninit : ℕ → U32) (capacity : U32)
    (file : BogonFile) (hfit : 28 + 20 * file.lines.length ≤ capacity.toNat) :
    ∃ msg prefixes, sendBogonList e uninit capacity (some file.content) = .ok (some msg) ∧
      prefixes.map (fun p => (getUnalignedBe32 e p.ipPrefix, p.ipPrefixLen.toNat)) =
        file.lines.map (fun l => (l.address, digitsVal l.decimal)) ∧
      ∀ rest, lfwNumPrefix e (genlAttrs msg rest) = file.lines.length ∧
        (file.lines ≠ [] → ∀ (A : Allocator) (s : LfwBgState) buf bufs,
          s.bufs.zalloc A (List.replicate file.lines.length .zero) = (some buf, bufs) →
          lfwBogonSet e A (genlAttrs msg rest) s = (do
            let s' ← lfwLoadBgTree e A prefixes file.lines.length
              { s with bufs := bufs.set buf prefixes }
            let bufs' ← s'.bufs.free buf
            pure (0, { s' with bufs := bufs' }))) ∧
        (file.lines = [] → ∀ (A : Allocator) (s : LfwBgState),
          lfwBogonSet e A (genlAttrs msg rest) s = .ok (-EINVAL, s)) := by
  have hcap := capacity.isLt
  have hcarried := @bogonCarried_message file.lines e (by omega)
  refine ⟨bogonMessage e file.lines true, file.lines.map (BogonLine.entry e), ?_, ?_,
    fun rest => ?_⟩
  · rw [sendBogonList_eq, if_neg (by omega), if_pos (by omega), decide_eq_true hfit]
  · rw [List.map_map]
    refine List.map_congr_left fun l _ => ?_
    exact Prod.ext (l.entry_host (e := e)).1 (l.entry_host (e := e)).2
  obtain ⟨⟨a, ha, hnum⟩, hslots⟩ := hcarried rest
  rw [← lfwNumPrefix_of_attrs ha] at hnum
  have hlen : (file.lines.map (BogonLine.entry e)).length = file.lines.length := List.length_map ..
  refine ⟨hnum, fun hne A s buf bufs halloc => ?_, fun hnil A s => ?_⟩
  · have hload := lfwBogonSet_of_carried (A := A) (s := s) (hnum.trans hlen.symm) hslots
      (by simpa using hne) (by omega) (hlen ▸ halloc)
    rwa [hlen] at hload
  · have hzero : file.lines.length = 0 := List.length_eq_zero_iff.2 hnil
    unfold lfwBogonSet
    simp only [hnum, hzero, if_true, pure_eq_ok]

/-- A line of a file. -/
def bogonSampleLine : BogonLine where
  address := 0xC0A80000#32
  decimal := ['1', '6']
  decimal_ne_nil := by decide
  isDigit := by simp
  le_32 := by decide

example : bogonSampleLine.text = "192.168.0.0/16".toList := by decide +kernel

/-- A file of three lines, with a host among them. -/
def bogonSampleLines : List BogonLine :=
  [⟨0x0A000000#32, ['8'], by decide, by simp, by decide⟩, bogonSampleLine,
    ⟨0xC6336407#32, ['3', '2'], by decide, by simp, by decide⟩]

/-- Sent in a page to a kernel that has just loaded the module, the lines are what it loads. -/
theorem sendBogonList_round_trip_sample :
    ∃ s₀ msg buf, ∃ (bufs : Mem (List LfwIpPrefix)) (prefixes : List LfwIpPrefix),
      lfwInitBgState Supply.next.toAllocator = .ok s₀ ∧
      sendBogonList .little (fun _ => 0) 4096
        (some (BogonFile.ofLines bogonSampleLines).content) = .ok (some msg) ∧
      prefixes.map (fun p => (getUnalignedBe32 .little p.ipPrefix, p.ipPrefixLen.toNat)) =
        [(0x0A000000#32, 8), (0xC0A80000#32, 16), (0xC6336407#32, 32)] ∧
      lfwBogonSet .little Supply.next.toAllocator (genlAttrs msg []) s₀ = (do
        let s' ← lfwLoadBgTree .little Supply.next.toAllocator prefixes 3
          { s₀ with bufs := bufs.set buf prefixes }
        let bufs' ← s'.bufs.free buf
        pure (0, { s' with bufs := bufs' })) := by
  obtain ⟨msg, prefixes, hsend, hlist, hload⟩ := sendBogonList_round_trip .little (fun _ => 0) 4096
    (BogonFile.ofLines bogonSampleLines) (by decide)
  obtain ⟨s₀, a, hinit, -⟩ := lfwInitBgState_spec Supply.next
  obtain ⟨buf, bufs, halloc, -⟩ := Mem.zalloc_supply Supply.next s₀.bufs
    (List.replicate (BogonFile.ofLines bogonSampleLines).lines.length LfwIpPrefix.zero)
  have hset := (hload []).2.1 (List.cons_ne_nil _ _) _ s₀ buf bufs halloc
  exact ⟨s₀, msg, buf, bufs, prefixes, hinit, hsend, hlist, hset⟩

/-- An empty file is sent, and not loaded: the command refuses it. -/
theorem sendBogonList_round_trip_empty :
    ¬ ∀ (e : Endian) (uninit : ℕ → U32) (capacity : U32) (file : BogonFile),
      28 + 20 * file.lines.length ≤ capacity.toNat →
      ∃ msg, ∃ prefixes : List LfwIpPrefix,
        sendBogonList e uninit capacity (some file.content) = .ok (some msg) ∧
        prefixes.map (fun p =>
            (getUnalignedBe32 e p.ipPrefix, p.ipPrefixLen.toNat)) =
          file.lines.map (fun l => (l.address, digitsVal l.decimal)) ∧
        ∀ rest (A : Allocator) (s : LfwBgState) buf bufs,
          s.bufs.zalloc A (List.replicate file.lines.length .zero) = (some buf, bufs) →
          lfwBogonSet e A (genlAttrs msg rest) s = (do
            let s' ← lfwLoadBgTree e A prefixes file.lines.length
              { s with bufs := bufs.set buf prefixes }
            let bufs' ← s'.bufs.free buf
            pure (0, { s' with bufs := bufs' })) := by
  intro hall
  have hfit : 28 + 20 * (BogonFile.ofLines []).lines.length ≤ (4096 : U32).toNat := by decide
  obtain ⟨msg, prefixes, hsend, -, hload⟩ := hall .little (fun _ => 0) 4096 (.ofLines []) hfit
  have hcarried := @bogonCarried_message [] .little (by decide)
  rw [sendBogonList_eq, if_neg (by decide), if_pos (by decide)] at hsend
  obtain rfl := Option.some.inj (Except.ok.inj hsend)
  obtain ⟨s, a, hinit, -⟩ := lfwInitBgState_spec Supply.next
  obtain ⟨buf, bufs, halloc, -⟩ := Mem.zalloc_supply Supply.next s.bufs
    (List.replicate (BogonFile.ofLines []).lines.length LfwIpPrefix.zero)
  have hset := hload [] Supply.next.toAllocator s buf bufs halloc
  -- the command answers `-EINVAL` where a load would have answered zero
  have hrefused : lfwBogonSet .little Supply.next.toAllocator
      (genlAttrs (bogonMessage .little [] true) []) s = .ok (-EINVAL, s) := by
    obtain ⟨⟨a, ha, hnum⟩, -⟩ := hcarried []
    rw [← lfwNumPrefix_of_attrs ha] at hnum
    unfold lfwBogonSet
    simp only [hnum, List.length_nil, if_true, pure_eq_ok]
  obtain ⟨s', -, hset⟩ := bind_eq_ok.1 (hset.symm.trans hrefused)
  obtain ⟨bufs', -, hset⟩ := bind_eq_ok.1 hset
  have hret : (0 : ℤ) = -EINVAL := congrArg Prod.fst (Except.ok.inj hset)
  exact absurd hret (by decide)

/-! ## Files that do not fit -/

/-- What is sent of a file that does not fit, if there is room for a count after
the lines that do: a list of those lines, in order and counted. -/
theorem sendBogonList_part (e : Endian) (uninit : ℕ → U32) {capacity : U32} {file : BogonFile}
    (hcap : capacity.toNat < 20 + 20 * file.lines.length)
    (hroom : 8 ≤ (capacity.toNat - 20) % 20) :
    ∃ msg, sendBogonList e uninit capacity (some file.content) = .ok (some msg) ∧
      BogonCarried e (file.lines.take ((capacity.toNat - 20) / 20)) msg := by
  have hlt := capacity.isLt
  have hlen : (file.lines.take ((capacity.toNat - 20) / 20)).length = (capacity.toNat - 20) / 20 :=
    List.length_take_of_le (by omega)
  refine ⟨_, ?_, bogonCarried_message e (by omega)⟩
  rw [sendBogonList_eq, if_neg (by omega), if_neg (by omega), if_neg (by omega),
    decide_eq_true hroom]

/-- **When a bogon list is sent whole or not at all.** What is sent carries every
line of the file and their number exactly if the message has no room for its
headers, or has room for everything, or fills up so far that the next container
cannot be opened: the command then dies before it sends. -/
theorem sendBogonList_whole_iff (e : Endian) (uninit : ℕ → U32) (capacity : U32)
    (file : BogonFile) :
    (∀ msg, sendBogonList e uninit capacity (some file.content) = .ok (some msg) →
      BogonCarried e file.lines msg) ↔
    capacity.toNat < 20 ∨ 28 + 20 * file.lines.length ≤ capacity.toNat ∨
      (capacity.toNat < 20 + 20 * file.lines.length ∧ (capacity.toNat - 20) % 20 < 4) := by
  have hlt := capacity.isLt
  have heq := sendBogonList_eq e uninit capacity file
  by_cases hhdr : capacity.toNat < 20
  · rw [if_pos hhdr] at heq
    refine ⟨fun _ => Or.inl hhdr, fun _ msg hmsg => ?_⟩
    rw [heq] at hmsg
    cases hmsg
  rw [if_neg hhdr] at heq
  by_cases hall : 20 + 20 * file.lines.length ≤ capacity.toNat
  · -- every line is in the message; the count need not be
    rw [if_pos hall] at heq
    constructor
    · intro hsent
      have hcounted := (lines_of_bogonCarried (hsent _ heq)).1
      exact Or.inr (Or.inl (of_decide_eq_true hcounted))
    · intro hcond msg hmsg
      have hfit : 28 + 20 * file.lines.length ≤ capacity.toNat := by omega
      rw [heq, decide_eq_true hfit] at hmsg
      obtain rfl := Option.some.inj (Except.ok.inj hmsg)
      exact bogonCarried_message e (by omega)
  rw [if_neg hall] at heq
  by_cases hfull : (capacity.toNat - 20) % 20 < 4
  · rw [if_pos hfull] at heq
    refine ⟨fun _ => Or.inr (Or.inr ⟨by omega, hfull⟩), fun _ msg hmsg => ?_⟩
    rw [heq] at hmsg
    cases hmsg
  · -- only some of the lines are in the message
    rw [if_neg hfull] at heq
    constructor
    · intro hsent
      have hlen := (lines_of_bogonCarried (hsent _ heq)).2
      rw [List.length_take] at hlen
      omega
    · intro hcond
      omega

/-- Of 204 lines a page takes 203, and these are sent as the list. -/
theorem sendBogonList_whole_page :
    ¬ ∀ (e : Endian) (uninit : ℕ → U32) (capacity : U32) (file : BogonFile) (msg : List U8),
      sendBogonList e uninit capacity (some file.content) = .ok (some msg) →
      BogonCarried e file.lines msg := by
  intro hall
  have hlen : (BogonFile.ofLines (List.replicate 204 bogonSampleLine)).lines.length = 204 :=
    List.length_replicate
  have hcap : (4096 : U32).toNat = 4096 := rfl
  obtain ⟨msg, hsend, hpart⟩ := @sendBogonList_part .little (fun _ => 0) 4096
    (.ofLines (List.replicate 204 bogonSampleLine)) (by omega) (by omega)
  obtain ⟨-, hwhole⟩ := hall .little _ _ _ msg hsend []
  obtain ⟨-, hslots⟩ := hpart []
  have h := congrArg List.length (hwhole.symm.trans hslots)
  rw [List.length_map, List.length_map, List.length_take] at h
  omega

end Librefw
