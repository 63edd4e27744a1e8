import Librefw.Log.Model.RingBuffer
import Librefw.Log.PacketFilter

/-!
# Decoding a page

A page is a sequence of events, laid out one after another (`RbEvent`,
`rbEncode`). At the offset of an event the body of the loop does what the
event's record says (`rbTurn_encode`), and the length read there is the
event's (`rbEventLength_encode`); so the loop visits the events and nothing
else, and what it sends is what the page's records are sent as
(`rbLoop_encode`).
-/

namespace Librefw

open MsgBuf

variable {e : Endian} {mem a b : List U8} {p : ℕ} {ts : U64} {skb : MsgBuf} {l : LongSize}

/-! ## What lies in memory -/

/-- The bytes at an offset of the memory. -/
def LiesAt (mem : List U8) (p : ℕ) (bytes : List U8) : Prop := ∃ rest, mem.drop p = bytes ++ rest

theorem LiesAt.left (h : LiesAt mem p (a ++ b)) : LiesAt mem p a := by
  obtain ⟨rest, hrest⟩ := h
  exact ⟨b ++ rest, by rw [hrest, List.append_assoc]⟩

theorem LiesAt.right (h : LiesAt mem p (a ++ b)) : LiesAt mem (p + a.length) b := by
  obtain ⟨rest, hrest⟩ := h
  refine ⟨rest, ?_⟩
  rw [← List.drop_drop, hrest, List.append_assoc, List.drop_left]

theorem LiesAt.length_le (h : LiesAt mem p a) (ha : a ≠ []) : p + a.length ≤ mem.length := by
  obtain ⟨rest, hrest⟩ := h
  have hlen := congrArg List.length hrest
  have hpos := List.length_pos_iff.2 ha
  rw [List.length_drop, List.length_append] at hlen
  omega

/-- **A word that lies in memory is loaded.** -/
theorem rbLoad_of_liesAt {w : ℕ} {v : BitVec (8 * w)} (h : LiesAt mem p (e.ofWord v))
    (hw : 0 < w) : rbLoad e w mem p = .ok v := by
  have hne : e.ofWord v ≠ [] := by
    rw [← List.length_pos_iff, Endian.length_ofWord]
    exact hw
  have hle := h.length_le hne
  rw [Endian.length_ofWord] at hle
  obtain ⟨rest, hrest⟩ := h
  rw [rbLoad, if_pos ⟨Int.natCast_nonneg p, by rwa [Int.toNat_natCast]⟩, Int.toNat_natCast, hrest,
    Endian.word_ofWord_append]
  rfl

/-- A byte is a word. -/
theorem ofWord_byte (e : Endian) (v : U8) : e.ofWord (w := 1) v = [v] := by
  have hbytes : bytesLE 1 v.toNat = [v] := by
    rw [bytesLE, bytesLE, BitVec.ofNat_toNat, BitVec.setWidth_eq]
  cases e with
  | little => exact hbytes
  | big => exact (congrArg List.reverse hbytes).trans rfl

/-! ## Headers -/

/-- The first word of an event. -/
def rbHeader (e : Endian) (type_len : ℕ) (time_delta : BitVec 27) : U32 :=
  match e with
  | .little => BitVec.ofNat 32 (type_len + 2 ^ 5 * time_delta.toNat)
  | .big => BitVec.ofNat 32 (type_len * 2 ^ 27 + time_delta.toNat)

theorem rbTypeLen_header (e : Endian) {type_len : ℕ} (h : type_len < 32) (time_delta : BitVec 27) :
    rbTypeLen e (rbHeader e type_len time_delta) = type_len := by
  have hd := time_delta.isLt
  cases e with
  | little =>
    rw [rbTypeLen, rbHeader, BitVec.toNat_ofNat]
    omega
  | big =>
    rw [rbTypeLen, rbHeader, BitVec.toNat_ofNat]
    omega

theorem rbTimeDelta_header (e : Endian) {type_len : ℕ} (h : type_len < 32)
    (time_delta : BitVec 27) :
    rbTimeDelta e (rbHeader e type_len time_delta) = time_delta.setWidth 32 := by
  have hd := time_delta.isLt
  apply BitVec.eq_of_toNat_eq
  cases e with
  | little =>
    rw [rbTimeDelta, rbHeader, BitVec.toNat_ofNat, BitVec.toNat_ofNat, BitVec.toNat_setWidth]
    omega
  | big =>
    rw [rbTimeDelta, rbHeader, BitVec.toNat_ofNat, BitVec.toNat_ofNat, BitVec.toNat_setWidth]
    omega

/-! ## Events -/

/-- An event of a page, in one of its encodings; `rest` is what it holds besides. -/
inductive RbEvent where
  | padding (time_delta : BitVec 27) (rest : List U8) (delta_ne : time_delta ≠ 0)
      (fits : rest.length + 8 < 2 ^ 32)
  | timeExtend (time_delta : BitVec 27) (array : U32)
  | timeStamp (time_delta : BitVec 27) (array : U32)
  | dataShort (time_delta : BitVec 27) (entry : PktFilterEvent) (rest : List U8) (type_len : ℕ)
      (le : type_len ≤ RINGBUF_TYPE_DATA_TYPE_LEN_MAX) (length : 15 + rest.length = type_len * 4)
  | dataLong (time_delta : BitVec 27) (entry : PktFilterEvent) (rest : List U8)
      (fits : rest.length + 23 < 2 ^ 32)

/-- `struct pkt_filter_event`, as it is laid out. -/
def pktEntryBytes (e : Endian) (entry : PktFilterEvent) : List U8 :=
  e.ofWord (w := 4) entry.source_ip ++ (e.ofWord (w := 4) entry.dest_ip ++
    (e.ofWord (w := 2) entry.source_port ++ (e.ofWord (w := 2) entry.dest_port ++
      ([entry.protocol] ++ ([entry.ttl] ++ [entry.action])))))

namespace RbEvent

/-- How an event is laid out. In the long form `array[0]` is counted with the data, as it is
in padding. -/
def encode (e : Endian) : RbEvent → List U8
  | padding time_delta rest _ _ =>
    e.ofWord (w := 4) (rbHeader e RINGBUF_TYPE_PADDING time_delta) ++
      (e.ofWord (w := 4) (BitVec.ofNat 32 (4 + rest.length)) ++ rest)
  | timeExtend time_delta array =>
    e.ofWord (w := 4) (rbHeader e RINGBUF_TYPE_TIME_EXTEND time_delta) ++ e.ofWord (w := 4) array
  | timeStamp time_delta array =>
    e.ofWord (w := 4) (rbHeader e RINGBUF_TYPE_TIME_STAMP time_delta) ++ e.ofWord (w := 4) array
  | dataShort time_delta entry rest type_len _ _ =>
    e.ofWord (w := 4) (rbHeader e type_len time_delta) ++ (pktEntryBytes e entry ++ rest)
  | dataLong time_delta entry rest _ =>
    e.ofWord (w := 4) (rbHeader e 0 time_delta) ++
      (e.ofWord (w := 4) (BitVec.ofNat 32 (4 + (15 + rest.length))) ++
        (pktEntryBytes e entry ++ rest))

/-- The event as a record. -/
def record : RbEvent → RbRecord
  | padding time_delta _ _ _ => .padding (time_delta.setWidth 32)
  | timeExtend time_delta array => .timeExtend array (time_delta.setWidth 32)
  | timeStamp time_delta array => .timeStamp array (time_delta.setWidth 32)
  | dataShort time_delta entry _ _ _ _ => .data (time_delta.setWidth 32) entry
  | dataLong time_delta entry _ _ => .data (time_delta.setWidth 32) entry

theorem length_pktEntryBytes (entry : PktFilterEvent) : (pktEntryBytes e entry).length = 15 := by
  simp [pktEntryBytes]

/-- An event is eight bytes at least, and its length is a word. -/
theorem length_encode (ev : RbEvent) : 8 ≤ (ev.encode e).length ∧ (ev.encode e).length < 2 ^ 32 := by
  cases ev with
  | padding time_delta rest delta_ne fits =>
    simp only [encode, List.length_append, Endian.length_ofWord]
    omega
  | timeExtend time_delta array => simp [encode]
  | timeStamp time_delta array => simp [encode]
  | dataShort time_delta entry rest type_len le length =>
    simp only [encode, List.length_append, Endian.length_ofWord, length_pktEntryBytes]
    unfold RINGBUF_TYPE_DATA_TYPE_LEN_MAX at le
    omega
  | dataLong time_delta entry rest fits =>
    simp only [encode, List.length_append, Endian.length_ofWord, length_pktEntryBytes]
    omega

end RbEvent

/-- The events of a page, one after another. -/
def rbEncode (e : Endian) (es : List RbEvent) : List U8 := es.flatMap (RbEvent.encode e)

/-! ## One turn -/

/-- What the body of the loop does with a record. -/
def recordTurn (e : Endian) (record : RbRecord) (ts : U64) (skb : MsgBuf) : Bool × U64 × MsgBuf :=
  match record with
  | .padding time_delta => (true, ts + time_delta.setWidth 64, skb)
  | .timeExtend array time_delta => (true, ts + rbEventTimeStamp array time_delta, skb)
  | .timeStamp array time_delta => (true, rbFixAbsTs (rbEventTimeStamp array time_delta) ts, skb)
  | .data time_delta entry =>
    let ts := ts + time_delta.setWidth 64
    match skb.nestStart e LFW_NLA_PKT_FILTER_LOG with
    | (none, skb) => (false, ts, skb)
    | (some container, skb) =>
      let put := skb.nlaPuts e (pktFilterFields e ts entry)
      (true, ts, if put.1 then put.2.nestEnd e container else put.2.nestCancel container)

/-- The loop over records, one turn at a time. -/
theorem processRecords_cons {record : RbRecord} {records : List RbRecord}
    (h : record ≠ .padding 0) :
    processRecords e (record :: records) ts skb =
      if (recordTurn e record ts skb).1 then
        processRecords e records (recordTurn e record ts skb).2.1 (recordTurn e record ts skb).2.2
      else (-EMSGSIZE, (recordTurn e record ts skb).2.2) := by
  cases record with
  | padding time_delta =>
    have hd : time_delta ≠ 0 := fun heq => h (by rw [heq])
    rw [processRecords, if_neg hd]
    rfl
  | timeExtend array time_delta => rfl
  | timeStamp array time_delta => rfl
  | data time_delta entry =>
    rw [processRecords, recordTurn]
    simp only
    cases skb.nestStart e LFW_NLA_PKT_FILTER_LOG with
    | mk container skb =>
      cases container with
      | none => rfl
      | some container => rfl

/-- Values that are there are put as they are. -/
theorem nlaPutsRead_pure (e : Endian) (fs : List Field) (skb : MsgBuf) :
    nlaPutsRead e (fs.map pure) skb = .ok (skb.nlaPuts e fs) := by
  induction fs generalizing skb with
  | nil => rfl
  | cons f fs ih =>
    rw [List.map_cons, nlaPutsRead, pure_eq_ok, ok_bind, nlaPuts]
    simp only
    cases hput : skb.nlaPut e f with
    | mk fits skb =>
      cases fits with
      | true => exact ih skb
      | false => rfl

/-- The values of an entry that lies in memory. -/
theorem pktFilterReads_eq {entry : PktFilterEvent} (h : LiesAt mem p (pktEntryBytes e entry)) :
    pktFilterReads e mem ts p = (pktFilterFields e ts entry).map pure := by
  have h4 := h.right
  have h8 := h4.right
  have h10 := h8.right
  have h12 := h10.right
  have h13 := h12.right
  have h14 := h13.right
  simp only [Endian.length_ofWord, List.length_singleton, Nat.add_assoc, Nat.reduceAdd] at *
  have hb12 := h12.left
  have hb13 := h13.left
  rw [← ofWord_byte e] at hb12 hb13 h14
  have hoff : ∀ k : ℕ, (p : ℤ) + k = ((p + k : ℕ) : ℤ) := fun k => by push_cast; rfl
  unfold pktFilterReads pktFilterFields
  have e4 := hoff 4
  have e8 := hoff 8
  have e10 := hoff 10
  have e12 := hoff 12
  have e13 := hoff 13
  have e14 := hoff 14
  simp only [Nat.cast_ofNat] at e4 e8 e10 e12 e13 e14
  rw [e4, e8, e10, e12, e13, e14, rbLoad_of_liesAt h.left (by omega),
    rbLoad_of_liesAt h4.left (by omega), rbLoad_of_liesAt h8.left (by omega),
    rbLoad_of_liesAt h10.left (by omega), rbLoad_of_liesAt hb12 (by omega),
    rbLoad_of_liesAt hb13 (by omega), rbLoad_of_liesAt h14 (by omega)]
  rfl

namespace RbEvent

/-- The type in an event's first word. -/
def typeLen : RbEvent → ℕ
  | padding _ _ _ _ => RINGBUF_TYPE_PADDING
  | timeExtend _ _ => RINGBUF_TYPE_TIME_EXTEND
  | timeStamp _ _ => RINGBUF_TYPE_TIME_STAMP
  | dataShort _ _ _ type_len _ _ => type_len
  | dataLong _ _ _ _ => 0

def timeDelta : RbEvent → BitVec 27
  | padding time_delta _ _ _ => time_delta
  | timeExtend time_delta _ => time_delta
  | timeStamp time_delta _ => time_delta
  | dataShort time_delta _ _ _ _ _ => time_delta
  | dataLong time_delta _ _ _ => time_delta

theorem typeLen_lt (ev : RbEvent) : ev.typeLen < 32 := by
  cases ev with
  | padding => exact (by decide : RINGBUF_TYPE_PADDING < 32)
  | timeExtend => exact (by decide : RINGBUF_TYPE_TIME_EXTEND < 32)
  | timeStamp => exact (by decide : RINGBUF_TYPE_TIME_STAMP < 32)
  | dataShort time_delta entry rest type_len le length =>
    show type_len < 32
    unfold RINGBUF_TYPE_DATA_TYPE_LEN_MAX at le
    omega
  | dataLong => exact Nat.zero_lt_succ 31

/-- **The first word of an event that lies in memory.** -/
theorem header_liesAt {ev : RbEvent} (h : LiesAt mem p (ev.encode e)) :
    rbLoad e 4 mem p = .ok (rbHeader e ev.typeLen ev.timeDelta) := by
  cases ev with
  | padding => exact rbLoad_of_liesAt h.left (by omega)
  | timeExtend => exact rbLoad_of_liesAt h.left (by omega)
  | timeStamp => exact rbLoad_of_liesAt h.left (by omega)
  | dataShort => exact rbLoad_of_liesAt h.left (by omega)
  | dataLong => exact rbLoad_of_liesAt h.left (by omega)

end RbEvent

/-- A word after a header. -/
theorem rbLoad_array {v : U32} {header : U32}
    (h : LiesAt mem p (e.ofWord (w := 4) header ++ e.ofWord (w := 4) v)) :
    rbLoad e 4 mem ((p : ℤ) + 4) = .ok v := by
  have hright := h.right
  rw [Endian.length_ofWord] at hright
  exact rbLoad_of_liesAt hright (by omega)

theorem rbLength_add (n : ℕ) :
    BitVec.ofNat 32 n + RB_EVNT_HDR_SIZE = BitVec.ofNat 32 (n + 4) := by
  rw [BitVec.ofNat_add]
  rfl

/-- No delta of an event is lost in its word. -/
theorem setWidth_ne_zero {time_delta : BitVec 27} (h : time_delta ≠ 0) :
    (time_delta.setWidth 32 : U32) ≠ 0 := by
  intro hzero
  have hnat := congrArg BitVec.toNat hzero
  have hlt := time_delta.isLt
  rw [BitVec.toNat_setWidth, Nat.mod_eq_of_lt (by omega)] at hnat
  exact h (BitVec.eq_of_toNat_eq hnat)

/-- The types of the data events. -/
theorem rbTypeLen_data {type_len : ℕ} (h : type_len ≤ RINGBUF_TYPE_DATA_TYPE_LEN_MAX) :
    type_len < 32 ∧ type_len ≠ RINGBUF_TYPE_PADDING ∧ type_len ≠ RINGBUF_TYPE_TIME_EXTEND ∧
      type_len ≠ RINGBUF_TYPE_TIME_STAMP := by
  unfold RINGBUF_TYPE_DATA_TYPE_LEN_MAX at h
  unfold RINGBUF_TYPE_PADDING RINGBUF_TYPE_TIME_EXTEND RINGBUF_TYPE_TIME_STAMP
  omega

/-- The length of a data event is read by `rb_event_data_length`. -/
theorem rbEventLength_data {type_len : ℕ} {time_delta : BitVec 27} {q : ℤ}
    (h : type_len ≤ RINGBUF_TYPE_DATA_TYPE_LEN_MAX)
    (hload : rbLoad e 4 mem q = .ok (rbHeader e type_len time_delta)) :
    rbEventLength e mem q = (do
      let length ← if type_len ≠ 0 then pure (BitVec.ofNat 32 (type_len * RB_ALIGNMENT))
        else rbLoad e 4 mem (q + 4)
      pure (length + RB_EVNT_HDR_SIZE)) := by
  obtain ⟨hlt, h29, h30, h31⟩ := rbTypeLen_data h
  have htype := rbTypeLen_header e hlt time_delta
  unfold rbEventLength rbEventDataLength
  simp only [hload, ok_bind, htype, if_neg h29, if_neg h30, if_neg h31]

/-- **The length read at an event is the event's.** -/
theorem rbEventLength_encode {ev : RbEvent} (h : LiesAt mem p (ev.encode e)) :
    rbEventLength e mem p = .ok (BitVec.ofNat 32 (ev.encode e).length) := by
  have hload := RbEvent.header_liesAt h
  have htype := rbTypeLen_header e ev.typeLen_lt ev.timeDelta
  have hdelta := rbTimeDelta_header e ev.typeLen_lt ev.timeDelta
  cases ev with
  | padding time_delta rest delta_ne fits =>
    have hnull : rbNullEvent e (rbHeader e RINGBUF_TYPE_PADDING time_delta) = false := by
      rw [rbNullEvent, decide_eq_false_iff_not, not_and]
      exact fun _ hzero => setWidth_ne_zero delta_ne (hdelta.symm.trans hzero)
    have harray := rbLoad_array (LiesAt.left (b := rest) (by rw [List.append_assoc]; exact h))
    have hlen : (RbEvent.encode e (.padding time_delta rest delta_ne fits)).length =
        4 + rest.length + 4 := by
      simp only [RbEvent.encode, List.length_append, Endian.length_ofWord]
      omega
    unfold rbEventLength
    rw [hload, ok_bind, htype, hlen, ← rbLength_add]
    simp only [RbEvent.typeLen, RbEvent.timeDelta, if_true, hnull, Bool.false_eq_true, if_false,
      harray, ok_bind]
    rfl
  | timeExtend time_delta array =>
    have hlen : (RbEvent.encode e (.timeExtend time_delta array)).length = 8 := by
      simp [RbEvent.encode]
    unfold rbEventLength
    rw [hload, ok_bind, htype, hlen]
    rfl
  | timeStamp time_delta array =>
    have hlen : (RbEvent.encode e (.timeStamp time_delta array)).length = 8 := by
      simp [RbEvent.encode]
    unfold rbEventLength
    rw [hload, ok_bind, htype, hlen]
    rfl
  | dataShort time_delta entry rest type_len le length =>
    have hlen : (RbEvent.encode e (.dataShort time_delta entry rest type_len le length)).length =
        type_len * 4 + 4 := by
      simp only [RbEvent.encode, List.length_append, Endian.length_ofWord,
        RbEvent.length_pktEntryBytes]
      omega
    have hne : type_len ≠ 0 := by omega
    rw [hlen, ← rbLength_add, rbEventLength_data le hload, if_pos hne]
    rfl
  | dataLong time_delta entry rest fits =>
    have hlen : (RbEvent.encode e (.dataLong time_delta entry rest fits)).length =
        4 + (15 + rest.length) + 4 := by
      simp only [RbEvent.encode, List.length_append, Endian.length_ofWord,
        RbEvent.length_pktEntryBytes]
      omega
    have harray := rbLoad_array
      (LiesAt.left (b := pktEntryBytes e entry ++ rest) (by rw [List.append_assoc]; exact h))
    rw [hlen, ← rbLength_add, rbEventLength_data (Nat.zero_le _) hload, if_neg (by simp), harray]
    rfl

/-- The body of the loop at a data event, whose entry may lie behind its length. -/
theorem rbTurn_data {type_len q : ℕ} {time_delta : BitVec 27} {entry : PktFilterEvent}
    (h : type_len ≤ RINGBUF_TYPE_DATA_TYPE_LEN_MAX)
    (hload : rbLoad e 4 mem p = .ok (rbHeader e type_len time_delta))
    (hentry : LiesAt mem q (pktEntryBytes e entry))
    (hq : (if type_len ≠ 0 then (p : ℤ) + 4 else (p : ℤ) + 8) = (q : ℕ)) :
    rbTurn e mem p ts skb =
      .ok (recordTurn e (.data (time_delta.setWidth 32) entry) ts skb) := by
  obtain ⟨hlt, h29, h30, h31⟩ := rbTypeLen_data h
  have htype := rbTypeLen_header e hlt time_delta
  have hdelta := rbTimeDelta_header e hlt time_delta
  unfold rbTurn ringBufferEventData
  simp only [hload, ok_bind, htype, hdelta, if_neg h29, if_neg h30, if_neg h31, hq, pure_eq_ok,
    recordTurn]
  cases skb.nestStart e LFW_NLA_PKT_FILTER_LOG with
  | mk container skb =>
    cases container with
    | none => rfl
    | some container =>
      simp only [pktFilterReads_eq hentry, nlaPutsRead_pure, ok_bind]

/-- **The body of the loop at an event** does what its record says. -/
theorem rbTurn_encode {ev : RbEvent} (h : LiesAt mem p (ev.encode e)) :
    rbTurn e mem p ts skb = .ok (recordTurn e ev.record ts skb) := by
  have hload := RbEvent.header_liesAt h
  have htype := rbTypeLen_header e ev.typeLen_lt ev.timeDelta
  have hdelta := rbTimeDelta_header e ev.typeLen_lt ev.timeDelta
  cases ev with
  | padding time_delta rest delta_ne fits =>
    unfold rbTurn
    rw [hload, ok_bind, htype, hdelta]
    rfl
  | timeExtend time_delta array =>
    unfold rbTurn
    rw [hload, ok_bind, htype, hdelta, rbLoad_array h]
    rfl
  | timeStamp time_delta array =>
    unfold rbTurn
    rw [hload, ok_bind, htype, hdelta, rbLoad_array h]
    rfl
  | dataShort time_delta entry rest type_len le length =>
    have hentry := (LiesAt.right h).left
    rw [Endian.length_ofWord] at hentry
    have hne : type_len ≠ 0 := by omega
    exact rbTurn_data le hload hentry (by rw [if_pos hne]; rfl)
  | dataLong time_delta entry rest fits =>
    have hentry := (LiesAt.right (LiesAt.right h)).left
    rw [Endian.length_ofWord, Endian.length_ofWord, Nat.add_assoc] at hentry
    exact rbTurn_data (Nat.zero_le _) hload hentry (by rw [if_neg (by simp)]; rfl)

/-! ## The loop -/

/-- The count of bytes as a `long`, as far as a page goes. -/
theorem toInt_ofNat_bits {n : ℕ} (h : 2 * n < 2 ^ l.bits) :
    (BitVec.ofNat l.bits n).toInt = n := by
  rw [BitVec.toInt_eq_toNat_of_lt]
  · rw [BitVec.toNat_ofNat, Nat.mod_eq_of_lt (by omega)]
  · rwa [BitVec.toNat_ofNat, Nat.mod_eq_of_lt (by omega)]

/-- A count that has not come to the commit word. -/
theorem count_lt {commit : BitVec l.bits} (h : (p : ℤ) < commit.toInt) :
    (BitVec.ofNat l.bits p).toInt = p ∧ (BitVec.ofNat l.bits p).slt commit = true := by
  have hmax := BitVec.two_mul_toInt_lt (x := commit)
  have hcast : 2 * (p : ℤ) < 2 ^ l.bits := by omega
  have hhere : (BitVec.ofNat l.bits p).toInt = p := toInt_ofNat_bits (by exact_mod_cast hcast)
  exact ⟨hhere, by rwa [BitVec.slt_iff_toInt_lt, hhere]⟩

/-- The step of the loop. -/
theorem ofNat_add_length (l : LongSize) {n : ℕ} (h : n < 2 ^ 32) (p : ℕ) :
    BitVec.ofNat l.bits p + (BitVec.ofNat 32 n).setWidth l.bits = BitVec.ofNat l.bits (p + n) := by
  have hword : (BitVec.ofNat 32 n).setWidth l.bits = BitVec.ofNat l.bits n := by
    apply BitVec.eq_of_toNat_eq
    rw [BitVec.toNat_setWidth, BitVec.toNat_ofNat, BitVec.toNat_ofNat, Nat.mod_eq_of_lt h]
  rw [hword, BitVec.ofNat_add]

/-- The offsets of events that lie one after another. -/
def rbOffsets (e : Endian) : ℕ → List RbEvent → List ℤ
  | _, [] => []
  | p, ev :: es => p :: rbOffsets e (p + (ev.encode e).length) es

theorem RbEvent.record_ne (ev : RbEvent) : ev.record ≠ .padding 0 := by
  cases ev with
  | padding time_delta rest delta_ne fits =>
    intro h
    exact setWidth_ne_zero delta_ne (RbRecord.padding.inj h)
  | timeExtend time_delta array => exact fun h => RbRecord.noConfusion h
  | timeStamp time_delta array => exact fun h => RbRecord.noConfusion h
  | dataShort time_delta entry rest type_len le length => exact fun h => RbRecord.noConfusion h
  | dataLong time_delta entry rest fits => exact fun h => RbRecord.noConfusion h

section Loop

variable {page : BufferDataPage l} {data_offset : ℤ} {bytes_read : BitVec l.bits} {fuel : ℕ}

theorem rbLoop_end (h : bytes_read.slt page.commit = false) (fuel : ℕ) :
    rbLoop e page data_offset fuel bytes_read ts skb = .ok ⟨[], some 0, bytes_read, skb⟩ := by
  unfold rbLoop
  rw [h]
  rfl

theorem rbLoop_turn (h : bytes_read.slt page.commit = true) :
    rbLoop e page data_offset (fuel + 1) bytes_read ts skb = (do
      let turn ← rbTurn e page.data (data_offset + bytes_read.toInt) ts skb
      if turn.1 then do
        let length ← rbEventLength e page.data (data_offset + bytes_read.toInt)
        let run ← rbLoop e page data_offset fuel (bytes_read + length.setWidth l.bits)
          turn.2.1 turn.2.2
        pure { run with visited := (data_offset + bytes_read.toInt) :: run.visited }
      else pure ⟨[data_offset + bytes_read.toInt], some (-EMSGSIZE), bytes_read, turn.2.2⟩) := by
  rw [rbLoop.eq_def]
  simp only [h, if_true]

end Loop

/-- **The loop over events in memory** returns and sends what the loop over their records
does; if that is through, it has visited each event and counted up to the end. -/
theorem rbLoop_encode {page : BufferDataPage l} {es : List RbEvent} {fuel : ℕ}
    (hdata : LiesAt page.data p (rbEncode e es))
    (hcommit : page.commit.toInt = (p + (rbEncode e es).length : ℕ)) (hfuel : es.length ≤ fuel) :
    ∃ run, rbLoop e page 0 fuel (BitVec.ofNat l.bits p) ts skb = .ok run ∧
      run.ret = some (processRecords e (es.map RbEvent.record) ts skb).1 ∧
      run.skb = (processRecords e (es.map RbEvent.record) ts skb).2 ∧
      (run.ret = some 0 → run.visited = rbOffsets e p es ∧ run.bytes_read = page.commit) := by
  have hlt : 2 * (p + (rbEncode e es).length) < 2 ^ l.bits := by
    have hmax := BitVec.two_mul_toInt_lt (x := page.commit)
    rw [hcommit] at hmax
    exact_mod_cast hmax
  induction es generalizing p fuel ts skb with
  | nil =>
    have hend : p + (rbEncode e []).length = p := rfl
    rw [hend] at hcommit hlt
    have hslt : (BitVec.ofNat l.bits p).slt page.commit = false := by
      rw [Bool.eq_false_iff, ne_eq, BitVec.slt_iff_toInt_lt, hcommit, toInt_ofNat_bits hlt]
      omega
    refine ⟨_, rbLoop_end hslt fuel, rfl, rfl, fun _ => ⟨rfl, ?_⟩⟩
    exact BitVec.eq_of_toInt_eq (by rw [toInt_ofNat_bits hlt, hcommit])
  | cons ev es ih =>
    obtain ⟨fuel, rfl⟩ : ∃ k, fuel = k + 1 := ⟨fuel - 1, by simp at hfuel; omega⟩
    have hcons : rbEncode e (ev :: es) = ev.encode e ++ rbEncode e es := rfl
    obtain ⟨hpos, hword⟩ := ev.length_encode (e := e)
    rw [hcons] at hdata
    rw [hcons, List.length_append, ← Nat.add_assoc] at hcommit hlt
    obtain ⟨hhere, hslt⟩ := count_lt (by omega : (p : ℤ) < page.commit.toInt)
    rw [rbLoop_turn hslt, hhere, zero_add, rbTurn_encode hdata.left, ok_bind, List.map_cons,
      processRecords_cons ev.record_ne]
    obtain ⟨goes, ts', skb'⟩ := recordTurn e ev.record ts skb
    cases goes with
    | true =>
      obtain ⟨run, hrun, hret, hskb, hend⟩ := @ih _ ts' skb' fuel hdata.right hcommit
        (by simpa using hfuel) hlt
      rw [rbEventLength_encode hdata.left]
      simp only [if_true, ok_bind, ofNat_add_length l hword, hrun]
      refine ⟨_, rfl, hret, hskb, fun hzero => ?_⟩
      obtain ⟨hvisited, hcount⟩ := hend hzero
      exact ⟨by rw [hvisited]; rfl, hcount⟩
    | false =>
      simp only [Bool.false_eq_true, if_false]
      refine ⟨_, rfl, rfl, rfl, fun hzero => ?_⟩
      exact absurd (Option.some.inj hzero) (by decide)

end Librefw
