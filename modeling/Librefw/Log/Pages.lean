import Librefw.Log.RingBuffer

/-!
# What a page is sent as

A page sends one container for each packet logged on it, with the clock at
its event: the page's time stamp, advanced by every event and restarted at
each absolute one (`rbClock`). This is so if the message has room for all
of them (`processRbPage_exact`). If it has not, some are lost: with an
error, if there is no room to open the next container, and else in silence
(`processRbPage_dropped_iff`). And of a page that lost events nothing is
sent at all: its flags are the sign of its length
(`processRbPage_lost_iff`).
-/

namespace Librefw

open MsgBuf

variable {e : Endian} {l : LongSize} {page : BufferDataPage l} {es : List RbEvent} {ts : U64}
variable {skb : MsgBuf}

/-! ## The clock -/

namespace RbEvent

/-- How far an event moves the clock. -/
def advance : RbEvent → ℕ
  | padding time_delta _ _ _ => time_delta.toNat
  | timeExtend time_delta array => array.toNat * 2 ^ 27 + time_delta.toNat
  | timeStamp _ _ => 0
  | dataShort time_delta _ _ _ _ _ => time_delta.toNat
  | dataLong time_delta _ _ _ => time_delta.toNat

/-- The absolute timestamp of an event. -/
def stamp : RbEvent → Option ℕ
  | timeStamp time_delta array => some (array.toNat * 2 ^ 27 + time_delta.toNat)
  | _ => none

/-- The packet logged in an event. -/
def entry : RbEvent → Option PktFilterEvent
  | dataShort _ entry _ _ _ _ => some entry
  | dataLong _ entry _ _ => some entry
  | _ => none

/-- The clock after an event. -/
def clock (ts : U64) (ev : RbEvent) : U64 :=
  ev.stamp.elim (ts + BitVec.ofNat 64 ev.advance) fun abs => rbFixAbsTs (BitVec.ofNat 64 abs) ts

end RbEvent

/-- The clock after a run of events. -/
def rbClock (ts : U64) (es : List RbEvent) : U64 := es.foldl RbEvent.clock ts

/-- The packet logged in the `i`-th event of a page, with the clock after the event. -/
def rbLoggedAt (ts : U64) (es : List RbEvent) (i : ℕ) : Option (U64 × PktFilterEvent) :=
  (es[i]?.bind RbEvent.entry).map fun entry => (rbClock ts (es.take (i + 1)), entry)

/-- The packets logged on a page, in order. -/
def rbLogged (ts : U64) (es : List RbEvent) : List (U64 × PktFilterEvent) :=
  (List.range es.length).filterMap (rbLoggedAt ts es)

/-- The two parts of a long timestamp. -/
theorem rbEventTimeStamp_eq (array : U32) (time_delta : BitVec 27) :
    rbEventTimeStamp array (time_delta.setWidth 32) =
      BitVec.ofNat 64 (array.toNat * 2 ^ 27 + time_delta.toNat) := by
  have ha := array.isLt
  have hd := time_delta.isLt
  apply BitVec.eq_of_toNat_eq
  rw [rbEventTimeStamp, BitVec.toNat_add, BitVec.toNat_shiftLeft, BitVec.toNat_setWidth,
    BitVec.toNat_setWidth, BitVec.toNat_setWidth, BitVec.toNat_ofNat, Nat.shiftLeft_eq]
  omega

/-- A restart keeps the 59 bits that the timestamp has. -/
theorem rbFixAbsTs_low (abs save_ts : U64) :
    (rbFixAbsTs abs save_ts).toNat % 2 ^ 59 = abs.toNat % 2 ^ 59 := by
  have hor : (abs ||| (save_ts &&& TS_MSB)).setWidth 59 = abs.setWidth 59 := by
    have hmsb : TS_MSB.setWidth 59 = 0#59 := by decide
    rw [BitVec.setWidth_or, BitVec.setWidth_and, hmsb, BitVec.and_zero, BitVec.or_zero]
  have hlow : (rbFixAbsTs abs save_ts).setWidth 59 = abs.setWidth 59 := by
    unfold rbFixAbsTs
    by_cases hsave : save_ts &&& TS_MSB ≠ 0
    · rw [if_pos hsave]
      simp only
      split
      · have hone : (1#64 <<< 59).setWidth 59 = 0#59 := by decide
        rw [BitVec.setWidth_add _ _ (by decide), hor, hone, BitVec.add_zero]
      · exact hor
    · rw [if_neg hsave]
  have h := congrArg BitVec.toNat hlow
  rwa [BitVec.toNat_setWidth, BitVec.toNat_setWidth] at h

/-- And all of it, while the clock has no more bits than that. -/
theorem rbFixAbsTs_of_lt {abs save_ts : U64} (h : save_ts.toNat < 2 ^ 59) :
    rbFixAbsTs abs save_ts = abs := by
  have hzero : save_ts &&& TS_MSB = 0 := by
    apply BitVec.eq_of_toNat_eq
    have hmsb : TS_MSB.toNat = 2 ^ 59 * 31 := by decide
    rw [BitVec.toNat_and, hmsb]
    refine Nat.eq_of_testBit_eq fun i => ?_
    rw [Nat.testBit_and, Nat.testBit_two_pow_mul]
    by_cases hi : i < 59
    · simp [Nat.not_le.2 hi]
    · have hbit : save_ts.toNat.testBit i = false :=
        Nat.testBit_lt_two_pow (lt_of_lt_of_le h (Nat.pow_le_pow_right (by omega) (by omega)))
      simp [hbit]
  rw [rbFixAbsTs, if_neg (by simpa using hzero)]

/-- Without absolute timestamps the advances add up. -/
theorem rbClock_append {pre post : List RbEvent} (h : ∀ ev ∈ post, ev.stamp = none) :
    (rbClock ts (pre ++ post)).toNat =
      ((rbClock ts pre).toNat + (post.map RbEvent.advance).sum) % 2 ^ 64 := by
  unfold rbClock
  rw [List.foldl_append]
  generalize pre.foldl RbEvent.clock ts = now
  induction post generalizing now with
  | nil => exact (Nat.mod_eq_of_lt now.isLt).symm
  | cons ev post ih =>
    have hev : RbEvent.clock now ev = now + BitVec.ofNat 64 ev.advance := by
      rw [RbEvent.clock, h ev (List.mem_cons_self ..)]
      rfl
    rw [List.foldl_cons, ih fun x hx => h x (List.mem_cons_of_mem _ hx), hev, List.map_cons,
      List.sum_cons, BitVec.toNat_add, BitVec.toNat_ofNat]
    omega

theorem rbLogged_cons (ts : U64) (ev : RbEvent) (es : List RbEvent) :
    rbLogged ts (ev :: es) =
      (ev.entry.map fun entry => (RbEvent.clock ts ev, entry)).toList ++ rbLogged (RbEvent.clock ts ev) es := by
  have htail : rbLogged (RbEvent.clock ts ev) es =
      ((List.range es.length).map Nat.succ).filterMap (rbLoggedAt ts (ev :: es)) := by
    rw [List.filterMap_map]
    rfl
  have hhead : rbLoggedAt ts (ev :: es) 0 =
      ev.entry.map fun entry => (RbEvent.clock ts ev, entry) := rfl
  rw [htail, rbLogged, List.length_cons, List.range_succ_eq_map]
  cases hentry : ev.entry with
  | none =>
    rw [hentry] at hhead
    rw [List.filterMap_cons_none hhead]
    rfl
  | some entry =>
    rw [hentry] at hhead
    rw [List.filterMap_cons_some hhead]
    rfl

/-- **The packets of a page's records** are those logged on it. -/
theorem rbPackets_record (es : List RbEvent) (ts : U64) :
    rbPackets (es.map RbEvent.record) ts = rbLogged ts es := by
  induction es generalizing ts with
  | nil => rfl
  | cons ev es ih =>
    have hwidth : ∀ d : BitVec 27, (d.setWidth 32).setWidth 64 = BitVec.ofNat 64 d.toNat := by
      intro d
      have hd := d.isLt
      apply BitVec.eq_of_toNat_eq
      rw [BitVec.toNat_setWidth, BitVec.toNat_setWidth, BitVec.toNat_ofNat]
      omega
    rw [rbLogged_cons, ← ih]
    cases ev with
    | padding time_delta rest delta_ne fits =>
      rw [List.map_cons, RbEvent.record, rbPackets, if_neg (setWidth_ne_zero delta_ne), hwidth]
      rfl
    | timeExtend time_delta array =>
      rw [List.map_cons, RbEvent.record, rbPackets, rbEventTimeStamp_eq]
      rfl
    | timeStamp time_delta array =>
      rw [List.map_cons, RbEvent.record, rbPackets, rbEventTimeStamp_eq]
      rfl
    | dataShort time_delta entry rest type_len le length =>
      rw [List.map_cons, RbEvent.record, rbPackets, hwidth]
      rfl
    | dataLong time_delta entry rest fits =>
      rw [List.map_cons, RbEvent.record, rbPackets, hwidth]
      rfl

/-- As many as there are data events. -/
theorem length_rbLogged (ts : U64) (es : List RbEvent) :
    (rbLogged ts es).length = (es.filterMap RbEvent.entry).length := by
  induction es generalizing ts with
  | nil => rfl
  | cons ev es ih =>
    rw [rbLogged_cons, List.length_append, ih]
    cases hentry : ev.entry with
    | none =>
      rw [List.filterMap_cons_none hentry]
      exact Nat.zero_add _
    | some entry =>
      rw [List.filterMap_cons_some hentry, List.length_cons]
      exact Nat.add_comm 1 _

/-! ## A page that holds its events -/

/-- The page holds these events: they are laid out in its data, and its commit word counts
their bytes. -/
structure RbHolds (e : Endian) (page : BufferDataPage l) (es : List RbEvent) : Prop where
  data : LiesAt page.data 0 (rbEncode e es)
  commit : page.commit.toInt = (rbEncode e es).length

/-- The run on a page that holds its events is the one over their records. -/
theorem RbHolds.processRbPage (h : RbHolds e page es) {fuel : ℕ} (hfuel : es.length ≤ fuel)
    (skb : MsgBuf) :
    ∃ run, page.processRbPage e 0 fuel skb = .ok run ∧
      run.ret = some (processRecords e (es.map RbEvent.record) page.time_stamp skb).1 ∧
      run.skb = (processRecords e (es.map RbEvent.record) page.time_stamp skb).2 ∧
      (run.ret = some 0 → run.visited = rbOffsets e 0 es ∧ run.bytes_read = page.commit) :=
  rbLoop_encode h.data (by rw [h.commit, Nat.zero_add]) hfuel

/-- The message with a container for each packet logged on a page. -/
def rbSent (e : Endian) (ts : U64) (es : List RbEvent) (skb : MsgBuf) : MsgBuf :=
  pktSent e skb (rbLogged ts es)

/-- **Decoding a page is exact.** On a page that holds its events, with room for a container
for each data event, the loop ends after as many turns as there are events, at the end of the
last, having visited the offset of each; and the message has one container for each data
event, in order, with its entry and the clock at it. The clock moves by what the events
advance it, modulo `2^64`, and an absolute timestamp sets its lower 59 bits, or all of it while
the others are zero. -/
theorem processRbPage_exact (h : RbHolds e page es)
    (hroom : skb.bytes.length + 72 * (es.filterMap RbEvent.entry).length ≤ skb.cap) :
    (∀ fuel, es.length ≤ fuel → page.processRbPage e 0 fuel skb =
      .ok ⟨rbOffsets e 0 es, some 0, page.commit, rbSent e page.time_stamp es skb⟩) ∧
    (∀ pre post, (∀ ev ∈ post, ev.stamp = none) →
      (rbClock page.time_stamp (pre ++ post)).toNat =
        ((rbClock page.time_stamp pre).toNat + (post.map RbEvent.advance).sum) % 2 ^ 64) ∧
    ∀ pre ev abs, ev.stamp = some abs →
      (rbClock page.time_stamp (pre ++ [ev])).toNat % 2 ^ 59 = abs ∧
      ((rbClock page.time_stamp pre).toNat < 2 ^ 59 →
        (rbClock page.time_stamp (pre ++ [ev])).toNat = abs) := by
  refine ⟨fun fuel hfuel => ?_, fun pre post hpost => rbClock_append hpost,
    fun pre ev abs hstamp => ?_⟩
  · obtain ⟨run, hrun, hret, hskb, hend⟩ := h.processRbPage hfuel skb
    rw [← length_rbLogged page.time_stamp, ← rbPackets_record] at hroom
    rw [processRecords_eq hroom] at hret hskb
    obtain ⟨hvisited, hcount⟩ := hend hret
    rw [rbPackets_record] at hskb
    rw [hrun]
    obtain ⟨visited, ret, bytes_read, skb'⟩ := run
    obtain rfl := hret
    obtain rfl := hskb
    obtain rfl := hvisited
    obtain rfl := hcount
    rfl
  · have habs : abs < 2 ^ 59 := by
      cases ev with
      | timeStamp time_delta array =>
        have ha := array.isLt
        have hd := time_delta.isLt
        obtain rfl := Option.some.inj hstamp
        omega
      | _ => cases hstamp
    have hclock : rbClock page.time_stamp (pre ++ [ev]) =
        rbFixAbsTs (BitVec.ofNat 64 abs) (rbClock page.time_stamp pre) := by
      unfold rbClock
      rw [List.foldl_append, List.foldl_cons, List.foldl_nil]
      show ev.stamp.elim _ _ = _
      rw [hstamp]
      rfl
    have hnat : (BitVec.ofNat 64 abs).toNat = abs := by
      rw [BitVec.toNat_ofNat]
      omega
    constructor
    · rw [hclock, rbFixAbsTs_low, hnat, Nat.mod_eq_of_lt habs]
    · intro hlow
      rw [hclock, rbFixAbsTs_of_lt hlow, hnat]

/-- A page of each kind of event. -/
def rbSampleEntry : PktFilterEvent := ⟨1, 2, 3, 4, 6, 64, 1⟩

def rbSampleEvents : List RbEvent :=
  [.dataShort 5 rbSampleEntry [0] 4 (by decide) (by decide), .timeExtend 1 1,
    .padding 7 [0, 0, 0, 0] (by decide) (by decide), .timeStamp 9 2,
    .dataLong 3 rbSampleEntry [0] (by decide)]

/-- The page that holds these events, with no flag. -/
def rbPageOf (l : LongSize) (e : Endian) (ts : U64) (es : List RbEvent) : BufferDataPage l :=
  ⟨ts, BitVec.ofNat l.bits (rbEncode e es).length, rbEncode e es⟩

theorem rbHolds_pageOf (ts : U64) (h : 2 * (rbEncode e es).length < 2 ^ l.bits) :
    RbHolds e (rbPageOf l e ts es) es :=
  ⟨⟨[], (List.append_nil _).symm⟩, toInt_ofNat_bits h⟩

theorem processRbPage_exact_sample :
    ∃ run, (rbPageOf .long32 .big 100 rbSampleEvents).processRbPage .big 0 5 (genlmsgPut 148 6) =
        .ok run ∧ run.visited = [0, 20, 28, 40, 48] ∧ run.ret = some 0 ∧
      run.skb = rbSent .big 100 rbSampleEvents (genlmsgPut 148 6) ∧
      (rbClock 100 (rbSampleEvents.take 4)).toNat = 2 * 2 ^ 27 + 9 := by
  have hholds : RbHolds .big (rbPageOf .long32 .big 100 rbSampleEvents) rbSampleEvents :=
    rbHolds_pageOf 100 (by decide)
  have hroom : (genlmsgPut 148 6).bytes.length +
      72 * (rbSampleEvents.filterMap RbEvent.entry).length ≤ (genlmsgPut 148 6).cap := by decide
  obtain ⟨hrun, -, hstamp⟩ := processRbPage_exact hholds hroom
  refine ⟨_, hrun 5 (by decide), by decide, rfl, rfl, ?_⟩
  exact (hstamp (rbSampleEvents.take 3) (.timeStamp 9 2) _ rfl).2 (by decide)

/-! ## A message that fills up -/

/-- Nothing of a page is dropped in silence: the loop ends, and if it returns zero every packet
of the page is in the message; if they do not fit, it returns an error. -/
def RbNoneDropped (e : Endian) (page : BufferDataPage l) (es : List RbEvent) (skb : MsgBuf) :
    Prop :=
  ∀ fuel, es.length ≤ fuel → ∃ run ret, page.processRbPage e 0 fuel skb = .ok run ∧
    run.ret = some ret ∧ (ret = 0 → run.skb = rbSent e page.time_stamp es skb) ∧
    (skb.cap - skb.bytes.length < 72 * (es.filterMap RbEvent.entry).length → ret < 0)

/-- What a page with too many packets returns, and what it sends. -/
theorem RbHolds.dropped (h : RbHolds e page es) (skb : MsgBuf)
    (hroom : skb.cap - skb.bytes.length < 72 * (es.filterMap RbEvent.entry).length) {fuel : ℕ}
    (hfuel : es.length ≤ fuel) :
    ∃ run, page.processRbPage e 0 fuel skb = .ok run ∧
      run.ret = some (if (skb.cap - skb.bytes.length) % 72 < 4 then -EMSGSIZE else 0) ∧
      run.skb = pktSent e skb
        ((rbLogged page.time_stamp es).take ((skb.cap - skb.bytes.length) / 72)) := by
  obtain ⟨run, hrun, hret, hskb, -⟩ := h.processRbPage hfuel skb
  rw [← length_rbLogged page.time_stamp] at hroom
  rw [processRecords_room, rbPackets_record, if_neg (by omega)] at hret hskb
  exact ⟨run, hrun, hret, hskb⟩

/-- **When nothing is dropped in silence**: if every packet fits, or if the packets that fit
leave no room to open another container. -/
theorem processRbPage_dropped_iff (h : RbHolds e page es) (skb : MsgBuf) :
    RbNoneDropped e page es skb ↔
      72 * (es.filterMap RbEvent.entry).length ≤ skb.cap - skb.bytes.length ∨
        (skb.cap - skb.bytes.length) % 72 < 4 := by
  by_cases hfit : 72 * (es.filterMap RbEvent.entry).length ≤ skb.cap - skb.bytes.length
  · refine iff_of_true (fun fuel hfuel => ?_) (Or.inl hfit)
    obtain ⟨run, hrun, hret, hskb, -⟩ := h.processRbPage hfuel skb
    rw [processRecords_room, rbPackets_record, length_rbLogged, if_pos hfit] at hret hskb
    exact ⟨run, 0, hrun, hret, fun _ => hskb, fun hlt => by omega⟩
  · constructor
    · intro hnone
      obtain ⟨run, ret, hrun, hret, -, herr⟩ := hnone es.length (le_refl _)
      obtain ⟨run', hrun', hret', -⟩ := h.dropped skb (by omega) (le_refl es.length)
      obtain rfl := Except.ok.inj (hrun.symm.trans hrun')
      have hneg := herr (by omega)
      rw [hret] at hret'
      rw [Option.some.inj hret'] at hneg
      by_cases hopen : (skb.cap - skb.bytes.length) % 72 < 4
      · exact Or.inr hopen
      · rw [if_neg hopen] at hneg
        omega
    · rintro (hcond | hopen) fuel hfuel
      · exact absurd hcond hfit
      · obtain ⟨run, hrun, hret, -⟩ := h.dropped skb (by omega) hfuel
        rw [if_pos hopen] at hret
        have herr : -EMSGSIZE < 0 := by decide
        exact ⟨run, _, hrun, hret, fun hzero => absurd hzero (by decide), fun _ => herr⟩

theorem processRbPage_dropped_iff_sample :
    RbNoneDropped .big (rbPageOf .long32 .big 100 rbSampleEvents) rbSampleEvents
      (genlmsgPut (GENL_HDRLEN + 8 * 1024) LFW_NL_CMD_PKT_FILTER_LOG) :=
  (processRbPage_dropped_iff (rbHolds_pageOf 100 (by decide)) _).2 (Or.inl (by decide))

/-- A page of 114 packets, which fills the message of eight KiB and leaves 56 bytes. -/
def rbFullEvents : List RbEvent :=
  List.replicate 114 (.dataShort 5 rbSampleEntry [0] 4 (by decide) (by decide))

theorem processRbPage_dropped_full :
    ∃ page : BufferDataPage .long64, RbHolds .little page rbFullEvents ∧
      ¬ RbNoneDropped .little page rbFullEvents
        (genlmsgPut (GENL_HDRLEN + 8 * 1024) LFW_NL_CMD_PKT_FILTER_LOG) := by
  have hlen : (rbEncode .little rbFullEvents).length = 2280 := by
    rw [rbEncode, rbFullEvents, List.length_flatMap, List.map_replicate, List.sum_replicate]
    decide
  have hpackets : (rbFullEvents.filterMap RbEvent.entry).length = 114 := by decide
  have hholds : RbHolds .little (rbPageOf .long64 .little 0 rbFullEvents) rbFullEvents :=
    rbHolds_pageOf 0 (by rw [hlen]; decide)
  refine ⟨_, hholds, fun hnone => ?_⟩
  set skb := genlmsgPut (GENL_HDRLEN + 8 * 1024) LFW_NL_CMD_PKT_FILTER_LOG with hskb
  have hcap : skb.cap - skb.bytes.length = 8192 := by decide
  obtain ⟨run, ret, hrun, hret, -, herr⟩ := hnone rbFullEvents.length (le_refl _)
  obtain ⟨run', hrun', hret', -⟩ := hholds.dropped skb (by omega)
    (le_refl rbFullEvents.length)
  obtain rfl := Except.ok.inj (hrun.symm.trans hrun')
  rw [hret, hcap, if_neg (by decide)] at hret'
  have hneg := herr (by omega)
  rw [Option.some.inj hret'] at hneg
  omega

/-! ## A page that lost events -/

/-- What `ring_buffer_read_page` says of events overwritten before they were read: nothing, for
there were none, that there were some, or also how many, behind the events. -/
inductive RbMissed where
  | none
  | events
  | stored
  deriving DecidableEq, Repr

/-- `RB_MISSED_EVENTS` and `RB_MISSED_STORED`, `1 << 31` and `1 << 30` of type `int`, as
`local_add` adds them to a `long`: the first keeps its sign. -/
def RbMissed.flags : RbMissed → ℤ
  | none => 0
  | events => -2 ^ 31
  | stored => 2 ^ 30 - 2 ^ 31

/-- The page holds these events, with the flags added to the commit word. -/
structure RbReturned (e : Endian) (page : BufferDataPage l) (es : List RbEvent)
    (missed : RbMissed) : Prop where
  data : LiesAt page.data 0 (rbEncode e es)
  small : (rbEncode e es).length < 2 ^ 30
  commit : page.commit = BitVec.ofInt l.bits ((rbEncode e es).length + missed.flags)

/-- The page, without the memory behind the bytes of its events. -/
def BufferDataPage.upTo (page : BufferDataPage l) (n : ℕ) : BufferDataPage l :=
  { page with data := page.data.take n }

/-- A page is handled like any other: the loop comes to its end on the bytes of its events
alone, and on the page it sends every packet. -/
def RbHandled (e : Endian) (page : BufferDataPage l) (es : List RbEvent) (skb : MsgBuf) : Prop :=
  (∃ fuel run ret, (page.upTo (rbEncode e es).length).processRbPage e 0 fuel skb = .ok run ∧
    run.ret = some ret) ∧
  ∃ fuel run, page.processRbPage e 0 fuel skb = .ok run ∧ run.ret = some 0 ∧
    run.skb = rbSent e page.time_stamp es skb

theorem LiesAt.take {mem a : List U8} (h : LiesAt mem 0 a) : mem.take a.length = a := by
  obtain ⟨rest, hrest⟩ := h
  rw [List.drop_zero] at hrest
  rw [hrest, List.take_left]

theorem RbMissed.flags_bounds (missed : RbMissed) :
    -2 ^ 31 ≤ missed.flags ∧ missed.flags ≤ 0 := by
  cases missed with
  | none => decide
  | events => decide
  | stored => decide

/-- The commit word, as the loop reads it. -/
theorem RbReturned.commit_toInt {missed : RbMissed} (h : RbReturned e page es missed) :
    page.commit.toInt = (rbEncode e es).length + missed.flags := by
  have hsmall := h.small
  obtain ⟨hlow, hhigh⟩ := missed.flags_bounds
  have hword : -2 ^ (l.bits - 1) ≤ ((rbEncode e es).length + missed.flags : ℤ) ∧
      ((rbEncode e es).length + missed.flags : ℤ) < 2 ^ (l.bits - 1) := by
    cases l with
    | long32 =>
      show (-2 ^ 31 : ℤ) ≤ _ ∧ _ < (2 ^ 31 : ℤ)
      omega
    | long64 =>
      show (-2 ^ 63 : ℤ) ≤ _ ∧ _ < (2 ^ 63 : ℤ)
      omega
  have hpos : 0 < l.bits := by cases l <;> decide
  rw [h.commit, BitVec.toInt_ofInt_eq_self hpos hword.1 hword.2]

/-- Without a flag the page is like any other, as are the bytes of its events alone. -/
theorem RbReturned.holds (h : RbReturned e page es .none) :
    RbHolds e page es ∧ RbHolds e (page.upTo (rbEncode e es).length) es := by
  have hcommit : page.commit.toInt = (rbEncode e es).length := by
    rw [h.commit_toInt]
    exact Int.add_zero _
  refine ⟨⟨h.data, hcommit⟩, ⟨⟨[], ?_⟩, hcommit⟩⟩
  rw [List.append_nil]
  exact h.data.take

/-- With one it counts fewer than no bytes. -/
theorem RbReturned.commit_neg {missed : RbMissed} (h : RbReturned e page es missed)
    (hne : missed ≠ .none) : page.commit.toInt < 0 := by
  have hsmall := h.small
  have hflags : missed.flags ≤ -2 ^ 30 := by
    cases missed with
    | none => exact absurd rfl hne
    | events => decide
    | stored => decide
  rw [h.commit_toInt]
  omega

/-- So the loop over such a page takes no turn. -/
theorem RbReturned.ends {missed : RbMissed} (h : RbReturned e page es missed)
    (hne : missed ≠ .none) {page' : BufferDataPage l} (hsame : page'.commit = page.commit)
    (fuel : ℕ) : page'.processRbPage e 0 fuel skb = .ok ⟨[], some 0, 0, skb⟩ := by
  have hneg := h.commit_neg hne
  refine rbLoop_end ?_ fuel
  have hzero : (0 : BitVec l.bits).toInt = 0 := BitVec.toInt_zero
  rw [Bool.eq_false_iff, ne_eq, BitVec.slt_iff_toInt_lt, hsame, hzero]
  omega

/-- There is a packet to send, or there is none. -/
theorem rbSent_eq_iff : rbSent e ts es skb = skb ↔ ∀ ev ∈ es, ev.entry = none := by
  constructor
  · intro h
    have hlen := congrArg (fun msg => msg.bytes.length) h
    have hzero : (rbLogged ts es).length = 0 := by
      simp only [rbSent, pktSent, List.length_append, length_stream] at hlen
      omega
    rw [length_rbLogged, List.length_eq_zero_iff, List.filterMap_eq_nil_iff] at hzero
    exact hzero
  · intro h
    have hnil : rbLogged ts es = [] := by
      rw [← List.length_eq_zero_iff, length_rbLogged, List.length_eq_zero_iff,
        List.filterMap_eq_nil_iff]
      exact h
    rw [rbSent, hnil, pktSent_nil]

/-- **Which pages with lost events are handled.** Those without a packet: a flag makes the
count negative, and nothing of the page is sent. -/
theorem processRbPage_lost_iff {missed : RbMissed} (h : RbReturned e page es missed)
    (hroom : skb.bytes.length + 72 * (es.filterMap RbEvent.entry).length ≤ skb.cap) :
    RbHandled e page es skb ↔ missed = .none ∨ ∀ ev ∈ es, ev.entry = none := by
  by_cases hne : missed = .none
  · subst hne
    refine iff_of_true ?_ (Or.inl rfl)
    obtain ⟨hpage, hevents⟩ := h.holds
    refine ⟨⟨es.length, _, 0, (processRbPage_exact hevents hroom).1 _ (le_refl _), rfl⟩, ?_⟩
    exact ⟨es.length, _, (processRbPage_exact hpage hroom).1 _ (le_refl _), rfl, rfl⟩
  · constructor
    · rintro ⟨-, fuel, run, hrun, -, hskb⟩
      obtain rfl := Except.ok.inj ((h.ends hne rfl fuel).symm.trans hrun)
      exact Or.inr (rbSent_eq_iff.1 hskb.symm)
    · rintro (hnone | hempty)
      · exact absurd hnone hne
      · refine ⟨⟨0, _, 0, h.ends hne rfl 0, rfl⟩, 0, _, h.ends hne rfl 0, rfl, ?_⟩
        exact (rbSent_eq_iff.2 hempty).symm

/-- The page as it is returned when events were lost. -/
def rbLostPage (l : LongSize) (missed : RbMissed) (es : List RbEvent) : BufferDataPage l :=
  ⟨0, BitVec.ofInt l.bits ((rbEncode .little es).length + missed.flags), rbEncode .little es⟩

theorem rbReturned_lostPage (l : LongSize) (missed : RbMissed) {es : List RbEvent}
    (h : (rbEncode .little es).length < 2 ^ 30) :
    RbReturned .little (rbLostPage l missed es) es missed :=
  ⟨⟨[], (List.append_nil _).symm⟩, h, rfl⟩

theorem processRbPage_lost_iff_sample :
    RbHandled .little (rbLostPage .long64 .none rbSampleEvents) rbSampleEvents
        (genlmsgPut (GENL_HDRLEN + 8 * 1024) LFW_NL_CMD_PKT_FILTER_LOG) ∧
      RbHandled .little (rbLostPage .long64 .stored [.timeExtend 1 1, .timeStamp 9 2])
        [.timeExtend 1 1, .timeStamp 9 2]
        (genlmsgPut (GENL_HDRLEN + 8 * 1024) LFW_NL_CMD_PKT_FILTER_LOG) :=
  ⟨(processRbPage_lost_iff (rbReturned_lostPage _ _ (by decide)) (by decide)).2 (Or.inl rfl),
    (processRbPage_lost_iff (rbReturned_lostPage _ _ (by decide)) (by decide)).2
      (Or.inr (by simp [RbEvent.entry]))⟩

/-- With a flag on it, nothing of the page of the sample is sent. -/
theorem processRbPage_lost_long64 :
    RbReturned .little (rbLostPage .long64 .events rbSampleEvents) rbSampleEvents .events ∧
      ¬ RbHandled .little (rbLostPage .long64 .events rbSampleEvents) rbSampleEvents
        (genlmsgPut (GENL_HDRLEN + 8 * 1024) LFW_NL_CMD_PKT_FILTER_LOG) := by
  have hreturned := rbReturned_lostPage .long64 .events
    (by decide : (rbEncode .little rbSampleEvents).length < _)
  refine ⟨hreturned, ?_⟩
  rintro ⟨-, fuel, run, hrun, -, hskb⟩
  obtain rfl := Except.ok.inj ((hreturned.ends (by decide) rfl fuel).symm.trans hrun)
  exact absurd (rbSent_eq_iff.1 hskb.symm) (by decide)

end Librefw
