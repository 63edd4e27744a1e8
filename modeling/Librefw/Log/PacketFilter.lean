import Librefw.Kernel.Nl
import Librefw.Log.Model.PacketFilter

/-!
# The message of a page

A page is sent as one container for each packet in it, with the packet's
own time (`flushPktFilterPage_eq`), as far as there is room for them
(`processRecords_room`). A container is eighteen words, of which
`pktWords` says what each one spells; the reader of a message that has lost
its place sees one of these where it expects the head of an attribute.
-/

namespace Librefw

open MsgBuf

variable {e : Endian}

/-- The packets of a page, with their times. -/
def rbPackets : List RbRecord → U64 → List (U64 × PktFilterEvent)
  | [], _ => []
  | .padding time_delta :: records, ts =>
    if time_delta = 0 then [] else rbPackets records (ts + time_delta.setWidth 64)
  | .timeExtend array time_delta :: records, ts =>
    rbPackets records (ts + rbEventTimeStamp array time_delta)
  | .timeStamp array time_delta :: records, ts =>
    rbPackets records (rbFixAbsTs (rbEventTimeStamp array time_delta) ts)
  | .data time_delta entry :: records, ts =>
    (ts + time_delta.setWidth 64, entry) :: rbPackets records (ts + time_delta.setWidth 64)

def RbPage.packets (page : RbPage) : List (U64 × PktFilterEvent) :=
  rbPackets page.records page.time_stamp

/-- The container of one packet. -/
def pktEntry (e : Endian) (x : U64 × PktFilterEvent) : Field :=
  container e LFW_NLA_PKT_FILTER_LOG (pktFilterFields e x.1 x.2)

theorem pktFilterFields_fit (e : Endian) (ts : U64) (entry : PktFilterEvent) :
    ∀ f ∈ pktFilterFields e ts entry, f.Fits := by
  intro f hf
  simp only [pktFilterFields, List.mem_cons, List.not_mem_nil, or_false] at hf
  rcases hf with rfl | rfl | rfl | rfl | rfl | rfl | rfl | rfl <;>
    simp [Field.Fits, LFW_NLA_PKT_FILTER_LOG_TS, LFW_NLA_PKT_FILTER_LOG_SRC_IP,
      LFW_NLA_PKT_FILTER_LOG_DEST_IP, LFW_NLA_PKT_FILTER_LOG_SRC_PORT,
      LFW_NLA_PKT_FILTER_LOG_DEST_PORT, LFW_NLA_PKT_FILTER_LOG_PROTO, LFW_NLA_PKT_FILTER_LOG_TTL,
      LFW_NLA_PKT_FILTER_LOG_ACTION]

theorem size_pktEntry (x : U64 × PktFilterEvent) : (pktEntry e x).size = 72 := by
  rw [pktEntry, size_container, length_streamBytes]
  simp [pktFilterFields, Field.size, nlaAlign]

theorem length_stream (e : Endian) (xs : List (U64 × PktFilterEvent)) :
    (streamBytes e (xs.map (pktEntry e))).length = 72 * xs.length := by
  rw [length_streamBytes]
  induction xs with
  | nil => rfl
  | cons x xs ih =>
    rw [List.map_cons, List.map_cons, List.sum_cons, ih, size_pktEntry, List.length_cons]
    omega

/-- The message with a container for each of these packets. -/
def pktSent (e : Endian) (skb : MsgBuf) (xs : List (U64 × PktFilterEvent)) : MsgBuf :=
  { skb with bytes := skb.bytes ++ streamBytes e (xs.map (pktEntry e)) }

theorem pktSent_nil (e : Endian) (skb : MsgBuf) : pktSent e skb [] = skb := by
  simp [pktSent, streamBytes]

theorem pktSent_cons (e : Endian) (skb : MsgBuf) (x : U64 × PktFilterEvent)
    (xs : List (U64 × PktFilterEvent)) :
    pktSent e { skb with bytes := skb.bytes ++ attrBytes e (pktEntry e x) } xs =
      pktSent e skb (x :: xs) := by
  simp [pktSent, streamBytes]

/-- **What is sent**, by how much room there is: all packets if they fit; else those that do,
with an error if then a container cannot be opened, and with none if it can. -/
theorem processRecords_room (records : List RbRecord) (ts : U64) (skb : MsgBuf) :
    processRecords e records ts skb =
      if 72 * (rbPackets records ts).length ≤ skb.cap - skb.bytes.length then
        (0, pktSent e skb (rbPackets records ts))
      else (if (skb.cap - skb.bytes.length) % 72 < 4 then -EMSGSIZE else 0,
        pktSent e skb ((rbPackets records ts).take ((skb.cap - skb.bytes.length) / 72))) := by
  induction records generalizing ts skb with
  | nil =>
    rw [rbPackets, if_pos (by simp), pktSent_nil]
    rfl
  | cons record records ih =>
    cases record with
    | padding time_delta =>
      rw [processRecords, rbPackets]
      by_cases hd : time_delta = 0
      · rw [if_pos hd, if_pos hd, if_pos (by simp), pktSent_nil]
      · rw [if_neg hd, if_neg hd, ih]
    | timeExtend array time_delta =>
      rw [processRecords, rbPackets, ih]
    | timeStamp array time_delta =>
      rw [processRecords, rbPackets, ih]
    | data time_delta entry =>
      set now := ts + time_delta.setWidth 64 with hnow
      have hpackets : rbPackets (.data time_delta entry :: records) ts =
          (now, entry) :: rbPackets records now := rfl
      have hsize : (container e LFW_NLA_PKT_FILTER_LOG (pktFilterFields e now entry)).size = 72 :=
        size_pktEntry (e := e) (now, entry)
      have hrest := ih now
      rw [processRecords, hpackets, List.length_cons]
      simp only [← hnow]
      generalize rbPackets records now = xs at hrest ⊢
      by_cases hfit : skb.bytes.length + 72 ≤ skb.cap
      · -- this one is sent
        obtain ⟨skb₁, skb₂, hstart, hputs, hend⟩ := nest_bytes (hsize.symm ▸ hfit)
        have hlen : (skb.bytes ++ attrBytes e (container e LFW_NLA_PKT_FILTER_LOG
            (pktFilterFields e now entry))).length = skb.bytes.length + 72 := by
          rw [List.length_append, length_attrBytes, hsize]
        have hdiv : (skb.cap - skb.bytes.length) / 72 =
            (skb.cap - (skb.bytes.length + 72)) / 72 + 1 := by omega
        have hmod : (skb.cap - skb.bytes.length) % 72 =
            (skb.cap - (skb.bytes.length + 72)) % 72 := by omega
        have hle : (72 * (xs.length + 1) ≤ skb.cap - skb.bytes.length) =
            (72 * xs.length ≤ skb.cap - (skb.bytes.length + 72)) := propext (by omega)
        simp only [hstart, hputs, hend, if_true, hdiv, hmod, hle, List.take_succ_cons]
        refine (hrest _).trans ?_
        simp only [hlen, ← pktSent_cons]
        rfl
      by_cases hopen : skb.bytes.length + 4 ≤ skb.cap
      · -- neither this one nor any other is sent
        obtain ⟨skb₁, skb₂, hstart, hputs, hcancel⟩ := nest_cancel hopen (hsize.symm ▸ hfit)
        have hdiv : (skb.cap - skb.bytes.length) / 72 = 0 := by omega
        simp only [hstart, hputs, Bool.false_eq_true, if_false, hcancel]
        rw [hrest, if_neg (by omega : ¬ 72 * (xs.length + 1) ≤ _),
          if_neg (by omega : ¬ (skb.cap - skb.bytes.length) % 72 < 4), hdiv, List.take_zero,
          List.take_zero]
        cases xs with
        | nil => rw [if_pos (by simp)]
        | cons x xs => rw [if_neg (by simp only [List.length_cons]; omega)]
      · have hdiv : (skb.cap - skb.bytes.length) / 72 = 0 := by omega
        simp only [nestStart_full (by omega : skb.cap < skb.bytes.length + 4)]
        rw [if_neg (by omega : ¬ 72 * (xs.length + 1) ≤ _), if_pos (by omega), hdiv, List.take_zero,
          pktSent_nil]

/-- **A page's containers**, one after another, if they fit. -/
theorem processRecords_eq {records : List RbRecord} {ts : U64} {skb : MsgBuf}
    (hfit : skb.bytes.length + 72 * (rbPackets records ts).length ≤ skb.cap) :
    processRecords e records ts skb = (0, pktSent e skb (rbPackets records ts)) := by
  rw [processRecords_room, if_pos (by omega)]

/-- **The message of a page.** -/
theorem flushPktFilterPage_eq {page : RbPage} (hfit : 72 * page.packets.length ≤ 8 * 1024) :
    flushPktFilterPage e page = .ok
      ((genlmsgPut (GENL_HDRLEN + 8 * 1024) LFW_NL_CMD_PKT_FILTER_LOG).bytes ++
        streamBytes e (page.packets.map (pktEntry e))) := by
  have hroom : (genlmsgPut (GENL_HDRLEN + 8 * 1024) LFW_NL_CMD_PKT_FILTER_LOG).bytes.length +
      72 * (rbPackets page.records page.time_stamp).length ≤
        (genlmsgPut (GENL_HDRLEN + 8 * 1024) LFW_NL_CMD_PKT_FILTER_LOG).cap := by
    change 4 + _ ≤ GENL_HDRLEN + _
    have h := hfit
    unfold RbPage.packets at h
    unfold GENL_HDRLEN
    omega
  unfold flushPktFilterPage lfwMakeMulticastMsg processRbPage
  simp only [processRecords_eq hroom, ne_eq, not_true, if_false, pure_eq_ok]
  rfl

/-! ## The words of a container -/

/-- The head of an attribute. -/
def attrHead (e : Endian) (len type : ℕ) : List U8 := e.bytes 2 len ++ e.bytes 2 type

/-- The words of a container. -/
def pktWords (e : Endian) (x : U64 × PktFilterEvent) : List (List U8) :=
  [attrHead e 72 (NLA_F_NESTED + LFW_NLA_PKT_FILTER_LOG),
    attrHead e 12 LFW_NLA_PKT_FILTER_LOG_TS, (e.ofWord (w := 8) x.1).take 4,
    (e.ofWord (w := 8) x.1).drop 4,
    attrHead e 8 LFW_NLA_PKT_FILTER_LOG_SRC_IP, e.ofWord (w := 4) x.2.source_ip,
    attrHead e 8 LFW_NLA_PKT_FILTER_LOG_DEST_IP, e.ofWord (w := 4) x.2.dest_ip,
    attrHead e 6 LFW_NLA_PKT_FILTER_LOG_SRC_PORT, e.ofWord (w := 2) x.2.source_port ++ [0, 0],
    attrHead e 6 LFW_NLA_PKT_FILTER_LOG_DEST_PORT, e.ofWord (w := 2) x.2.dest_port ++ [0, 0],
    attrHead e 5 LFW_NLA_PKT_FILTER_LOG_PROTO, [x.2.protocol, 0, 0, 0],
    attrHead e 5 LFW_NLA_PKT_FILTER_LOG_TTL, [x.2.ttl, 0, 0, 0],
    attrHead e 5 LFW_NLA_PKT_FILTER_LOG_ACTION, [x.2.action, 0, 0, 0]]

theorem length_of_mem_pktWords {x : U64 × PktFilterEvent} {w : List U8} (h : w ∈ pktWords e x) :
    w.length = 4 := by
  simp only [pktWords, List.mem_cons, List.not_mem_nil, or_false] at h
  rcases h with rfl | rfl | rfl | rfl | rfl | rfl | rfl | rfl | rfl | rfl | rfl | rfl | rfl | rfl |
    rfl | rfl | rfl | rfl <;> simp [attrHead]

/-- A container is its words. -/
theorem attrBytes_pktEntry (x : U64 × PktFilterEvent) :
    attrBytes e (pktEntry e x) = (pktWords e x).flatten := by
  have hlen : 4 + (streamBytes e (pktFilterFields e x.1 x.2)).length = 72 := by
    rw [← size_container e LFW_NLA_PKT_FILTER_LOG]
    exact size_pktEntry x
  have hpad : nlaAlign 72 = 72 := rfl
  have hts : ∀ l rest : List U8, l.take 4 ++ (l.drop 4 ++ rest) = l ++ rest := by
    intro l rest
    rw [← List.append_assoc, List.take_append_drop]
  rw [attrBytes, pktEntry, container]
  simp only [hlen, hpad]
  simp [pktFilterFields, streamBytes, attrBytes, pktWords, attrHead, nlaAlign, hts]

/-- From one of its words on, a container is the words from there on. -/
theorem drop_attrBytes_pktEntry (x : U64 × PktFilterEvent) (i : ℕ) :
    (attrBytes e (pktEntry e x)).drop (4 * i) = ((pktWords e x).drop i).flatten := by
  have hdrop : ∀ (ws : List (List U8)) (i : ℕ), (∀ w ∈ ws, w.length = 4) →
      ws.flatten.drop (4 * i) = (ws.drop i).flatten := by
    intro ws
    induction ws with
    | nil => simp
    | cons w ws ih =>
      intro i hws
      cases i with
      | zero => rfl
      | succ i =>
        have hw := hws w (List.mem_cons_self ..)
        rw [List.flatten_cons, List.drop_append, List.drop_of_length_le (by omega), List.nil_append,
          List.drop_succ_cons, ← ih i fun v hv => hws v (List.mem_cons_of_mem _ hv), hw]
        congr 1
  rw [attrBytes_pktEntry, hdrop _ _ fun w hw => length_of_mem_pktWords hw]

/-- **The words of a message**, from the `i`-th word of the `k`-th container on. -/
theorem exists_drop_stream {xs : List (U64 × PktFilterEvent)} {k i : ℕ} {x : U64 × PktFilterEvent}
    (hx : xs[k]? = some x) (hi : i < 18) (rest : List U8) :
    ∃ tail, (streamBytes e (xs.map (pktEntry e)) ++ rest).drop (72 * k + 4 * i) =
      ((pktWords e x).drop i).flatten ++ tail := by
  induction xs generalizing k with
  | nil => cases hx
  | cons y xs ih =>
    have hcons : streamBytes e ((y :: xs).map (pktEntry e)) =
        attrBytes e (pktEntry e y) ++ streamBytes e (xs.map (pktEntry e)) := rfl
    have hlen : (attrBytes e (pktEntry e y)).length = 72 := by
      rw [length_attrBytes, size_pktEntry]
    rw [hcons, List.append_assoc]
    cases k with
    | zero =>
      obtain rfl := Option.some.inj hx
      rw [Nat.mul_zero, Nat.zero_add, List.drop_append_of_le_length (by omega),
        drop_attrBytes_pktEntry]
      exact ⟨_, rfl⟩
    | succ k =>
      obtain ⟨tail, htail⟩ := ih (k := k) hx
      refine ⟨tail, ?_⟩
      rw [List.drop_append, List.drop_of_length_le (by omega), List.nil_append, hlen, ← htail]
      congr 1
      omega

end Librefw
