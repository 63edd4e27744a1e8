import Librefw.Client.Base
import Librefw.Client.Model.Hcf

/-!
# What the client records and sends

An announcement is recorded as one row (`onMessageReceived_eq`): the
address's host bytes as the blob, its dotted quad as the text. A history
request carries the rows in the order of the query (`setIpHistory_eq`), and
the kernel reads back of each row the word the blob spells in host order
(`hcfHistoryEntries_setIpHistory`). That both ends use the host's byte order
is what makes the two meet.
-/

namespace Librefw

open MsgBuf

variable {e : Endian}

/-! ## Announcements -/

/-- The dotted quad of an address. -/
def dottedQuad (ip : U32) : String :=
  ".".intercalate ([24, 16, 8, 0].map fun k => toString ((ip >>> k).toNat % 256))

/-- The row an announcement is recorded as. -/
def HcfIpCtx.row (e : Endian) (ctx : HcfIpCtx) : HcfIpv4Row :=
  ⟨e.ofWord (w := 4) ctx.source_ip, dottedQuad ctx.source_ip, ctx.ttl.toNat, ctx.hc.toNat⟩

/-- The attributes of an announcement. -/
def HcfIpCtx.fields (e : Endian) (ctx : HcfIpCtx) : List Field :=
  [⟨LFW_NLA_HCF_IP, e.ofWord (w := 4) ctx.source_ip⟩, ⟨LFW_NLA_HCF_TTL, [ctx.ttl]⟩,
    ⟨LFW_NLA_HCF_HC, [ctx.hc]⟩]

theorem HcfIpCtx.fields_fit (ctx : HcfIpCtx) : ∀ f ∈ ctx.fields e, f.Fits := by
  intro f hf
  simp only [fields, List.mem_cons, List.not_mem_nil, or_false] at hf
  rcases hf with rfl | rfl | rfl <;>
    simp [Field.Fits, LFW_NLA_HCF_IP, LFW_NLA_HCF_TTL, LFW_NLA_HCF_HC]

/-- The bytes of an address in network order. -/
theorem ofWord_big (ip : U32) :
    Endian.big.ofWord (w := 4) ip = [24, 16, 8, 0].map fun k => BitVec.ofNat 8 (ip >>> k).toNat := by
  have hlt := ip.isLt
  simp only [Endian.ofWord, Endian.bytes, bytesLE, List.reverse_cons, List.reverse_nil,
    List.nil_append, List.cons_append, List.map_cons, List.map_nil, List.cons.injEq, and_true,
    BitVec.toNat_ushiftRight, Nat.shiftRight_eq_div_pow, Nat.div_div_eq_div_mul]
  norm_num

/-- **The text of an address is its dotted quad**, on either host. -/
theorem inetNtop_htonl (e : Endian) (ip : U32) :
    inetNtop (e.ofWord (w := 4) (htonl e ip)) = dottedQuad ip := by
  have hbytes : e.ofWord (w := 4) (htonl e ip) = Endian.big.ofWord (w := 4) ip :=
    Endian.ofWord_word e (w := 4) _ (Endian.length_ofWord .big (w := 4) ip)
  rw [hbytes, ofWord_big, inetNtop, List.map_map]
  rfl

theorem hcfLogNewIpMsg_eq (e : Endian) (ctx : HcfIpCtx) :
    hcfLogNewIpMsg e ctx = .ok ((genlmsgPut (GENL_HDRLEN + NLMSG_GOODSIZE) LFW_NL_CMD_HCF).bytes ++
      streamBytes e (ctx.fields e)) := by
  have hlen : (streamBytes e (ctx.fields e)).length = 24 := by
    rw [length_streamBytes]
    simp [HcfIpCtx.fields, Field.size, nlaAlign]
  have hfit : (genlmsgPut (GENL_HDRLEN + NLMSG_GOODSIZE) LFW_NL_CMD_HCF).bytes.length +
      (streamBytes e (ctx.fields e)).length ≤
        (genlmsgPut (GENL_HDRLEN + NLMSG_GOODSIZE) LFW_NL_CMD_HCF).cap := by
    rw [hlen]
    decide
  have hputs := nlaPuts_of_fits hfit
  have hbuild : hcfBuildLogMsg e ctx (genlmsgPut (GENL_HDRLEN + NLMSG_GOODSIZE) LFW_NL_CMD_HCF) =
      (0, { genlmsgPut (GENL_HDRLEN + NLMSG_GOODSIZE) LFW_NL_CMD_HCF with
        bytes := (genlmsgPut (GENL_HDRLEN + NLMSG_GOODSIZE) LFW_NL_CMD_HCF).bytes ++
          streamBytes e (ctx.fields e) }) := by
    unfold hcfBuildLogMsg
    unfold HcfIpCtx.fields at hputs
    rw [hputs]
    rfl
  simp only [hcfLogNewIpMsg, lfwMakeMulticastMsg, hbuild, ne_eq, not_true, if_false, pure_eq_ok]

/-- **An announcement is recorded as its row.** -/
theorem onMessageReceived_eq (ctx : HcfIpCtx) (room cmd : ℕ) (rest : List U8)
    (tab : HcfIpv4History) :
    onMessageReceived e (genlAttrs ((genlmsgPut room cmd).bytes ++ streamBytes e (ctx.fields e)) rest)
      tab = .ok (insertOrIgnore (ctx.row e) tab) := by
  unfold onMessageReceived parseArgs GenlInfo.attrs attrsOfType
  rw [all_genlAttrs ctx.fields_fit]
  simp only [HcfIpCtx.fields, seenAll]
  simp [seen_type, LFW_NLA_HCF_IP, LFW_NLA_HCF_TTL, LFW_NLA_HCF_HC, getU32_seen, getU8_seen,
    inetNtop_htonl, HcfIpCtx.row]

/-- **A sequence of announcements** is recorded row by row. -/
theorem hcfReceive_eq (rest : List U8) (announced : List HcfIpCtx) (tab : HcfIpv4History) :
    hcfReceive e rest announced tab =
      .ok (announced.foldl (fun tab ctx => insertOrIgnore (ctx.row e) tab) tab) := by
  unfold hcfReceive
  induction announced generalizing tab with
  | nil => rfl
  | cons ctx announced ih =>
    rw [List.foldlM_cons, hcfLogNewIpMsg_eq]
    simp only [onMessageReceived_eq, ok_bind]
    exact ih _

/-! ## The history request -/

/-- The attributes of one row. -/
def HcfIpv4Row.fields (row : HcfIpv4Row) : List Field :=
  [⟨LFW_NLA_HCF_HISTORY_IP, row.ip_addr.take 4⟩, ⟨LFW_NLA_HCF_HISTORY_HC, [BitVec.ofInt 8 row.hc]⟩,
    ⟨LFW_NLA_HCF_HISTORY_TTL, [BitVec.ofInt 8 row.ttl]⟩]

/-- The container of one row. -/
def HcfIpv4Row.entry (e : Endian) (row : HcfIpv4Row) : Field :=
  container e LFW_NLA_HCF_HISTORY row.fields

/-- The row as the kernel reads it. -/
def HcfIpv4Row.history (e : Endian) (row : HcfIpv4Row) : HcfHistoryEntry :=
  ⟨e.word 4 row.ip_addr, BitVec.ofInt 8 row.ttl, BitVec.ofInt 8 row.hc⟩

theorem HcfIpv4Row.fields_fit (row : HcfIpv4Row) : ∀ f ∈ row.fields, f.Fits := by
  intro f hf
  simp only [fields, List.mem_cons, List.not_mem_nil, or_false] at hf
  rcases hf with rfl | rfl | rfl
  · have hlen : (row.ip_addr.take 4).length ≤ 4 := List.length_take_le ..
    refine ⟨by simp only; omega, ?_⟩
    change LFW_NLA_HCF_HISTORY_IP < 2 ^ 16
    decide
  · simp [Field.Fits, LFW_NLA_HCF_HISTORY_HC]
  · simp [Field.Fits, LFW_NLA_HCF_HISTORY_TTL]

theorem HcfIpv4Row.size_entry {row : HcfIpv4Row} (h : row.ip_addr.length = 4) :
    (row.entry e).size = 28 := by
  rw [entry, size_container, length_streamBytes]
  simp [fields, Field.size, nlaAlign, h]

/-- A row is packed as its container. -/
theorem packRow_eq_packNested (row : HcfIpv4Row) (msg : MsgBuf) :
    packRow e row msg = packNested e LFW_NLA_HCF_HISTORY row.fields msg := rfl

/-- A row that fits is packed. -/
theorem packRow_eq {row : HcfIpv4Row} {msg : MsgBuf} (h : row.ip_addr.length = 4)
    (hfit : msg.bytes.length + 28 ≤ msg.cap) :
    packRow e row msg = .ok (true, { msg with bytes := msg.bytes ++ attrBytes e (row.entry e) }) := by
  have hsize : msg.bytes.length + (container e LFW_NLA_HCF_HISTORY row.fields).size ≤ msg.cap := by
    rw [← HcfIpv4Row.entry, HcfIpv4Row.size_entry h]
    exact hfit
  rw [packRow_eq_packNested, packNested_of_fits hsize]
  rfl

/-- Rows that fit are packed one after another. -/
theorem packRows_eq {rows : HcfIpv4History} {msg : MsgBuf}
    (h : ∀ row ∈ rows, row.ip_addr.length = 4)
    (hfit : msg.bytes.length + 28 * rows.length ≤ msg.cap) :
    packRows e rows msg = .ok (true,
      { msg with bytes := msg.bytes ++ streamBytes e (rows.map (HcfIpv4Row.entry e)) }) := by
  induction rows generalizing msg with
  | nil => simp [packRows, streamBytes]
  | cons row rows ih =>
    have hrow := h row (List.mem_cons_self ..)
    rw [List.length_cons] at hfit
    rw [packRows, packRow_eq hrow (by omega)]
    simp only [ok_bind, if_true]
    rw [ih (fun x hx => h x (List.mem_cons_of_mem _ hx)) ?_, List.append_assoc]
    · rfl
    · simp only [List.length_append, length_attrBytes, HcfIpv4Row.size_entry hrow]
      omega

/-- **The history request carries the rows**, in order, if they fit. -/
theorem setIpHistory_eq {rows : HcfIpv4History} {room : ℕ}
    (h : ∀ row ∈ rows, row.ip_addr.length = 4)
    (hfit : GENL_HDRLEN + 28 * rows.length ≤ room) :
    setIpHistory e room rows = .ok (some ((genlmsgPut room LFW_NL_CMD_SET_HCF_HISTORY).bytes ++
      streamBytes e (rows.map (HcfIpv4Row.entry e)))) := by
  have hroom : (genlmsgPut room LFW_NL_CMD_SET_HCF_HISTORY).bytes.length + 28 * rows.length ≤
      (genlmsgPut room LFW_NL_CMD_SET_HCF_HISTORY).cap := hfit
  unfold setIpHistory
  rw [packRows_eq h hroom]
  rfl

/-! ## What the kernel reads back -/

/-- An entry is parsed as the row it was packed from. -/
theorem hcfParseEntry_seen {row : HcfIpv4Row} (h : row.ip_addr.length = 4) (rest : List U8) :
    hcfParseEntry e (seen (row.entry e) rest) = row.history e := by
  have hword : e.ofWord (w := 4) (e.word 4 row.ip_addr) = row.ip_addr :=
    Endian.ofWord_word e (w := 4) _ h
  have hip : ∀ x rest, hcfParseField e x (seen ⟨LFW_NLA_HCF_HISTORY_IP, row.ip_addr⟩ rest) =
      { x with ip_addr := e.word 4 row.ip_addr } := by
    intro x rest
    have hget := getU32_seen e LFW_NLA_HCF_HISTORY_IP (e.word 4 row.ip_addr) rest
    rw [hword] at hget
    have htype : (seen ⟨LFW_NLA_HCF_HISTORY_IP, row.ip_addr⟩ rest).type =
        LFW_NLA_HCF_HISTORY_IP := by
      change LFW_NLA_HCF_HISTORY_IP % 2 ^ 14 = LFW_NLA_HCF_HISTORY_IP
      decide
    have hlen : (seen ⟨LFW_NLA_HCF_HISTORY_IP, row.ip_addr⟩ rest).len = 4 := by
      rw [seen_len, h]
    rw [hcfParseField, if_pos htype, if_pos hlen, hget]
  have hhc : ∀ x v rest, hcfParseField e x (seen ⟨LFW_NLA_HCF_HISTORY_HC, [v]⟩ rest) =
      { x with hc := v } := fun _ _ _ => rfl
  have httl : ∀ x v rest, hcfParseField e x (seen ⟨LFW_NLA_HCF_HISTORY_TTL, [v]⟩ rest) =
      { x with ttl := v } := fun _ _ _ => rfl
  have htake : row.ip_addr.take 4 = row.ip_addr := List.take_of_length_le (by omega)
  unfold hcfParseEntry HcfIpv4Row.entry
  rw [nested_container e row.fields_fit]
  simp only [HcfIpv4Row.fields, seenAll, htake, List.foldl_cons, List.foldl_nil, hip, hhc, httl]
  rfl

theorem HcfIpv4Row.entry_fits {row : HcfIpv4Row} (h : row.ip_addr.length = 4) :
    (row.entry e).Fits := by
  refine container_fits (by decide) ?_
  have hsize := size_entry (e := e) h
  unfold entry at hsize
  omega

/-- **The round trip of the history request.** The kernel reads the rows the
client packed. -/
theorem hcfHistoryEntries_rows {rows : HcfIpv4History} (h : ∀ row ∈ rows, row.ip_addr.length = 4)
    (room cmd : ℕ) (rest : List U8) :
    hcfHistoryEntries e (genlAttrs ((genlmsgPut room cmd).bytes ++
      streamBytes e (rows.map (HcfIpv4Row.entry e))) rest) = rows.map (HcfIpv4Row.history e) := by
  have hfits : ∀ f ∈ rows.map (HcfIpv4Row.entry e), f.Fits := by
    intro f hf
    obtain ⟨row, hrow, rfl⟩ := List.mem_map.1 hf
    exact HcfIpv4Row.entry_fits (h row hrow)
  have htype : ∀ f ∈ rows.map (HcfIpv4Row.entry e), f.type % 2 ^ 14 = LFW_NLA_HCF_HISTORY := by
    intro f hf
    obtain ⟨row, -, rfl⟩ := List.mem_map.1 hf
    exact container_type (by decide) _
  unfold hcfHistoryEntries
  rw [all_genlAttrs hfits, attrsOfType_seenAll_of_all htype]
  exact map_seenAll (fun row hrow => hcfParseEntry_seen (h row hrow)) rest

end Librefw
