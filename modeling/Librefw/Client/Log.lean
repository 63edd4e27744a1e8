import Librefw.Bogon.Lines
import Librefw.Client.Hcf
import Librefw.Client.Model.Log

/-!
# What is logged is what is shown

Whatever the module says reaches the listener: it prints the name of the
level, the second and the text, cut after 1023 bytes (`lfwLog_shown`). So
each prefix that is loaded is shown with its address, the bits of its path
and how many nodes it took, if its path is shorter than the array it is
written into (`logShown_line`).
-/

namespace Librefw

open MsgBuf

variable {e : Endian}

/-! ## One message -/

theorem LogCtx.fields_fit {pad : Bool} {ctx : LogCtx} (h : ctx.msg.chars.length ≤ 1023) :
    ∀ f ∈ ctx.fields e pad, f.Fits := by
  intro f hf
  unfold LogCtx.fields at hf
  simp only [List.cons_append, List.mem_cons, List.mem_append, List.not_mem_nil, or_false] at hf
  rcases hf with rfl | hf | rfl | rfl
  · simp [Field.Fits, LFW_NLA_LOG_LVL]
  · cases pad with
    | false => cases hf
    | true =>
      obtain rfl := List.mem_singleton.1 hf
      simp [Field.Fits, LFW_NLA_UNSPEC]
  · simp [Field.Fits, LFW_NLA_LOG_TS]
  · refine ⟨?_, by simp [LFW_NLA_LOG_MSG]⟩
    simp only [List.length_append, List.length_cons, List.length_nil]
    omega

theorem LogCtx.length_stream (e : Endian) (pad : Bool) {ctx : LogCtx}
    (h : ctx.msg.chars.length ≤ 1023) : (streamBytes e (ctx.fields e pad)).length ≤ 1052 := by
  have hlvl : (⟨LFW_NLA_LOG_LVL, [ctx.level]⟩ : Field).size = 8 := by simp [Field.size, nlaAlign]
  have hts : (⟨LFW_NLA_LOG_TS, e.ofWord (w := 8) ctx.timestamp⟩ : Field).size = 12 := by
    simp [Field.size, nlaAlign]
  have hmsg : (⟨LFW_NLA_LOG_MSG, ctx.msg.chars ++ [0]⟩ : Field).size ≤ 1028 := by
    simp only [Field.size, nlaAlign, List.length_append, List.length_cons, List.length_nil]
    omega
  have hpad : ((if pad then [⟨LFW_NLA_UNSPEC, []⟩] else [] : List Field).map Field.size).sum ≤ 4 := by
    cases pad <;> simp [Field.size, nlaAlign]
  rw [length_streamBytes, LogCtx.fields, List.map_append, List.map_cons, List.sum_append,
    List.sum_cons, List.map_cons, List.map_cons, List.sum_cons, List.sum_cons, List.map_nil,
    List.sum_nil]
  omega

/-- A message of the log is always built. -/
theorem lfwBuildLogMsg_eq (pad : Bool) {ctx : LogCtx} (h : ctx.msg.chars.length ≤ 1023) :
    lfwMakeMulticastMsg LFW_NL_CMD_LOG (lfwBuildLogMsg e pad ctx) NLMSG_GOODSIZE =
      .ok ((genlmsgPut (GENL_HDRLEN + NLMSG_GOODSIZE) LFW_NL_CMD_LOG).bytes ++
        streamBytes e (ctx.fields e pad)) := by
  have hlen := LogCtx.length_stream e pad h
  have hfit : (genlmsgPut (GENL_HDRLEN + NLMSG_GOODSIZE) LFW_NL_CMD_LOG).bytes.length +
      (streamBytes e (ctx.fields e pad)).length ≤
        (genlmsgPut (GENL_HDRLEN + NLMSG_GOODSIZE) LFW_NL_CMD_LOG).cap := by
    have hcap : (genlmsgPut (GENL_HDRLEN + NLMSG_GOODSIZE) LFW_NL_CMD_LOG).cap = 3780 := rfl
    rw [hcap, length_genlmsgPut]
    omega
  have hputs := nlaPuts_of_fits hfit
  simp only [lfwMakeMulticastMsg, lfwBuildLogMsg, hputs, ne_eq, not_true, if_false, pure_eq_ok]

/-! ## The listener -/

/-- What the listener reads of a message of the log, type by type. -/
theorem attrs_log (pad : Bool) {ctx : LogCtx} (h : ctx.msg.chars.length ≤ 1023) (room cmd : ℕ)
    (rest : List U8) :
    ∃ lvl ts msg,
      (genlAttrs ((genlmsgPut room cmd).bytes ++ streamBytes e (ctx.fields e pad)) rest).attrs e
        LFW_NLA_LOG_LVL = some (seen ⟨LFW_NLA_LOG_LVL, [ctx.level]⟩ lvl) ∧
      (genlAttrs ((genlmsgPut room cmd).bytes ++ streamBytes e (ctx.fields e pad)) rest).attrs e
        LFW_NLA_LOG_TS = some (seen ⟨LFW_NLA_LOG_TS, e.ofWord (w := 8) ctx.timestamp⟩ ts) ∧
      (genlAttrs ((genlmsgPut room cmd).bytes ++ streamBytes e (ctx.fields e pad)) rest).attrs e
        LFW_NLA_LOG_MSG = some (seen ⟨LFW_NLA_LOG_MSG, ctx.msg.chars ++ [0]⟩ msg) := by
  unfold GenlInfo.attrs attrsOfType
  rw [all_genlAttrs (LogCtx.fields_fit h)]
  cases pad <;>
    simp only [LogCtx.fields, seenAll, List.cons_append, List.nil_append, if_true,
      Bool.false_eq_true, if_false] <;>
    simp [seen_type, LFW_NLA_LOG_LVL, LFW_NLA_LOG_TS, LFW_NLA_LOG_MSG, LFW_NLA_UNSPEC]

/-- **A message of the log is shown** with the name of its level, its second and its text. -/
theorem logOnMessageReceived_eq (pad : Bool) {ctx : LogCtx} {level : String}
    (h : ctx.msg.chars.length ≤ 1023) (hlevel : levelStr[ctx.level.toNat]? = some level)
    (room cmd : ℕ) (rest : List U8) :
    logOnMessageReceived e
      (genlAttrs ((genlmsgPut room cmd).bytes ++ streamBytes e (ctx.fields e pad)) rest) =
      .ok (some (logLine level ctx.timestamp ctx.msg.chars)) := by
  obtain ⟨lvl, ts, msg, hlvl, hts, hmsg⟩ := attrs_log (e := e) pad h room cmd rest
  have htime : nlaGetU64 e (some (seen ⟨LFW_NLA_LOG_TS, e.ofWord (w := 8) ctx.timestamp⟩ ts)) =
      ctx.timestamp := by
    have hlen : 8 ≤ (seen ⟨LFW_NLA_LOG_TS, e.ofWord (w := 8) ctx.timestamp⟩ ts).len := by simp
    rw [nlaGetU64, if_pos hlen, getU64_seen]
  have htext : ∃ tail, (seen ⟨LFW_NLA_LOG_MSG, ctx.msg.chars ++ [0]⟩ msg).mem =
      ctx.msg.chars ++ 0 :: tail := ⟨_, by simp only [seen, List.append_assoc]; rfl⟩
  obtain ⟨tail, htail⟩ := htext
  unfold logOnMessageReceived parseArgs
  rw [hmsg, hts, hlvl, htime]
  simp only [htail, cstr_append, ok_bind, pure_eq_ok, getU8_seen, hlevel]

/-- **What is said is what is shown.** Whatever the format and its arguments
print, the listener shows it with the level and the second, cut after 1023
bytes; the module warns of the cut from 1025 bytes on. -/
theorem lfwLog_shown (e : Endian) (pad : Bool) (tv_sec : U64) {level : U8} {name : String}
    {fmt : List FmtPiece} {chars : List U8} (hlevel : levelStr[level.toNat]? = some name)
    (hfmt : Prints fmt chars) (rest : List U8) :
    ∃ sent, lfwLog e pad true tv_sec level fmt = .ok (decide (1024 < chars.length), .ok sent) ∧
      logOnMessageReceived e (genlAttrs sent rest) =
        .ok (some (logLine name tv_sec (chars.take 1023))) := by
  obtain ⟨buf, s, hprint, hbuf, hs⟩ := cstr_vsnprintf (by omega : 0 < 1024) hfmt
  have hshort : (⟨level, tv_sec, s⟩ : LogCtx).msg.chars.length ≤ 1023 := by
    show s.chars.length ≤ 1023
    rw [hs]
    exact List.length_take_le _ _
  have hshown := logOnMessageReceived_eq (e := e) pad hshort hlevel
    (GENL_HDRLEN + NLMSG_GOODSIZE) LFW_NL_CMD_LOG rest
  refine ⟨_, ?_, hs ▸ hshown⟩
  rw [lfwLog, if_pos rfl, hprint, ok_bind]
  simp only [hbuf, ok_bind, pure_eq_ok, lfwBuildLogMsg_eq pad hshort]

/-- What is said when the flag is set. -/
theorem lfwLog_shown_sample :
    ∃ sent, lfwLog .little false true 1700000000 LOGLEVEL_INFO (lfwUnderAttackFmt true) =
        .ok (decide (1024 < (asciiBytes "setting under attack\n" ++ []).length), .ok sent) ∧
      logOnMessageReceived .little (genlAttrs sent []) = .ok (some (logLine "INFO" 1700000000
        ((asciiBytes "setting under attack\n" ++ []).take 1023))) :=
  lfwLog_shown .little false 1700000000 rfl
    (Prints.text ⟨asciiBytes "setting under attack\n", by decide⟩ prints_nil) []

/-- What fits into the buffer is shown whole. -/
theorem logShown_short (e : Endian) (pad : Bool) (tv_sec : U64) {level : U8} {name : String}
    {fmt : List FmtPiece} {chars : List U8} (hlevel : levelStr[level.toNat]? = some name)
    (hfmt : Prints fmt chars) (hshort : chars.length ≤ 1023) (rest : List U8) :
    logShown e pad true tv_sec level fmt rest = .ok (some (logLine name tv_sec chars)) := by
  obtain ⟨sent, hsent, hshown⟩ := lfwLog_shown e pad tv_sec hlevel hfmt rest
  rw [List.take_of_length_le hshort] at hshown
  rw [logShown, hsent, ok_bind]
  exact hshown

/-! ## The line of a prefix -/

theorem asciiBytes_append (s t : String) : asciiBytes (s ++ t) = asciiBytes s ++ asciiBytes t := by
  rw [asciiBytes, String.toList_append, List.map_append]
  rfl

/-- The bits of a key, as characters. -/
def bitText (q : List Bool) : String := String.ofList (q.map fun b => if b then '1' else '0')

/-- What is shown of a prefix for which `n` nodes were created. -/
def bogonTold (address : U32) (key : List Bool) (n : ℕ) : String :=
  "done parsing ip " ++ dottedQuad address ++ ", used path " ++ bitText key ++ ", " ++
    toString n ++ " nodes created"

def LfwIpPrefix.told (e : Endian) (p : LfwIpPrefix) (n : ℕ) : String :=
  bogonTold (p.host e) (p.key e) n

/-- The text of four numerals with dots between them. -/
theorem asciiBytes_quad (a b c d : String) :
    asciiBytes (".".intercalate [a, b, c, d]) = asciiBytes a ++ asciiBytes "." ++ asciiBytes b ++
      asciiBytes "." ++ asciiBytes c ++ (asciiBytes "." ++ asciiBytes d) := by
  have htext : ".".intercalate [a, b, c, d] = a ++ "." ++ b ++ "." ++ c ++ "." ++ d := rfl
  simp only [htext, asciiBytes_append, List.append_assoc]

/-- The bytes of an address are printed as its dotted quad. -/
theorem print_ipv4 (e : Endian) (p : LfwIpPrefix) :
    ∃ s, (FmtPiece.ipv4 fun i => (e.ofWord (w := 4) p.ipPrefix).getD i 0).print =
      .ok s ∧ s.chars = asciiBytes (dottedQuad (p.host e)) := by
  have hbytes : e.ofWord (w := 4) p.ipPrefix = Endian.big.ofWord (w := 4) (p.host e) :=
    (Endian.ofWord_word .big (w := 4) _ (Endian.length_ofWord e (w := 4) _)).symm
  have hbyte : ∀ k : ℕ, asciiBytes (toString ((p.host e >>> k).toNat % 256)) =
      decimalBytes (BitVec.ofNat 8 (p.host e >>> k).toNat).toNat := by
    intro k
    rw [BitVec.toNat_ofNat]
    rfl
  have hquad : dottedQuad (p.host e) = ".".intercalate [toString ((p.host e >>> 24).toNat % 256),
      toString ((p.host e >>> 16).toNat % 256), toString ((p.host e >>> 8).toNat % 256),
      toString ((p.host e >>> 0).toNat % 256)] := rfl
  refine ⟨_, rfl, ?_⟩
  rw [hbytes, ofWord_big, hquad, asciiBytes_quad, hbyte, hbyte, hbyte, hbyte]
  rfl

/-- The array of a path: its bits, and zeros up to its end. -/
theorem charBytes_text (e : Endian) {p : LfwIpPrefix} (hp : p.ipPrefixLen.toNat ≤ 32) :
    charBytes (p.text e) =
      asciiBytes (bitText (p.key e)) ++ List.replicate (32 - p.ipPrefixLen.toNat) 0 := by
  have hroom : p.ipPrefixLen.toNat ≤ (List.replicate 32 '\x00').length := by
    rwa [List.length_replicate]
  have htext := lfwPathText_append (p.host e) (j := 0) List.length_nil hroom
  have hbits : (List.range' 0 p.ipPrefixLen.toNat).map (lfwBitChar (p.host e)) =
      (p.key e).map fun b => if b then '1' else '0' := by
    rw [LfwIpPrefix.key, ← ipBits_eq_ipPath, ipBits, List.map_map]
    rfl
  rw [List.nil_append, List.nil_append, List.drop_replicate, hbits] at htext
  rw [LfwIpPrefix.text, htext, charBytes, List.map_append, asciiBytes, bitText,
    String.toList_ofList, List.map_replicate]
  rfl

/-- A bit is not printed as a zero. -/
theorem bitText_terminated (q : List Bool) : 0 ∉ asciiBytes (bitText q) := by
  intro hmem
  rw [asciiBytes, bitText, String.toList_ofList, List.map_map, List.mem_map] at hmem
  obtain ⟨b, -, hb⟩ := hmem
  cases b <;> exact absurd hb (by decide)

theorem length_bitText (q : List Bool) : (asciiBytes (bitText q)).length = q.length := by
  rw [asciiBytes, bitText, String.toList_ofList, List.length_map, List.length_map]

theorem asciiBytes_three (a b c : String) :
    asciiBytes (a ++ b ++ c) = asciiBytes a ++ (asciiBytes b ++ (asciiBytes c ++ [])) := by
  simp only [asciiBytes_append, List.append_assoc, List.append_nil]

theorem asciiBytes_seven (a b c d f g h : String) :
    asciiBytes (a ++ b ++ c ++ d ++ f ++ g ++ h) = asciiBytes a ++ (asciiBytes b ++ (asciiBytes c ++
      (asciiBytes d ++ (asciiBytes f ++ (asciiBytes g ++ (asciiBytes h ++ [])))))) := by
  simp only [asciiBytes_append, List.append_assoc, List.append_nil]

/-- **The line of a prefix** is printed as what it tells. -/
theorem prints_line (e : Endian) (made : Finset (List Bool)) {p : LfwIpPrefix}
    (hp : p.ipPrefixLen.toNat ≤ 31) :
    Prints ((p.line e made).fmt e) (asciiBytes (p.told e (p.segments e \ made).card)) := by
  obtain ⟨addr, haddr, hquad⟩ := print_ipv4 e p
  have hstr : (FmtPiece.str (charBytes (p.text e))).print = .ok ⟨_, bitText_terminated (p.key e)⟩ := by
    obtain ⟨n, hn⟩ : ∃ n, 32 - p.ipPrefixLen.toNat = n + 1 :=
      ⟨31 - p.ipPrefixLen.toNat, by omega⟩
    rw [charBytes_text e (by omega), hn, List.replicate_succ]
    exact cstr_append ⟨_, bitText_terminated (p.key e)⟩ _
  have hprints := Prints.text ⟨asciiBytes "done parsing ip ", by decide⟩ (Prints.cons
    (Prints.text ⟨asciiBytes ", used path ", by decide⟩ (Prints.cons
      (Prints.text ⟨asciiBytes ", ", by decide⟩ (Prints.dec (p.segments e \ made).card
        (Prints.text ⟨asciiBytes " nodes created", by decide⟩ prints_nil))) hstr)) haddr)
  have hnum : decimalBytes (p.segments e \ made).card =
      asciiBytes (toString (p.segments e \ made).card) := rfl
  have htold : asciiBytes (p.told e (p.segments e \ made).card) = _ :=
    asciiBytes_seven "done parsing ip " (dottedQuad (p.host e)) ", used path " (bitText (p.key e))
      ", " (toString (p.segments e \ made).card) " nodes created"
  rw [hquad, hnum] at hprints
  rw [htold]
  exact hprints

/-- The string of a prefix as long as the array does not end in it. -/
theorem print_line_host (e : Endian) (made : Finset (List Bool)) {p : LfwIpPrefix}
    (hp : p.ipPrefixLen.toNat = 32) :
    fmtPrint ((p.line e made).fmt e) = .error (.outOfBounds 32) := by
  have htext := charBytes_text e hp.le
  rw [hp, Nat.sub_self, List.replicate_zero, List.append_nil] at htext
  have hlen : (charBytes (p.text e)).length = 32 := by
    rw [htext, length_bitText, LfwIpPrefix.key, length_ipPath, hp]
  have hzero : (0 : U8) ∉ charBytes (p.text e) := by
    rw [htext]
    exact bitText_terminated _
  have hstr : (FmtPiece.str (charBytes (p.text e))).print = .error (.outOfBounds 32) := by
    show cstr (charBytes (p.text e)) = _
    rw [cstr_of_notMem hzero, hlen]
  obtain ⟨addr, haddr, -⟩ := print_ipv4 e p
  unfold LfwBgLog.fmt LfwIpPrefix.line
  rw [fmtPrint, fmtPrint, haddr, fmtPrint, fmtPrint, hstr]
  rfl

theorem length_numeral {n k : ℕ} (hk : 0 < k) (h : n < 10 ^ k) :
    (asciiBytes (toString n)).length ≤ k := by
  rw [asciiBytes, List.length_map]
  exact (Nat.length_repr_le_iff hk).2 h

/-- What is told of a prefix fits into the buffer. -/
theorem length_told (e : Endian) {p : LfwIpPrefix} (hp : p.ipPrefixLen.toNat ≤ 31) {n : ℕ}
    (hn : n < 100) : (asciiBytes (p.told e n)).length ≤ 1023 := by
  have hbyte : ∀ k : ℕ, (asciiBytes (toString ((p.host e >>> k).toNat % 256))).length ≤ 3 :=
    fun k => length_numeral (by omega) (by omega)
  have hquad : (asciiBytes (dottedQuad (p.host e))).length ≤ 15 := by
    have htext : asciiBytes (dottedQuad (p.host e)) = _ := asciiBytes_quad
      (toString ((p.host e >>> 24).toNat % 256)) (toString ((p.host e >>> 16).toNat % 256))
      (toString ((p.host e >>> 8).toNat % 256)) (toString ((p.host e >>> 0).toNat % 256))
    have h₁ := hbyte 24
    have h₂ := hbyte 16
    have h₃ := hbyte 8
    have h₄ := hbyte 0
    have hdot : (asciiBytes ".").length = 1 := by decide
    rw [htext]
    simp only [List.length_append]
    omega
  have hbits : (asciiBytes (bitText (p.key e))).length ≤ 31 := by
    rw [length_bitText, LfwIpPrefix.key, length_ipPath]
    exact hp
  have hnum := length_numeral (by omega : 0 < 2) (by omega : n < 10 ^ 2)
  have htold : asciiBytes (p.told e n) = _ :=
    asciiBytes_seven "done parsing ip " (dottedQuad (p.host e)) ", used path " (bitText (p.key e))
      ", " (toString n) " nodes created"
  have htexts : (asciiBytes "done parsing ip ").length = 16 ∧ (asciiBytes ", used path ").length = 12 ∧
      (asciiBytes ", ").length = 2 ∧ (asciiBytes " nodes created").length = 14 := by decide
  rw [htold]
  simp only [List.length_append, List.length_nil]
  omega

/-- The line of a prefix is shown, unless its string does not end. -/
theorem logShown_line (e : Endian) (pad : Bool) (tv_sec : U64) (made : Finset (List Bool))
    {p : LfwIpPrefix} (hp : p.ipPrefixLen.toNat ≤ 32) (rest : List U8) :
    logShown e pad true tv_sec LOGLEVEL_INFO ((p.line e made).fmt e) rest =
      if p.ipPrefixLen.toNat = 32 then .error (.outOfBounds 32)
      else .ok (some (logLine "INFO" tv_sec (asciiBytes (p.told e (p.segments e \ made).card)))) := by
  by_cases hhost : p.ipPrefixLen.toNat = 32
  · rw [if_pos hhost, logShown, lfwLog, if_pos rfl, vsnprintf, print_line_host e _ hhost]
    rfl
  · have hp' : p.ipPrefixLen.toNat ≤ 31 := by omega
    -- a key of 31 bits at most has 32 initial segments
    have hfew : (p.segments e \ made).card < 100 := by
      have hle := Finset.card_le_card (Finset.sdiff_subset (s := p.segments e) (t := made))
      have hinits : (p.segments e).card ≤ _ := List.toFinset_card_le (p.key e).inits
      rw [List.length_inits, LfwIpPrefix.key, length_ipPath] at hinits
      omega
    rw [if_neg hhost]
    exact logShown_short e pad tv_sec rfl (prints_line e _ hp') (length_told e hp' hfew) rest

end Librefw
