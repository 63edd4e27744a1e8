import Librefw.Client.Bogon

/-!
# Which lines make an entry

The reader makes an entry of whatever `stoi` can read a number from, after
the first slash or in the whole line: it checks neither the address nor
the range of the number, nor that the number ends the line
(`bogonLine_eq`). So a line is read as the grammar has it exactly if it is
in the grammar, or has no number there at all (`sendBogonList_grammar_iff`).
-/

namespace Librefw

open MsgBuf

variable {e : Endian} {uninit : ℕ → U32} {line : List Char} {entry : LfwIpPrefix} {n : U32}

/-! ## A line -/

/-- The text the number is read from: what follows the first slash, or the whole line. -/
def afterSlash (line : List Char) : List Char :=
  if '/' ∈ line then (line.dropWhile (· ≠ '/')).tail else line

/-- The text the address is read from, up to a NUL. -/
def beforeSlash (line : List Char) : List Char :=
  List.takeWhile (· ≠ '\x00') (line.takeWhile (· ≠ '/'))

/-- What the reader makes of a line with this number. -/
def bogonRead (e : Endian) (uninit : U32) (line : List Char) (number : ℤ) : U32 × U16 :=
  ((inetPton (beforeSlash line)).elim uninit (e.word 4), BitVec.ofInt 16 number)

theorem idxOf?_append_cons {c : Char} {pre : List Char} (h : c ∉ pre) (rest : List Char) :
    (pre ++ c :: rest).idxOf? c = some pre.length := by
  refine List.idxOf?_eq_some_iff.2 ⟨by simp, by simp, fun j hj heq => h ?_⟩
  rw [← heq]
  simp only [List.getElem_append_left hj]
  exact List.getElem_mem hj

/-- **The reader is `stoi`** on the text after the slash, whatever the address. -/
theorem bogonLine_eq (e : Endian) (uninit : U32) (line : List Char) :
    bogonLine e uninit line = (stoi (afterSlash line)).map (bogonRead e uninit line) := by
  -- where the code cuts the line
  have hcut : (line.idxOf? '/' = none ∧ afterSlash line = line ∧ line.takeWhile (· ≠ '/') = line) ∨
      ∃ pos, line.idxOf? '/' = some pos ∧ afterSlash line = line.drop (pos + 1) ∧
        line.takeWhile (· ≠ '/') = line.take pos := by
    unfold afterSlash
    by_cases hslash : '/' ∈ line
    · obtain ⟨pre, rest, rfl, hpre⟩ := List.eq_append_cons_of_mem hslash
      have hne : ∀ c ∈ pre, decide (c ≠ '/') = true := by
        intro c hc
        have hcne : c ≠ '/' := fun heq => hpre (heq ▸ hc)
        simpa using hcne
      refine Or.inr ⟨pre.length, idxOf?_append_cons hpre rest, ?_, ?_⟩
      · rw [if_pos hslash, List.dropWhile_append_of_pos hne]
        simp
      · rw [List.takeWhile_append_of_pos hne]
        simp
    · have hne : ∀ c ∈ line, decide (c ≠ '/') = true := by
        intro c hc
        have hcne : c ≠ '/' := fun heq => hslash (heq ▸ hc)
        simpa using hcne
      exact Or.inl ⟨by simpa using hslash, if_neg hslash, List.takeWhile_eq_self_iff.2 hne⟩
  unfold bogonLine bogonRead beforeSlash
  rcases hcut with ⟨hidx, hafter, hbefore⟩ | ⟨pos, hidx, hafter, hbefore⟩
  · simp only [hidx, hafter, hbefore]
    cases stoi line with
    | error x => rfl
    | ok number =>
      simp only [ok_bind, Except.map]
      cases inetPton (List.takeWhile (· ≠ '\x00') line) <;> rfl
  · simp only [hidx, hafter, hbefore]
    cases stoi (line.drop (pos + 1)) with
    | error x => rfl
    | ok number =>
      simp only [ok_bind, Except.map]
      cases inetPton (List.takeWhile (· ≠ '\x00') (line.take pos)) <;> rfl

/-! ## A turn of the loop -/

/-- The turn of the loop for a line, with room for an entry, appends this one and goes on. -/
def BogonAppends (e : Endian) (uninit : ℕ → U32) (n : U32) (line : List Char)
    (entry : LfwIpPrefix) : Prop :=
  ∀ lines msg, msg.bytes.length + 20 ≤ msg.cap →
    packPrefixes e uninit (line :: lines) n msg = packPrefixes e uninit lines (n + 1)
      { msg with bytes := msg.bytes ++ attrBytes e (bogonEntryField e entry) }

/-- The line is a dotted quad, a slash and a decimal of at most 32, and these are the
entry's. -/
def BogonDenotes (e : Endian) (line : List Char) (entry : LfwIpPrefix) : Prop :=
  ∃ l : BogonLine, line = l.text ∧ entry = l.entry e

/-- The reader reads the line as the grammar has it. -/
def BogonExact (e : Endian) (uninit : ℕ → U32) (n : U32) (line : List Char) : Prop :=
  ∀ entry, BogonAppends e uninit n line entry ↔ BogonDenotes e line entry

/-- The turn for a line that is read. -/
theorem bogonAppends_of_read {s_addr : U32} {len : U16}
    (h : bogonLine e (uninit n.toNat) line = .ok (s_addr, len)) :
    BogonAppends e uninit n line ⟨s_addr, len.setWidth 8⟩ := by
  intro lines msg hroom
  have hsize := size_bogonEntryField (e := e) ⟨s_addr, len.setWidth 8⟩
  rw [packPrefixes, h]
  simp only [Except.mapError, ok_bind]
  rw [packNested_of_fits (by rw [container_bogonFields]; omega), container_bogonFields]
  rfl

/-- A turn appends one entry. -/
theorem BogonAppends.unique {entry' : LfwIpPrefix} (h : BogonAppends e uninit n line entry)
    (h' : BogonAppends e uninit n line entry') : entry = entry' := by
  have heq := (h [] ⟨20, []⟩ (le_refl _)).symm.trans (h' [] ⟨20, []⟩ (le_refl _))
  exact bogonEntryField_inj (congrArg (fun r => r.2.bytes) (Except.ok.inj heq))

/-- No turn appends an entry for a line that is not read. -/
theorem not_bogonAppends {x : StdException} (h : bogonLine e (uninit n.toNat) line = .error x) :
    ¬ BogonAppends e uninit n line entry := by
  intro happ
  have hturn := happ [] ⟨20, []⟩ (le_refl _)
  simp only [packPrefixes, h] at hturn
  cases hturn

/-- A line of the grammar is read as what it denotes. -/
theorem BogonDenotes.appends (h : BogonDenotes e line entry) :
    BogonAppends e uninit n line entry := by
  obtain ⟨l, rfl, rfl⟩ := h
  have happ := bogonAppends_of_read (e := e) (n := n) (l.bogonLine_text (uninit n.toNat))
  have hfield : bogonEntryField e ⟨htonl e l.address, (BitVec.ofNat 16 (digitsVal l.decimal)).setWidth 8⟩ =
      bogonEntryField e (l.entry e) := by
    rw [← container_bogonFields, ← l.field_eq]
    rfl
  intro lines msg hroom
  rw [happ lines msg hroom, hfield]

/-- **Which lines are read as the grammar has it**: the lines of the grammar, and those
with no number after the first slash, or in the whole line, that `std::stoi` could read. -/
theorem sendBogonList_grammar_iff (e : Endian) (uninit : ℕ → U32) (n : U32) (line : List Char) :
    BogonExact e uninit n line ↔
      (∃ l : BogonLine, line = l.text) ∨ ¬ ∃ number, StoiReads (afterSlash line) number := by
  have hread := bogonLine_eq e (uninit n.toNat) line
  constructor
  · intro hexact
    by_cases hnum : ∃ number, StoiReads (afterSlash line) number
    · -- the line makes an entry, so it is to denote it
      obtain ⟨number, hnum⟩ := hnum
      rw [stoi_eq_ok_iff.2 hnum] at hread
      obtain ⟨l, hl, -⟩ := (hexact _).1 (bogonAppends_of_read hread)
      exact Or.inl ⟨l, hl⟩
    · exact Or.inr hnum
  · rintro (⟨l, hl⟩ | hnum) entry
    · have hself : BogonDenotes e line (l.entry e) := ⟨l, hl, rfl⟩
      refine ⟨fun happ => ?_, fun hden => hden.appends⟩
      rwa [happ.unique hself.appends]
    · cases hstoi : stoi (afterSlash line) with
      | ok number => exact absurd ⟨number, stoi_eq_ok_iff.1 hstoi⟩ hnum
      | error x =>
        rw [hstoi] at hread
        refine ⟨fun happ => absurd happ (not_bogonAppends hread), fun hden => ?_⟩
        exact absurd hden.appends (not_bogonAppends hread)

/-- A length out of range makes an entry of that length. -/
theorem sendBogonList_grammar_33 :
    ¬ ∀ (uninit : ℕ → U32) (n : U32) (line : List Char), BogonExact .little uninit n line := by
  intro hall
  have hread : bogonLine .little 0 "10.0.0.0/33".toList = .ok (0x0000000A#32, 33#16) := by
    decide +kernel
  obtain ⟨l, -, hentry⟩ := (hall (fun _ => 0) 0 _ _).1 (bogonAppends_of_read hread)
  have hlen := (l.entry_host (e := .little)).2
  rw [← hentry] at hlen
  have h33 : (33 : ℕ) = digitsVal l.decimal := hlen
  have := l.le_32
  omega

end Librefw
