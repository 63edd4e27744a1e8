import Librefw.Common.Mem
import Librefw.Common.Words
import Mathlib.Data.List.TakeWhile

/-!
# Strings that end in a zero

A C string is the bytes of a memory up to the first zero (`cstr`); a memory
without one is read past its end. `vsnprintf` lays out a format and its
arguments in a buffer, cut where the buffer ends, and the string read back
from the buffer is what was printed up to the cut (`cstr_vsnprintf`).
-/

namespace Librefw

/-- The bytes of a string before its zero. -/
structure CString where
  chars : List U8
  terminated : 0 ∉ chars

/-- The bytes of a text. -/
def asciiBytes (s : String) : List U8 := s.toList.map fun c => BitVec.ofNat 8 c.toNat

/-- A decimal numeral. -/
def decimalBytes (n : ℤ) : List U8 := asciiBytes (toString n)

/-- The string at the front of a memory. -/
def cstr (mem : List U8) : Except Fault CString :=
  if mem.all (· ≠ 0) then throw (.outOfBounds mem.length)
  else pure ⟨mem.takeWhile (· ≠ 0), fun h => by simpa using List.mem_takeWhile_imp h⟩

namespace CString

variable {s t : CString}

@[ext] theorem ext (h : s.chars = t.chars) : s = t := by
  obtain ⟨s, hs⟩ := s
  obtain ⟨t, ht⟩ := t
  obtain rfl : s = t := h
  rfl

/-- One string after another. -/
def append (s t : CString) : CString where
  chars := s.chars ++ t.chars
  terminated h := (List.mem_append.1 h).elim s.terminated t.terminated

/-- The first bytes of a string. -/
def take (s : CString) (n : ℕ) : CString where
  chars := s.chars.take n
  terminated h := s.terminated (List.mem_of_mem_take h)

end CString

/-- **A string is read back**, whatever follows its zero. -/
theorem cstr_append (s : CString) (rest : List U8) : cstr (s.chars ++ 0 :: rest) = .ok s := by
  have hmem : ¬ (s.chars ++ 0 :: rest).all (· ≠ 0) = true := by simp
  have hall : ∀ b ∈ s.chars, decide (b ≠ 0) = true := by
    intro b hb
    exact decide_eq_true fun h => s.terminated (h ▸ hb)
  unfold cstr
  rw [if_neg hmem, pure_eq_ok, Except.ok.injEq]
  refine CString.ext ?_
  show (s.chars ++ 0 :: rest).takeWhile _ = s.chars
  rw [List.takeWhile_append_of_pos hall, List.takeWhile_cons_of_neg (by simp), List.append_nil]

/-- A memory without a zero is read past its end. -/
theorem cstr_of_notMem {mem : List U8} (h : 0 ∉ mem) : cstr mem = .error (.outOfBounds mem.length) := by
  have hall : mem.all (· ≠ 0) = true := by
    refine List.all_eq_true.2 fun b hb => decide_eq_true ?_
    intro hzero
    exact h (hzero ▸ hb)
  rw [cstr, if_pos hall, throw_eq_error]

/-! ## Numerals -/

theorem asciiBytes_of_digits {s : String} (h : ∀ c ∈ s.toList, c.isDigit = true ∨ c = '-') :
    0 ∉ asciiBytes s := by
  intro hmem
  obtain ⟨c, hc, hzero⟩ := List.mem_map.1 hmem
  have hlow : c.toNat % 256 = 0 := by simpa using congrArg BitVec.toNat hzero
  rcases h c hc with hdigit | rfl
  · have hrange : 48 ≤ c.toNat ∧ c.toNat ≤ 57 := Char.isDigit_iff_toNat.1 hdigit
    omega
  · exact absurd hlow (by decide)

theorem decimalBytes_terminated (n : ℤ) : 0 ∉ decimalBytes n := by
  have hdigit : ∀ (k : ℕ), ∀ c ∈ k.repr.toList, c.isDigit = true ∨ c = '-' := by
    intro k c hc
    rw [Nat.toList_repr] at hc
    exact Or.inl (Nat.isDigit_of_mem_toDigits (by omega) (by omega) hc)
  refine asciiBytes_of_digits ?_
  cases n with
  | ofNat k => exact hdigit k
  | negSucc k =>
    intro c hc
    have hc' : c ∈ ("-" ++ (k + 1).repr).toList := hc
    rw [String.toList_append, List.mem_append] at hc'
    rcases hc' with hminus | hc'
    · exact Or.inr (by simpa using hminus)
    · exact hdigit _ c hc'

/-! ## Formats -/

/-- A piece of a format, with the argument it takes: a text, `%s` with the memory its argument
points at, `%d` or `%ld`, and `%pI4` with the four bytes its argument points at. -/
inductive FmtPiece where
  | text (s : CString)
  | str (mem : List U8)
  | dec (n : ℤ)
  | ipv4 (addr : Fin 4 → U8)

/-- A numeral as a string. -/
def CString.decimal (n : ℤ) : CString := ⟨decimalBytes n, decimalBytes_terminated n⟩

def CString.dot : CString := ⟨asciiBytes ".", by decide⟩

/-- What a piece prints. -/
def FmtPiece.print : FmtPiece → Except Fault CString
  | .text s => pure s
  | .str mem => cstr mem
  | .dec n => pure (.decimal n)
  | .ipv4 addr => pure <|
    (((((CString.decimal (addr 0).toNat).append .dot).append (.decimal (addr 1).toNat)).append
      .dot).append (.decimal (addr 2).toNat)).append (CString.dot.append (.decimal (addr 3).toNat))

/-- What a format prints. -/
def fmtPrint : List FmtPiece → Except Fault CString
  | [] => pure ⟨[], List.not_mem_nil⟩
  | piece :: fmt => do
    let s ← piece.print
    let t ← fmtPrint fmt
    pure (s.append t)

/-- A format prints these bytes. -/
def Prints (fmt : List FmtPiece) (chars : List U8) : Prop :=
  ∃ s, fmtPrint fmt = .ok s ∧ s.chars = chars

theorem prints_nil : Prints [] [] := ⟨_, rfl, rfl⟩

/-- A format prints what its pieces print. -/
theorem Prints.cons {piece : FmtPiece} {s : CString} {fmt : List FmtPiece} {chars : List U8}
    (h : Prints fmt chars) (hpiece : piece.print = .ok s) :
    Prints (piece :: fmt) (s.chars ++ chars) := by
  obtain ⟨t, ht, rfl⟩ := h
  exact ⟨s.append t, by rw [fmtPrint, hpiece, ht]; rfl, rfl⟩

theorem Prints.text (s : CString) {fmt : List FmtPiece} {chars : List U8} (h : Prints fmt chars) :
    Prints (.text s :: fmt) (s.chars ++ chars) := h.cons rfl

theorem Prints.dec (n : ℤ) {fmt : List FmtPiece} {chars : List U8} (h : Prints fmt chars) :
    Prints (.dec n :: fmt) (decimalBytes n ++ chars) := h.cons (s := .decimal n) rfl

/-- `vsnprintf` into a zeroed buffer of `size` bytes: the length of all there is to print, and
the buffer. -/
def vsnprintf (size : ℕ) (fmt : List FmtPiece) : Except Fault (ℕ × List U8) := do
  let s ← fmtPrint fmt
  let out := s.chars.take (size - 1)
  pure (s.chars.length, out ++ List.replicate (size - out.length) 0)

/-- **What was printed is read back**, up to the last byte but one of the buffer. -/
theorem cstr_vsnprintf {size : ℕ} (hsize : 0 < size) {fmt : List FmtPiece} {chars : List U8}
    (h : Prints fmt chars) :
    ∃ buf s, vsnprintf size fmt = .ok (chars.length, buf) ∧ cstr buf = .ok s ∧
      s.chars = chars.take (size - 1) := by
  obtain ⟨s, hprint, rfl⟩ := h
  have hlen : (s.chars.take (size - 1)).length ≤ size - 1 := List.length_take_le _ _
  obtain ⟨k, hk⟩ : ∃ k, size - (s.chars.take (size - 1)).length = k + 1 :=
    ⟨size - (s.chars.take (size - 1)).length - 1, by omega⟩
  refine ⟨_, s.take (size - 1), by rw [vsnprintf, hprint]; rfl, ?_, rfl⟩
  rw [hk, List.replicate_succ]
  exact cstr_append (s.take (size - 1)) _

end Librefw
