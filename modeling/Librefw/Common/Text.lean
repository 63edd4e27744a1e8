import Librefw.Common.Words
import Mathlib.Data.List.TakeWhile

/-!
# Text, as the C and C++ libraries read it

Text is a list of characters. `getlines` is the loop over `std::getline`,
`stoi` is `std::stoi` and `inetPton` is `inet_pton` for IPv4 addresses, each
with its failures. What `stoi` reads is blanks, a sign and digits that spell
an `int`, whatever comes after them (`stoi_eq_ok_iff`), so a number is read
back from a run of digits (`stoi_digits`). An address is read back from its
dotted quad, whose octets have no leading zeros (`inetPton_dotted`).
-/

namespace Librefw

/-- What the standard library throws. -/
inductive StdException where
  | invalidArgument
  | outOfRange
  | systemError
  deriving DecidableEq, Repr

/-- The lines of a file, as `std::getline` takes them off one by one: the last
one may lack its newline. -/
def getlines : List Char → List (List Char)
  | [] => []
  | c :: file =>
    if c = '\n' then [] :: getlines file
    else
      match getlines file with
      | [] => [[c]]
      | line :: lines => (c :: line) :: lines

/-- `isspace`. -/
def isSpace (c : Char) : Bool := c = ' ' ∨ ('\t' ≤ c ∧ c ≤ '\r')

/-- The number so far, carried on by a run of digits. -/
def digitsFrom (v : ℕ) (digits : List Char) : ℕ :=
  digits.foldl (fun v c => 10 * v + (c.toNat - '0'.toNat)) v

/-- The number a run of digits spells. -/
def digitsVal (digits : List Char) : ℕ := digitsFrom 0 digits

/-- `std::stoi`: blanks, a sign, and the digits up to whatever follows them. -/
def stoi (str : List Char) : Except StdException ℤ :=
  let str := str.dropWhile isSpace
  let neg := str.head? = some '-'
  let str := if str.head? = some '-' ∨ str.head? = some '+' then str.tail else str
  let digits := str.takeWhile Char.isDigit
  let value : ℤ := if neg then -digitsVal digits else digitsVal digits
  if digits = [] then throw .invalidArgument
  else if -2 ^ 31 ≤ value ∧ value < 2 ^ 31 then pure value
  else throw .outOfRange

/-- The loop of `inet_pton`: the octets that are complete, the one being read,
and whether a digit of it has been seen. -/
def inetPtonFrom : List Char → List U8 → ℕ → Bool → Option (List U8)
  | [], dst, octet, saw_digit =>
    if saw_digit ∧ dst.length = 3 then some (dst ++ [BitVec.ofNat 8 octet]) else none
  | ch :: src, dst, octet, saw_digit =>
    if ch.isDigit then
      let new := octet * 10 + (ch.toNat - '0'.toNat)
      -- no octet has a leading zero
      if saw_digit ∧ octet = 0 then none
      else if 255 < new then none
      else inetPtonFrom src dst new true
    else if ch = '.' ∧ saw_digit then
      if dst.length = 3 then none
      else inetPtonFrom src (dst ++ [BitVec.ofNat 8 octet]) 0 false
    else none

/-- `inet_pton` for `AF_INET`: the bytes of the address, in network order. -/
def inetPton (src : List Char) : Option (List U8) := inetPtonFrom src [] 0 false

/-! ## Taking lines off -/

/-- A line that is ended is taken off the file. -/
theorem getlines_append {line : List Char} (h : '\n' ∉ line) (rest : List Char) :
    getlines (line ++ '\n' :: rest) = line :: getlines rest := by
  induction line with
  | nil => rw [List.nil_append, getlines, if_pos rfl]
  | cons c line ih =>
    have hc : c ≠ '\n' := fun heq => h (heq ▸ List.mem_cons_self ..)
    rw [List.cons_append, getlines, if_neg hc, ih fun hmem => h (List.mem_cons_of_mem _ hmem)]

/-! ## Reading numbers back -/

variable {str : List Char} {neg : Bool} {v : ℤ}

theorem le_digitsFrom (v : ℕ) (digits : List Char) : v ≤ digitsFrom v digits := by
  induction digits generalizing v with
  | nil => exact le_refl v
  | cons c digits ih =>
    have h := ih (10 * v + (c.toNat - '0'.toNat))
    rw [digitsFrom, List.foldl_cons]
    change v ≤ digitsFrom _ digits
    omega

theorem toNat_of_isDigit {c : Char} (h : c.isDigit = true) : 48 ≤ c.toNat ∧ c.toNat ≤ 57 := by
  unfold Char.isDigit at h
  simp only [Bool.and_eq_true, decide_eq_true_eq] at h
  exact ⟨UInt32.le_iff_toNat_le.1 h.1, UInt32.le_iff_toNat_le.1 h.2⟩

/-- A digit is not a blank. -/
theorem not_isSpace_of_isDigit {c : Char} (h : c.isDigit = true) : isSpace c = false := by
  have hd := toNat_of_isDigit h
  have hsp : ' '.toNat = 32 := rfl
  have hr : '\r'.toNat = 13 := rfl
  simp only [isSpace, decide_eq_false_iff_not, not_or, not_and]
  refine ⟨fun heq => ?_, fun _ hle => ?_⟩
  · rw [heq, hsp] at hd
    omega
  · have hle' : c.toNat ≤ '\r'.toNat := hle
    omega

/-- A number after its sign. -/
def signedVal (neg : Bool) (digits : List Char) : ℤ :=
  if neg then -digitsVal digits else digitsVal digits

/-- What is left of `std::stoi` after the blanks and the sign. -/
def stoiNumber (neg : Bool) (str : List Char) : Except StdException ℤ :=
  let digits := str.takeWhile Char.isDigit
  if digits = [] then throw .invalidArgument
  else if -2 ^ 31 ≤ signedVal neg digits ∧ signedVal neg digits < 2 ^ 31 then
    pure (signedVal neg digits)
  else throw .outOfRange

theorem stoi_minus {rest : List Char} (h : str.dropWhile isSpace = '-' :: rest) :
    stoi str = stoiNumber true rest := by
  unfold stoi stoiNumber signedVal
  simp [h]

theorem stoi_plus {rest : List Char} (h : str.dropWhile isSpace = '+' :: rest) :
    stoi str = stoiNumber false rest := by
  unfold stoi stoiNumber signedVal
  simp [h]

theorem stoi_unsigned {rest : List Char} (h : str.dropWhile isSpace = rest)
    (hminus : rest.head? ≠ some '-') (hplus : rest.head? ≠ some '+') :
    stoi str = stoiNumber false rest := by
  unfold stoi stoiNumber signedVal
  simp [h, hminus, hplus]

/-- The text is digits up to its end or to what is no digit, and with the sign they spell an
int. -/
def StoiNumber (neg : Bool) (str : List Char) (v : ℤ) : Prop :=
  ∃ digits rest, str = digits ++ rest ∧ digits ≠ [] ∧ (∀ c ∈ digits, c.isDigit = true) ∧
    (∀ c ∈ rest.head?, c.isDigit = false) ∧
    v = signedVal neg digits ∧ -2 ^ 31 ≤ v ∧ v < 2 ^ 31

/-- The text is blanks, a sign if any, and a number. -/
def StoiReads (str : List Char) (v : ℤ) : Prop :=
  ∃ blanks rest, (∀ c ∈ blanks, isSpace c = true) ∧
    ((str = blanks ++ rest ∧ StoiNumber false rest v) ∨
      (str = blanks ++ '+' :: rest ∧ StoiNumber false rest v) ∨
      (str = blanks ++ '-' :: rest ∧ StoiNumber true rest v))

theorem takeWhile_isDigit {digits rest : List Char} (hd : ∀ c ∈ digits, c.isDigit = true)
    (hrest : ∀ c ∈ rest.head?, c.isDigit = false) :
    (digits ++ rest).takeWhile Char.isDigit = digits := by
  have hnone : rest.takeWhile Char.isDigit = [] := by
    cases rest with
    | nil => rfl
    | cons c rest =>
      rw [List.takeWhile_cons, hrest c rfl]
      rfl
  rw [List.takeWhile_append_of_pos hd, hnone, List.append_nil]

theorem stoiNumber_eq_ok_iff : stoiNumber neg str = .ok v ↔ StoiNumber neg str v := by
  constructor
  · intro h
    unfold stoiNumber at h
    simp only at h
    by_cases hne : str.takeWhile Char.isDigit = []
    · rw [if_pos hne] at h
      cases h
    rw [if_neg hne] at h
    by_cases hrange : -2 ^ 31 ≤ signedVal neg (str.takeWhile Char.isDigit) ∧
        signedVal neg (str.takeWhile Char.isDigit) < 2 ^ 31
    · rw [if_pos hrange] at h
      obtain rfl := Except.ok.inj h
      refine ⟨str.takeWhile Char.isDigit, str.dropWhile Char.isDigit,
        List.takeWhile_append_dropWhile.symm, hne, fun c hc => List.mem_takeWhile_imp hc, ?_, rfl,
        hrange⟩
      intro c hc
      have hhead := List.head?_dropWhile_not Char.isDigit str
      rw [Option.mem_def.1 hc] at hhead
      simpa using hhead
    · rw [if_neg hrange] at h
      cases h
  · rintro ⟨digits, rest, rfl, hne, hd, hrest, rfl, hrange⟩
    unfold stoiNumber
    simp only [takeWhile_isDigit hd hrest, if_neg hne, if_pos hrange]
    rfl

theorem StoiNumber.head (h : StoiNumber neg str v) : ∃ c ∈ str.head?, c.isDigit = true := by
  obtain ⟨digits, rest, rfl, hne, hd, -⟩ := h
  obtain ⟨c, ds, rfl⟩ := List.exists_cons_of_ne_nil hne
  exact ⟨c, rfl, hd c (List.mem_cons_self ..)⟩

/-- **What `std::stoi` reads.** -/
theorem stoi_eq_ok_iff : stoi str = .ok v ↔ StoiReads str v := by
  constructor
  · intro h
    have hsplit : str = str.takeWhile isSpace ++ str.dropWhile isSpace :=
      List.takeWhile_append_dropWhile.symm
    refine ⟨str.takeWhile isSpace, ?_⟩
    by_cases hminus : (str.dropWhile isSpace).head? = some '-'
    · obtain ⟨rest, hrest⟩ := List.head?_eq_some_iff.1 hminus
      rw [stoi_minus hrest] at h
      refine ⟨rest, fun c hc => List.mem_takeWhile_imp hc, Or.inr (Or.inr ⟨?_, stoiNumber_eq_ok_iff.1 h⟩)⟩
      rwa [hrest] at hsplit
    by_cases hplus : (str.dropWhile isSpace).head? = some '+'
    · obtain ⟨rest, hrest⟩ := List.head?_eq_some_iff.1 hplus
      rw [stoi_plus hrest] at h
      refine ⟨rest, fun c hc => List.mem_takeWhile_imp hc, Or.inr (Or.inl ⟨?_, stoiNumber_eq_ok_iff.1 h⟩)⟩
      rwa [hrest] at hsplit
    · rw [stoi_unsigned rfl hminus hplus] at h
      exact ⟨_, fun c hc => List.mem_takeWhile_imp hc, Or.inl ⟨hsplit, stoiNumber_eq_ok_iff.1 h⟩⟩
  · rintro ⟨blanks, rest, hb, ⟨rfl, hnum⟩ | ⟨rfl, hnum⟩ | ⟨rfl, hnum⟩⟩
    · -- a number begins with a digit, which is no blank and no sign
      obtain ⟨c, hc, hdigit⟩ := hnum.head
      obtain ⟨ds, rfl⟩ := List.head?_eq_some_iff.1 (Option.mem_def.1 hc)
      have hstart : (blanks ++ c :: ds).dropWhile isSpace = c :: ds := by
        rw [List.dropWhile_append_of_pos hb, List.dropWhile_cons, not_isSpace_of_isDigit hdigit]
        simp
      have hsign : ∀ d : Char, d.isDigit = false → (c :: ds).head? ≠ some d := by
        rintro d hd heq
        obtain rfl := Option.some.inj heq
        rw [hdigit] at hd
        cases hd
      rw [stoi_unsigned hstart (hsign _ (by decide)) (hsign _ (by decide))]
      exact stoiNumber_eq_ok_iff.2 hnum
    · have hstart : (blanks ++ '+' :: rest).dropWhile isSpace = '+' :: rest := by
        rw [List.dropWhile_append_of_pos hb]
        rfl
      rw [stoi_plus hstart]
      exact stoiNumber_eq_ok_iff.2 hnum
    · have hstart : (blanks ++ '-' :: rest).dropWhile isSpace = '-' :: rest := by
        rw [List.dropWhile_append_of_pos hb]
        rfl
      rw [stoi_minus hstart]
      exact stoiNumber_eq_ok_iff.2 hnum

/-- **A run of digits is read as its number**, if it is in range. -/
theorem stoi_digits {digits : List Char} (hne : digits ≠ []) (hd : ∀ c ∈ digits, c.isDigit = true)
    (hlt : digitsVal digits < 2 ^ 31) : stoi digits = .ok (digitsVal digits) := by
  refine stoi_eq_ok_iff.2 ⟨[], digits, by simp, Or.inl ⟨rfl, digits, [], by simp, hne, hd, ?_, rfl, ?_⟩⟩
  · intro c hc
    cases hc
  · omega

/-! ## Reading addresses back -/

/-- The digits of an octet after its first. -/
theorem inetPtonFrom_digits (digits rest : List Char) (dst : List U8) {octet : ℕ}
    (hne : octet ≠ 0) (hd : ∀ c ∈ digits, c.isDigit = true) (hlt : digitsFrom octet digits ≤ 255) :
    inetPtonFrom (digits ++ rest) dst octet true =
      inetPtonFrom rest dst (digitsFrom octet digits) true := by
  induction digits generalizing octet with
  | nil => rfl
  | cons c digits ih =>
    have hc := hd c (List.mem_cons_self ..)
    have hval : digitsFrom octet (c :: digits) =
        digitsFrom (10 * octet + (c.toNat - '0'.toNat)) digits := rfl
    have hle := le_digitsFrom (10 * octet + (c.toNat - '0'.toNat)) digits
    rw [hval] at hlt ⊢
    rw [List.cons_append, inetPtonFrom, if_pos hc, if_neg (by simp [hne]), if_neg (by omega),
      Nat.mul_comm octet]
    exact ih (by omega) (fun x hx => hd x (List.mem_cons_of_mem _ hx)) hlt

/-- The digits of an octet: no leading zero, and its number. -/
theorem toDigits_octet : ∀ n : Fin 256, ∃ c rest, Nat.toDigits 10 n = c :: rest ∧
    c.isDigit = true ∧ (∀ d ∈ rest, d.isDigit = true) ∧
    (rest = [] ∨ c.toNat - '0'.toNat ≠ 0) ∧ digitsFrom (c.toNat - '0'.toNat) rest = n := by
  have h : ∀ n : Fin 256, (Nat.toDigits 10 n).head?.isSome = true ∧
      ((Nat.toDigits 10 n).all Char.isDigit) = true ∧
      ((Nat.toDigits 10 n).tail = [] ∨ (Nat.toDigits 10 n).head? ≠ some '0') ∧
      digitsVal (Nat.toDigits 10 n) = n := by decide +kernel
  intro n
  obtain ⟨hsome, hall, hzero, hval⟩ := h n
  cases hn : Nat.toDigits 10 n with
  | nil => simp [hn] at hsome
  | cons c rest =>
    rw [hn] at hall hzero hval
    simp only [List.all_cons, Bool.and_eq_true, List.all_eq_true, List.tail_cons,
      List.head?_cons, ne_eq, Option.some.injEq] at hall hzero
    have hne : rest = [] ∨ c.toNat - '0'.toNat ≠ 0 := by
      refine hzero.imp_right fun hne heq => hne ?_
      have hd := toNat_of_isDigit hall.1
      have h0 : '0'.toNat = 48 := rfl
      have hc : c.val.toNat = '0'.val.toNat := by
        change c.toNat = '0'.toNat
        omega
      exact Char.ext (UInt32.toNat_inj.1 hc)
    have hstep : digitsVal (c :: rest) = digitsFrom (10 * 0 + (c.toNat - '0'.toNat)) rest := rfl
    rw [hstep, Nat.mul_zero, Nat.zero_add] at hval
    exact ⟨c, rest, rfl, hall.1, hall.2, hne, hval⟩

/-- One octet. -/
theorem inetPtonFrom_octet {n : ℕ} (h : n < 256) (rest : List Char) (dst : List U8) :
    inetPtonFrom (Nat.toDigits 10 n ++ rest) dst 0 false = inetPtonFrom rest dst n true := by
  obtain ⟨c, digits, hn, hc, hd, hzero, hval⟩ := toDigits_octet ⟨n, h⟩
  simp only at hn hval
  have hfirst : c.toNat - '0'.toNat ≤ 255 := by
    have := le_digitsFrom (c.toNat - '0'.toNat) digits
    omega
  rw [hn, List.cons_append, inetPtonFrom, if_pos hc, if_neg (by simp)]
  rw [Nat.zero_mul, Nat.zero_add, if_neg (by omega)]
  rcases hzero with rfl | hne
  · rw [List.nil_append, ← hval]
    rfl
  · rw [inetPtonFrom_digits digits rest dst hne hd (by omega), hval]

/-- An octet and the dot after it. -/
theorem inetPtonFrom_octet_dot {n : ℕ} (h : n < 256) (rest : List Char) {dst : List U8}
    (hdst : dst.length < 3) :
    inetPtonFrom (Nat.toDigits 10 n ++ '.' :: rest) dst 0 false =
      inetPtonFrom rest (dst ++ [BitVec.ofNat 8 n]) 0 false := by
  rw [inetPtonFrom_octet h, inetPtonFrom, if_neg (by decide), if_pos ⟨rfl, rfl⟩,
    if_neg (by omega)]

/-- **A dotted quad is read as its four bytes.** -/
theorem inetPton_dotted {a b c d : ℕ} (ha : a < 256) (hb : b < 256) (hc : c < 256) (hd : d < 256) :
    inetPton (Nat.toDigits 10 a ++ '.' :: (Nat.toDigits 10 b ++ '.' :: (Nat.toDigits 10 c ++
      '.' :: Nat.toDigits 10 d))) =
      some [BitVec.ofNat 8 a, BitVec.ofNat 8 b, BitVec.ofNat 8 c, BitVec.ofNat 8 d] := by
  have hlast := inetPtonFrom_octet hd [] [BitVec.ofNat 8 a, BitVec.ofNat 8 b, BitVec.ofNat 8 c]
  rw [List.append_nil] at hlast
  rw [inetPton, inetPtonFrom_octet_dot ha _ (by simp), inetPtonFrom_octet_dot hb _ (by simp),
    inetPtonFrom_octet_dot hc _ (by simp)]
  exact hlast

end Librefw
