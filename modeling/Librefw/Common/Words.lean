import Mathlib.Tactic.Ring

/-!
# Machine words and their bytes

Unsigned words are bit vectors under the kernel's names, and a byte
string is a list of bytes. `Endian.bytes` lays a number out in a given
byte order and `Endian.nat` reads it back; the big-endian form is the
little-endian one reversed, so both directions are proved once
(`natLE_bytesLE`, `bytesLE_natLE`) and carried over.
-/

namespace Librefw

abbrev U8 := BitVec 8
abbrev U16 := BitVec 16
abbrev U32 := BitVec 32
abbrev U64 := BitVec 64

/-- The byte order of a host, or of a wire format. -/
inductive Endian where
  | little
  | big
  deriving DecidableEq, Repr

/-- The `n` low bytes of a number, least significant first. -/
def bytesLE : ℕ → ℕ → List U8
  | 0, _ => []
  | n + 1, v => BitVec.ofNat 8 v :: bytesLE n (v / 256)

/-- The number a byte string spells, least significant byte first. -/
def natLE : List U8 → ℕ
  | [] => 0
  | b :: bs => b.toNat + 256 * natLE bs

@[simp] theorem length_bytesLE (n v : ℕ) : (bytesLE n v).length = n := by
  induction n generalizing v with
  | zero => rfl
  | succ n ih => simp [bytesLE, ih]

/-- Reading back what was laid out keeps the low bytes. -/
theorem natLE_bytesLE (n v : ℕ) : natLE (bytesLE n v) = v % 256 ^ n := by
  induction n generalizing v with
  | zero => simp [bytesLE, natLE, Nat.mod_one]
  | succ n ih =>
    have hsplit : v % 256 ^ (n + 1) = v % 256 + 256 * (v / 256 % 256 ^ n) := by
      rw [pow_succ', Nat.mod_mul]
    rw [hsplit, bytesLE, natLE, ih, BitVec.toNat_ofNat]

/-- A byte string is the layout of the number it spells. -/
theorem bytesLE_natLE (bs : List U8) : bytesLE bs.length (natLE bs) = bs := by
  induction bs with
  | nil => rfl
  | cons b bs ih =>
    have hb : b.toNat < 256 := b.isLt
    have hdiv : (b.toNat + 256 * natLE bs) / 256 = natLE bs := by omega
    have hhead : BitVec.ofNat 8 (b.toNat + 256 * natLE bs) = b := by
      apply BitVec.eq_of_toNat_eq
      rw [BitVec.toNat_ofNat]
      norm_num
      omega
    simp only [List.length_cons, natLE, bytesLE, hdiv, ih, hhead]

theorem natLE_lt (bs : List U8) : natLE bs < 256 ^ bs.length := by
  induction bs with
  | nil => simp [natLE]
  | cons b bs ih =>
    have hb : b.toNat < 256 := b.isLt
    rw [natLE, List.length_cons, pow_succ']
    omega

namespace Endian

/-- The `n` low bytes of a number, in this byte order. -/
def bytes (e : Endian) (n v : ℕ) : List U8 :=
  match e with
  | little => bytesLE n v
  | big => (bytesLE n v).reverse

/-- The number a byte string spells in this byte order. -/
def nat (e : Endian) (bs : List U8) : ℕ :=
  match e with
  | little => natLE bs
  | big => natLE bs.reverse

@[simp] theorem length_bytes (e : Endian) (n v : ℕ) : (e.bytes n v).length = n := by
  cases e <;> simp [bytes]

theorem nat_bytes (e : Endian) (n v : ℕ) : e.nat (e.bytes n v) = v % 256 ^ n := by
  cases e <;> simp [bytes, nat, natLE_bytesLE]

theorem bytes_nat (e : Endian) (bs : List U8) : e.bytes bs.length (e.nat bs) = bs := by
  cases e with
  | little => exact bytesLE_natLE bs
  | big =>
    have h := bytesLE_natLE bs.reverse
    rw [List.length_reverse] at h
    simp [bytes, nat, h]

theorem nat_lt (e : Endian) (bs : List U8) : e.nat bs < 256 ^ bs.length := by
  cases e with
  | little => exact natLE_lt bs
  | big => simpa [nat] using natLE_lt bs.reverse

/-- A word stored at the front of a buffer; a buffer too short reads as if
it went on with zeros. -/
def word (e : Endian) (w : ℕ) (buf : List U8) : BitVec (8 * w) :=
  BitVec.ofNat _ (e.nat ((buf ++ List.replicate w 0).take w))

/-- What a word is stored as. -/
def ofWord (e : Endian) {w : ℕ} (v : BitVec (8 * w)) : List U8 := e.bytes w v.toNat

@[simp] theorem length_ofWord (e : Endian) {w : ℕ} (v : BitVec (8 * w)) :
    (e.ofWord v).length = w := by simp [ofWord]

/-- **A stored word is read back**, whatever follows it. -/
@[simp] theorem word_ofWord_append (e : Endian) {w : ℕ} (v : BitVec (8 * w)) (rest : List U8) :
    e.word w (e.ofWord v ++ rest) = v := by
  have hlen : (e.ofWord v).length = w := length_ofWord e v
  have htake : (e.ofWord v ++ rest ++ List.replicate w 0).take w = e.ofWord v := by
    rw [List.append_assoc, List.take_append_of_le_length (by omega),
      List.take_of_length_le (by omega)]
  have hpow : (256 : ℕ) ^ w = 2 ^ (8 * w) := by rw [pow_mul]; norm_num
  rw [word, htake, ofWord, nat_bytes, hpow]
  apply BitVec.eq_of_toNat_eq
  rw [BitVec.toNat_ofNat, Nat.mod_mod, Nat.mod_eq_of_lt v.isLt]

/-- A word is read from the bytes at the front. -/
theorem word_append (e : Endian) {w : ℕ} {a : List U8} (h : w ≤ a.length) (b : List U8) :
    e.word w (a ++ b) = e.word w a := by
  unfold word
  rw [List.append_assoc, List.take_append_of_le_length h, List.take_append_of_le_length h]

@[simp] theorem word_ofWord (e : Endian) {w : ℕ} (v : BitVec (8 * w)) :
    e.word w (e.ofWord v) = v := by
  simpa using word_ofWord_append e v []

/-- **What is read from a full word is what it is stored as.** -/
theorem ofWord_word (e : Endian) {w : ℕ} (buf : List U8) (h : buf.length = w) :
    e.ofWord (e.word w buf) = buf := by
  subst h
  have htake : (buf ++ List.replicate buf.length 0).take buf.length = buf := by
    rw [List.take_append_of_le_length (le_refl _), List.take_length]
  have hlt : e.nat buf < 2 ^ (8 * buf.length) := by
    have := nat_lt e buf
    rwa [show (256 : ℕ) = 2 ^ 8 by norm_num, ← pow_mul] at this
  rw [ofWord, word, htake, BitVec.toNat_ofNat, Nat.mod_eq_of_lt hlt, bytes_nat]

end Endian

end Librefw
