import Librefw.Kernel.Model.Utils
import Mathlib.Data.List.Infix

/-!
# Addresses as bit paths

Both tries of the module are keyed by the leading bits of a host-order
address. `ipPath ip n` is that key; an address lies under a prefix when
the prefix's key leads to it (`ipPath_prefix_iff`), which is the masked
comparison of `in4_get_masked` (`ipPath_eq_iff_masked`), and two
addresses share the key of 24 bits exactly when they agree above the
last byte (`ipPath_24`).
-/

namespace Librefw

/-- The `n` bits of an address from bit `i` on, counted from the top. -/
def ipBits (ip : U32) (i n : ℕ) : List Bool := (List.range' i n).map ip.getMsbD

/-- The leading `n` bits of an address, top bit first. -/
def ipPath (ip : U32) (n : ℕ) : List Bool := (List.range n).map ip.getMsbD

@[simp] theorem ipBits_zero (ip : U32) (i : ℕ) : ipBits ip i 0 = [] := rfl

theorem ipBits_succ (ip : U32) (i n : ℕ) :
    ipBits ip i (n + 1) = ip.getMsbD i :: ipBits ip (i + 1) n := by
  simp [ipBits, List.range'_succ]

theorem ipBits_eq_ipPath (ip : U32) (n : ℕ) : ipBits ip 0 n = ipPath ip n := by
  simp [ipBits, ipPath, List.range_eq_range']

@[simp] theorem length_ipPath (ip : U32) (n : ℕ) : (ipPath ip n).length = n := by
  simp [ipPath]

theorem ipPath_take (ip : U32) {n k : ℕ} (h : n ≤ k) : (ipPath ip k).take n = ipPath ip n := by
  simp [ipPath, ← List.map_take, List.take_range, Nat.min_eq_left h]

theorem ipPath_prefix (ip : U32) {n k : ℕ} (h : n ≤ k) : ipPath ip n <+: ipPath ip k := by
  rw [← ipPath_take ip h]
  exact List.take_prefix _ _

/-- A key that leads to an address is a key of the address. -/
theorem eq_ipPath_of_prefix {ip : U32} {k : ℕ} {q : List Bool} (h : q <+: ipPath ip k) :
    q = ipPath ip q.length := by
  have hlen := h.length_le
  rw [length_ipPath] at hlen
  rw [← ipPath_take ip hlen]
  exact List.prefix_iff_eq_take.1 h

/-- Two addresses have one key of `n` bits when their leading `n` bits agree. -/
theorem ipPath_eq_iff {ip ip' : U32} {n : ℕ} :
    ipPath ip n = ipPath ip' n ↔ ∀ j, j < n → ip.getMsbD j = ip'.getMsbD j := by
  simp [ipPath]

/-- The prefix `p` of `n` bits leads to an address when the address has its
key. -/
theorem ipPath_prefix_iff {p ip : U32} {n k : ℕ} (h : n ≤ k) :
    ipPath p n <+: ipPath ip k ↔ ipPath ip n = ipPath p n := by
  constructor
  · intro hp
    have := eq_ipPath_of_prefix hp
    rw [length_ipPath] at this
    exact this.symm
  · intro heq
    rw [← heq]
    exact ipPath_prefix ip h

/-- Shifting a bit down and masking it out reads it. -/
theorem shift_and_one (ip : U32) (i : ℕ) : ((ip >>> i) &&& 1#32 == 1#32) = ip.getLsbD i := by
  have hword : (ip >>> i) &&& 1#32 = if ip.getLsbD i then 1#32 else 0#32 := by
    ext k hk
    by_cases hk0 : k = 0
    · subst hk0
      cases hb : ip.getLsbD i <;> simp [hb]
    · cases hb : ip.getLsbD i <;> simp [hk0]
  rw [hword]
  cases ip.getLsbD i <;> rfl

theorem in4GetBit_of_lt (ip : U32) {j : ℕ} (h : j < 32) : in4GetBit ip j = .ok (ip.getMsbD j) := by
  have hle : j ≤ IPV4_BITS - 1 := Nat.le_sub_one_of_lt h
  have hbit : ip.getLsbD (IPV4_BITS - 1 - j) = ip.getMsbD j := by
    rw [BitVec.getMsbD, decide_eq_true h, Bool.true_and]
    rfl
  rw [in4GetBit, if_pos hle, shift_and_one, hbit]
  rfl

/-- **The masked comparison is a comparison of keys.** -/
theorem ipPath_eq_iff_masked {ip ip' : U32} {n : ℕ} (h : n ≤ 32) :
    ipPath ip n = ipPath ip' n ↔ in4GetMasked ip n = in4GetMasked ip' n := by
  rw [ipPath_eq_iff]
  unfold in4GetMasked IPV4_BITS
  by_cases h0 : n = 0
  · simp [h0]
  rw [if_neg h0, if_neg h0]
  have hmask : ∀ i, i < 32 → (0xFFFFFFFF#32 <<< (32 - n)).getMsbD i = decide (i < n) := by
    intro i hi
    rw [BitVec.getMsbD_shiftLeft]
    have hones : (0xFFFFFFFF#32).getMsbD (i + (32 - n)) = decide (i + (32 - n) < 32) := by
      rw [show (0xFFFFFFFF#32) = BitVec.allOnes 32 from rfl, BitVec.getMsbD_allOnes]
    rw [hones]
    simp only [decide_eq_decide]
    omega
  constructor
  · intro heq
    apply BitVec.eq_of_getMsbD_eq
    intro i hi
    rw [BitVec.getMsbD_and, BitVec.getMsbD_and, hmask i hi]
    by_cases hin : i < n
    · rw [heq i hin]
    · simp [hin]
  · intro heq j hj
    have hbit := congrArg (fun x => BitVec.getMsbD x j) heq
    simp only [BitVec.getMsbD_and, hmask j (by omega), hj, decide_true, Bool.and_true] at hbit
    exact hbit

/-- A full mask keeps the address. -/
theorem in4GetMasked_32 (ip : U32) : in4GetMasked ip 32 = ip := by
  have hones : (0xFFFFFFFF#32 <<< (IPV4_BITS - 32)) = BitVec.allOnes 32 := by decide
  rw [in4GetMasked, if_neg (by decide), hones, BitVec.and_allOnes]

/-- **The key of 24 bits is what is above the last byte.** -/
theorem ipPath_24 {ip ip' : U32} : ipPath ip 24 = ipPath ip' 24 ↔ ip >>> 8 = ip' >>> 8 := by
  rw [ipPath_eq_iff]
  constructor
  · intro heq
    apply BitVec.eq_of_getMsbD_eq
    intro i hi
    rw [BitVec.getMsbD_ushiftRight, BitVec.getMsbD_ushiftRight]
    by_cases h8 : i < 8
    · simp [h8]
    · rw [heq (i - 8) (by omega)]
  · intro heq j hj
    have hbit := congrArg (fun x => BitVec.getMsbD x (j + 8)) heq
    simp only [BitVec.getMsbD_ushiftRight] at hbit
    simpa [show j + 8 < 32 by omega] using hbit

/-- Reading a word in network order and laying it out so are inverse. -/
theorem getUnalignedBe32_htonl (e : Endian) (v : U32) : getUnalignedBe32 e (htonl e v) = v := by
  unfold getUnalignedBe32 htonl
  rw [Endian.ofWord_word e _ (by simp)]
  exact Endian.word_ofWord .big (w := 4) v

end Librefw
