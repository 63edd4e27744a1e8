import Librefw.Common.Words
import Mathlib.Tactic.Set

/-!
# Netlink attributes

The attribute stream of a netlink message: each attribute is a two-byte
length, a two-byte type and a payload, padded to four bytes. `attrBytes`
lays one out and `nlaForEach` is the walk of `nla_for_each_attr`, which
stops at the first attribute whose length is below four or exceeds the
bytes that remain. The walk over what was laid out visits exactly the
attributes (`nlaForEach_streamBytes`), whatever follows them in memory.

`MsgBuf` is a message under construction in a buffer of fixed capacity:
an attribute that does not fit leaves the message unchanged and the put
fails. A container opened and closed around a run of puts lays out one
attribute whose payload is theirs (`nest_bytes`).
-/

namespace Librefw

/-- `NLA_ALIGN`. -/
def nlaAlign (n : ℕ) : ℕ := (n + 3) / 4 * 4

theorem le_nlaAlign (n : ℕ) : n ≤ nlaAlign n := by unfold nlaAlign; omega

theorem nlaAlign_mod (n : ℕ) : nlaAlign n % 4 = 0 := by unfold nlaAlign; omega

theorem nlaAlign_of_mod {n : ℕ} (h : n % 4 = 0) : nlaAlign n = n := by unfold nlaAlign; omega

/-- The flag on the type of a container. -/
def NLA_F_NESTED : ℕ := 2 ^ 15

/-- An attribute as a walk sees it: its header, and the memory from its
payload on, which does not end where the payload does. -/
structure NlAttr where
  nla_len : ℕ
  nla_type : ℕ
  mem : List U8
  deriving DecidableEq, Repr

namespace NlAttr

/-- `nla_type`: the type without its two flags. -/
def type (a : NlAttr) : ℕ := a.nla_type % 2 ^ 14

/-- `nla_len`: the length of the payload. -/
def len (a : NlAttr) : ℕ := a.nla_len - 4

/-- The payload. -/
def payload (a : NlAttr) : List U8 := a.mem.take a.len

/-- `nla_get_u8`, `_u16`, `_u32`, `_u64`: a word read from the payload on,
however long the payload is. -/
def getU8 (a : NlAttr) : U8 := a.mem.headD 0
def getU16 (e : Endian) (a : NlAttr) : U16 := e.word 2 a.mem
def getU32 (e : Endian) (a : NlAttr) : U32 := e.word 4 a.mem
def getU64 (e : Endian) (a : NlAttr) : U64 := e.word 8 a.mem

end NlAttr

/-! ## The walk -/

/-- `nla_for_each_attr`, for at most `fuel` attributes of the `rem` bytes at
the front of the memory. -/
def nlaWalk (e : Endian) : ℕ → List U8 → ℕ → List NlAttr
  | 0, _, _ => []
  | fuel + 1, buf, rem =>
    let len := (e.word 2 buf).toNat
    if 4 ≤ rem ∧ 4 ≤ len ∧ len ≤ rem then
      ⟨len, (e.word 2 (buf.drop 2)).toNat, buf.drop 4⟩ ::
        nlaWalk e fuel (buf.drop (nlaAlign len)) (rem - nlaAlign len)
    else []

/-- `nla_for_each_attr` over `rem` bytes; an attribute takes four at least, so
`rem` bounds their number. -/
def nlaForEach (e : Endian) (buf : List U8) (rem : ℕ) : List NlAttr := nlaWalk e rem buf rem

/-- `nla_for_each_nested`. -/
def NlAttr.nested (e : Endian) (a : NlAttr) : List NlAttr := nlaForEach e a.mem a.len

/-- More fuel than bytes changes nothing. -/
theorem nlaWalk_eq (e : Endian) {fuel rem : ℕ} (buf : List U8) (h : rem ≤ fuel) :
    nlaWalk e fuel buf rem = nlaForEach e buf rem := by
  induction rem using Nat.strong_induction_on generalizing fuel buf with
  | _ rem ih =>
    cases rem with
    | zero => cases fuel <;> simp [nlaForEach, nlaWalk]
    | succ r =>
      obtain ⟨fuel, rfl⟩ : ∃ k, fuel = k + 1 := ⟨fuel - 1, by omega⟩
      simp only [nlaForEach, nlaWalk]
      split
      · next hok =>
        have halign := le_nlaAlign (e.word 2 buf).toNat
        rw [ih _ (by omega) _ (by omega), ih _ (by omega) _ (by omega)]
      · rfl

/-- **The walk, one attribute at a time.** -/
theorem nlaForEach_eq (e : Endian) (buf : List U8) (rem : ℕ) :
    nlaForEach e buf rem =
      if 4 ≤ rem ∧ 4 ≤ (e.word 2 buf).toNat ∧ (e.word 2 buf).toNat ≤ rem then
        ⟨(e.word 2 buf).toNat, (e.word 2 (buf.drop 2)).toNat, buf.drop 4⟩ ::
          nlaForEach e (buf.drop (nlaAlign (e.word 2 buf).toNat))
            (rem - nlaAlign (e.word 2 buf).toNat)
      else [] := by
  cases rem with
  | zero => simp [nlaForEach, nlaWalk]
  | succ r =>
    rw [nlaForEach, nlaWalk]
    split
    · next hok =>
      have halign := le_nlaAlign (e.word 2 buf).toNat
      rw [nlaWalk_eq e _ (by omega)]
    · rfl

/-- Each attribute takes four bytes at least. -/
theorem length_nlaForEach (e : Endian) (buf : List U8) (rem : ℕ) :
    4 * (nlaForEach e buf rem).length ≤ rem := by
  induction rem using Nat.strong_induction_on generalizing buf with
  | _ rem ih =>
    rw [nlaForEach_eq]
    split
    · next hok =>
      have halign := le_nlaAlign (e.word 2 buf).toNat
      have hrest := ih (rem - nlaAlign (e.word 2 buf).toNat) (by omega)
        (buf.drop (nlaAlign (e.word 2 buf).toNat))
      rw [List.length_cons]
      omega
    · exact Nat.zero_le rem

/-- The attribute a walk sees at an offset. -/
def attrAt (e : Endian) (buf : List U8) (p : ℕ) : NlAttr :=
  ⟨(e.word 2 (buf.drop p)).toNat, (e.word 2 (buf.drop (p + 2))).toNat, buf.drop (p + 4)⟩

/-- **The walk, by offsets.** -/
theorem nlaForEach_drop (e : Endian) (buf : List U8) (p rem : ℕ) :
    nlaForEach e (buf.drop p) (rem - p) =
      if 4 ≤ rem - p ∧ 4 ≤ (attrAt e buf p).nla_len ∧ (attrAt e buf p).nla_len ≤ rem - p then
        attrAt e buf p :: nlaForEach e (buf.drop (p + nlaAlign (attrAt e buf p).nla_len))
          (rem - (p + nlaAlign (attrAt e buf p).nla_len))
      else [] := by
  rw [nlaForEach_eq]
  simp only [List.drop_drop, Nat.sub_sub]
  rfl

/-- What a walk visits lies at offsets that are whole words, within its bytes. -/
theorem exists_attrAt {e : Endian} {buf : List U8} {p rem : ℕ} {a : NlAttr} (hp : p % 4 = 0)
    (h : a ∈ nlaForEach e (buf.drop p) (rem - p)) :
    ∃ q, p ≤ q ∧ q % 4 = 0 ∧ a = attrAt e buf q ∧ q + 4 ≤ rem := by
  induction hk : rem - p using Nat.strong_induction_on generalizing p with
  | _ k ih =>
    rw [nlaForEach_drop] at h
    split at h
    · next hok =>
      have hle := le_nlaAlign (attrAt e buf p).nla_len
      have hmod := nlaAlign_mod (attrAt e buf p).nla_len
      rcases List.mem_cons.1 h with rfl | h
      · exact ⟨p, le_refl p, hp, rfl, by omega⟩
      · obtain ⟨q, hpq, hq⟩ := ih _ (by omega) (by omega) h rfl
        exact ⟨q, by omega, hq⟩
    · cases h

/-! ## Laying attributes out -/

/-- An attribute to be laid out. -/
structure Field where
  type : ℕ
  payload : List U8
  deriving DecidableEq, Repr

/-- The length and type fit their two bytes. -/
def Field.Fits (f : Field) : Prop := 4 + f.payload.length < 2 ^ 16 ∧ f.type < 2 ^ 16

/-- The bytes of one attribute: header, payload and padding. -/
def attrBytes (e : Endian) (f : Field) : List U8 :=
  e.bytes 2 (4 + f.payload.length) ++ e.bytes 2 f.type ++ f.payload ++
    List.replicate (nlaAlign (4 + f.payload.length) - (4 + f.payload.length)) 0

/-- The bytes of a run of attributes. -/
def streamBytes (e : Endian) (fs : List Field) : List U8 := fs.flatMap (attrBytes e)

/-- How much room an attribute takes. -/
def Field.size (f : Field) : ℕ := nlaAlign (4 + f.payload.length)

@[simp] theorem length_attrBytes (e : Endian) (f : Field) : (attrBytes e f).length = f.size := by
  have := le_nlaAlign (4 + f.payload.length)
  simp only [attrBytes, List.length_append, Endian.length_bytes, List.length_replicate, Field.size]
  omega

theorem length_streamBytes (e : Endian) (fs : List Field) :
    (streamBytes e fs).length = (fs.map Field.size).sum := by
  induction fs with
  | nil => rfl
  | cons f fs ih =>
    rw [streamBytes, List.flatMap_cons, List.length_append, length_attrBytes, List.map_cons,
      List.sum_cons, ← ih]
    rfl

/-- A stream is a whole number of words. -/
theorem length_streamBytes_mod (e : Endian) (fs : List Field) :
    (streamBytes e fs).length % 4 = 0 := by
  induction fs with
  | nil => rfl
  | cons f fs ih =>
    have h := nlaAlign_mod (4 + f.payload.length)
    rw [streamBytes, List.flatMap_cons, List.length_append, length_attrBytes]
    change (f.size + (streamBytes e fs).length) % 4 = 0
    unfold Field.size
    omega

section Header

variable (e : Endian) (f : Field) (rest : List U8)

theorem toNat_word_bytes {n : ℕ} (h : n < 2 ^ 16) (tail : List U8) :
    (e.word 2 (e.bytes 2 n ++ tail)).toNat = n := by
  have hw := Endian.word_ofWord_append e (BitVec.ofNat (8 * 2) n) tail
  rw [Endian.ofWord, BitVec.toNat_ofNat, Nat.mod_eq_of_lt h] at hw
  rw [hw, BitVec.toNat_ofNat, Nat.mod_eq_of_lt h]

theorem word_attrBytes (hf : f.Fits) :
    (e.word 2 (attrBytes e f ++ rest)).toNat = 4 + f.payload.length := by
  simp only [attrBytes, List.append_assoc]
  exact toNat_word_bytes e hf.1 _

theorem word_drop_attrBytes (hf : f.Fits) :
    (e.word 2 ((attrBytes e f ++ rest).drop 2)).toNat = f.type := by
  have hdrop : (attrBytes e f ++ rest).drop 2 = e.bytes 2 f.type ++ (f.payload ++
      (List.replicate (nlaAlign (4 + f.payload.length) - (4 + f.payload.length)) 0 ++ rest)) := by
    simp only [attrBytes, List.append_assoc]
    rw [List.drop_append_of_le_length (by simp), List.drop_of_length_le (by simp), List.nil_append]
  rw [hdrop]
  exact toNat_word_bytes e hf.2 _

theorem drop_attrBytes : (attrBytes e f ++ rest).drop 4 = f.payload ++
    (List.replicate (nlaAlign (4 + f.payload.length) - (4 + f.payload.length)) 0 ++ rest) := by
  have h4 : (e.bytes 2 (4 + f.payload.length) ++ e.bytes 2 f.type).length = 4 := by simp
  rw [attrBytes, List.append_assoc, List.append_assoc, List.drop_append_of_le_length (by omega),
    List.drop_of_length_le (by omega), List.nil_append]

theorem drop_size_attrBytes : (attrBytes e f ++ rest).drop f.size = rest := by
  rw [← length_attrBytes e f, List.drop_left]

end Header

/-- The attribute a walk sees where one was laid out. -/
def seen (f : Field) (rest : List U8) : NlAttr :=
  ⟨4 + f.payload.length, f.type, f.payload ++
    (List.replicate (nlaAlign (4 + f.payload.length) - (4 + f.payload.length)) 0 ++ rest)⟩

@[simp] theorem seen_type (f : Field) (rest : List U8) : (seen f rest).type = f.type % 2 ^ 14 := rfl

@[simp] theorem seen_len (f : Field) (rest : List U8) : (seen f rest).len = f.payload.length := by
  simp [NlAttr.len, seen]

/-- **The walk meets an attribute that was laid out**, and goes on after it. -/
theorem nlaForEach_attrBytes (e : Endian) {f : Field} (hf : f.Fits) (rest : List U8) {rem : ℕ}
    (hrem : f.size ≤ rem) :
    nlaForEach e (attrBytes e f ++ rest) rem =
      seen f rest :: nlaForEach e rest (rem - f.size) := by
  have hle := le_nlaAlign (4 + f.payload.length)
  have hsize : f.size = nlaAlign (4 + f.payload.length) := rfl
  rw [nlaForEach_eq, word_attrBytes e f rest hf, word_drop_attrBytes e f rest hf,
    drop_attrBytes e f rest, ← hsize, drop_size_attrBytes e f rest, if_pos (by omega)]
  rfl

/-- The attributes a walk sees where a run of them was laid out. -/
def seenAll (e : Endian) : List Field → List U8 → List NlAttr
  | [], _ => []
  | f :: fs, rest => seen f (streamBytes e fs ++ rest) :: seenAll e fs rest

/-- **The round trip of a stream.** The walk over a run of attributes visits
them all, in order, whatever follows them in memory. -/
theorem nlaForEach_streamBytes (e : Endian) (fs : List Field) (h : ∀ f ∈ fs, f.Fits)
    (rest : List U8) {rem : ℕ} (hrem : rem = (streamBytes e fs).length) :
    nlaForEach e (streamBytes e fs ++ rest) rem = seenAll e fs rest := by
  induction fs generalizing rem with
  | nil => subst hrem; rfl
  | cons f fs ih =>
    have hcons : streamBytes e (f :: fs) = attrBytes e f ++ streamBytes e fs := rfl
    rw [hcons, List.length_append, length_attrBytes] at hrem
    rw [hcons, List.append_assoc,
      nlaForEach_attrBytes e (h f (List.mem_cons_self ..)) _ (by omega), seenAll,
      ih (fun g hg => h g (List.mem_cons_of_mem _ hg)) (by omega)]

/-- What is seen of each attribute is what was laid out, with some memory after
it. -/
theorem exists_of_mem_seenAll {e : Endian} {fs : List Field} {rest : List U8} {a : NlAttr}
    (h : a ∈ seenAll e fs rest) : ∃ f ∈ fs, ∃ rest', a = seen f rest' := by
  induction fs with
  | nil => cases h
  | cons f fs ih =>
    rcases List.mem_cons.1 h with rfl | h
    · exact ⟨f, List.mem_cons_self .., _, rfl⟩
    · obtain ⟨g, hg, rest', rfl⟩ := ih h
      exact ⟨g, List.mem_cons_of_mem _ hg, rest', rfl⟩

/-! ## Reading a word back -/

theorem getU8_seen (t : ℕ) (v : U8) (rest : List U8) : (seen ⟨t, [v]⟩ rest).getU8 = v := rfl

theorem getU32_seen (e : Endian) (t : ℕ) (v : U32) (rest : List U8) :
    (seen ⟨t, e.ofWord (w := 4) v⟩ rest).getU32 e = v :=
  Endian.word_ofWord_append e (w := 4) v _

theorem getU16_seen (e : Endian) (t : ℕ) (v : U16) (rest : List U8) :
    (seen ⟨t, e.ofWord (w := 2) v⟩ rest).getU16 e = v :=
  Endian.word_ofWord_append e (w := 2) v _

theorem getU64_seen (e : Endian) (t : ℕ) (v : U64) (rest : List U8) :
    (seen ⟨t, e.ofWord (w := 8) v⟩ rest).getU64 e = v :=
  Endian.word_ofWord_append e (w := 8) v _

/-! ## Messages under construction -/

/-- A message in a buffer of fixed capacity. -/
structure MsgBuf where
  cap : ℕ
  bytes : List U8
  deriving DecidableEq, Repr

namespace MsgBuf

/-- `nla_put`: whether the attribute fitted, and the message after it. -/
def nlaPut (e : Endian) (msg : MsgBuf) (f : Field) : Bool × MsgBuf :=
  if msg.bytes.length + f.size ≤ msg.cap then
    (true, { msg with bytes := msg.bytes ++ attrBytes e f })
  else (false, msg)

/-- A chain of `nla_put` that stops at the first one to fail. -/
def nlaPuts (e : Endian) : List Field → MsgBuf → Bool × MsgBuf
  | [], msg => (true, msg)
  | f :: fs, msg =>
    match msg.nlaPut e f with
    | (true, msg) => nlaPuts e fs msg
    | (false, msg) => (false, msg)

/-- `nla_nest_start`: where the container opened begins, NULL if its header
did not fit. -/
def nestStart (e : Endian) (msg : MsgBuf) (type : ℕ) : Option ℕ × MsgBuf :=
  match msg.nlaPut e ⟨NLA_F_NESTED + type, []⟩ with
  | (true, msg') => (some msg.bytes.length, msg')
  | (false, msg') => (none, msg')

/-- `nla_nest_end`: the container's length becomes what was put since. -/
def nestEnd (e : Endian) (msg : MsgBuf) (start : ℕ) : MsgBuf :=
  { msg with
    bytes := msg.bytes.take start ++ e.bytes 2 (msg.bytes.length - start) ++
      msg.bytes.drop (start + 2) }

/-- `nla_nest_cancel`: the message is cut where the container began. -/
def nestCancel (msg : MsgBuf) (start : ℕ) : MsgBuf := { msg with bytes := msg.bytes.take start }

theorem nlaPut_of_fits {e : Endian} {msg : MsgBuf} {f : Field}
    (h : msg.bytes.length + f.size ≤ msg.cap) :
    msg.nlaPut e f = (true, { msg with bytes := msg.bytes ++ attrBytes e f }) := if_pos h

theorem nlaPut_of_not_fits {e : Endian} {msg : MsgBuf} {f : Field}
    (h : ¬ msg.bytes.length + f.size ≤ msg.cap) : msg.nlaPut e f = (false, msg) := if_neg h

/-- A chain that fits appends its stream. -/
theorem nlaPuts_of_fits {e : Endian} {fs : List Field} {msg : MsgBuf}
    (h : msg.bytes.length + (streamBytes e fs).length ≤ msg.cap) :
    nlaPuts e fs msg = (true, { msg with bytes := msg.bytes ++ streamBytes e fs }) := by
  induction fs generalizing msg with
  | nil => simp [nlaPuts, streamBytes]
  | cons f fs ih =>
    have hcons : streamBytes e (f :: fs) = attrBytes e f ++ streamBytes e fs := rfl
    rw [hcons, List.length_append, length_attrBytes] at h
    rw [nlaPuts, nlaPut_of_fits (by omega)]
    simp only
    rw [ih (by simp only [List.length_append, length_attrBytes]; omega), hcons, List.append_assoc]

/-- A chain that does not fit fails, with some of it in the message. -/
theorem nlaPuts_of_not_fits {e : Endian} {fs : List Field} {msg : MsgBuf}
    (hcap : msg.bytes.length ≤ msg.cap)
    (h : ¬ msg.bytes.length + (streamBytes e fs).length ≤ msg.cap) :
    ∃ put, nlaPuts e fs msg = (false, { msg with bytes := msg.bytes ++ put }) := by
  induction fs generalizing msg with
  | nil =>
    have hnil : (streamBytes e []).length = 0 := rfl
    omega
  | cons f fs ih =>
    have hcons : streamBytes e (f :: fs) = attrBytes e f ++ streamBytes e fs := rfl
    rw [hcons, List.length_append, length_attrBytes] at h
    rw [nlaPuts]
    by_cases hf : msg.bytes.length + f.size ≤ msg.cap
    · -- this one fits, so a later one does not
      have hlen : (msg.bytes ++ attrBytes e f).length = msg.bytes.length + f.size := by
        rw [List.length_append, length_attrBytes]
      obtain ⟨put, hput⟩ := @ih { msg with bytes := msg.bytes ++ attrBytes e f }
        (by simp only [hlen]; omega) (by simp only [hlen]; omega)
      refine ⟨attrBytes e f ++ put, ?_⟩
      rw [nlaPut_of_fits hf]
      simp only [hput, List.append_assoc]
    · exact ⟨[], by rw [nlaPut_of_not_fits hf]; simp⟩

/-- The container attribute around a run of attributes. -/
def container (e : Endian) (type : ℕ) (fs : List Field) : Field :=
  ⟨NLA_F_NESTED + type, streamBytes e fs⟩

theorem size_container (e : Endian) (type : ℕ) (fs : List Field) :
    (container e type fs).size = 4 + (streamBytes e fs).length := by
  have h := length_streamBytes_mod e fs
  unfold Field.size container
  exact nlaAlign_of_mod (by simp only; omega)

/-- **The round trip of a container.** Inside it, the walk visits the
attributes it was filled with. -/
theorem nested_container (e : Endian) {type : ℕ} {fs : List Field} (h : ∀ f ∈ fs, f.Fits)
    (rest : List U8) :
    (seen (container e type fs) rest).nested e = seenAll e fs rest := by
  have hmod := length_streamBytes_mod e fs
  have halign : nlaAlign (4 + (streamBytes e fs).length) = 4 + (streamBytes e fs).length :=
    nlaAlign_of_mod (by omega)
  have hmem : (seen (container e type fs) rest).mem = streamBytes e fs ++ rest := by
    simp [seen, container, halign]
  rw [NlAttr.nested, hmem, seen_len, container]
  exact nlaForEach_streamBytes e fs h rest rfl

/-- Closing a container writes the length of what is in it. -/
theorem nestEnd_bytes (e : Endian) (cap : ℕ) (old : List U8) (type : ℕ) (fs : List Field) :
    nestEnd e ⟨cap, old ++ attrBytes e ⟨NLA_F_NESTED + type, []⟩ ++ streamBytes e fs⟩ old.length =
      ⟨cap, old ++ attrBytes e (container e type fs)⟩ := by
  have hmod := length_streamBytes_mod e fs
  have halign : nlaAlign (4 + (streamBytes e fs).length) = 4 + (streamBytes e fs).length :=
    nlaAlign_of_mod (by omega)
  have hopen : attrBytes e ⟨NLA_F_NESTED + type, []⟩ =
      e.bytes 2 4 ++ e.bytes 2 (NLA_F_NESTED + type) := by
    simp [attrBytes, nlaAlign]
  have hclosed : attrBytes e (container e type fs) = e.bytes 2 (4 + (streamBytes e fs).length) ++
      e.bytes 2 (NLA_F_NESTED + type) ++ streamBytes e fs := by
    simp [attrBytes, container, halign]
  have hlen : (old ++ (e.bytes 2 4 ++ e.bytes 2 (NLA_F_NESTED + type)) ++
      streamBytes e fs).length - old.length = 4 + (streamBytes e fs).length := by
    simp only [List.length_append, Endian.length_bytes]
    omega
  have hdrop : (old ++ (e.bytes 2 4 ++ e.bytes 2 (NLA_F_NESTED + type)) ++
      streamBytes e fs).drop (old.length + 2) =
      e.bytes 2 (NLA_F_NESTED + type) ++ streamBytes e fs := by
    rw [List.append_assoc, List.drop_append, List.append_assoc]
    simp
  rw [nestEnd, hopen, hclosed, hlen, hdrop]
  simp

/-- **A container around a chain of puts** lays out one attribute whose
payload is theirs. -/
theorem nest_bytes {e : Endian} {type : ℕ} {fs : List Field} {msg : MsgBuf}
    (h : msg.bytes.length + (container e type fs).size ≤ msg.cap) :
    ∃ msg₁ msg₂, msg.nestStart e type = (some msg.bytes.length, msg₁) ∧
      nlaPuts e fs msg₁ = (true, msg₂) ∧
      nestEnd e msg₂ msg.bytes.length =
        { msg with bytes := msg.bytes ++ attrBytes e (container e type fs) } := by
  rw [size_container] at h
  have hsize : (⟨NLA_F_NESTED + type, []⟩ : Field).size = 4 := by
    simp [Field.size, nlaAlign]
  refine ⟨{ msg with bytes := msg.bytes ++ attrBytes e ⟨NLA_F_NESTED + type, []⟩ }, _,
    ?_, nlaPuts_of_fits ?_, nestEnd_bytes e msg.cap msg.bytes type fs⟩
  · rw [nestStart, nlaPut_of_fits (by omega)]
  · simp only [List.length_append, length_attrBytes, hsize]
    omega

/-- **A container of which only the header fits** is opened, not filled, and taken out again. -/
theorem nest_cancel {e : Endian} {type : ℕ} {fs : List Field} {msg : MsgBuf}
    (hopen : msg.bytes.length + 4 ≤ msg.cap)
    (h : ¬ msg.bytes.length + (container e type fs).size ≤ msg.cap) :
    ∃ msg₁ msg₂, msg.nestStart e type = (some msg.bytes.length, msg₁) ∧
      nlaPuts e fs msg₁ = (false, msg₂) ∧ nestCancel msg₂ msg.bytes.length = msg := by
  have hsize : (⟨NLA_F_NESTED + type, []⟩ : Field).size = 4 := by simp [Field.size, nlaAlign]
  have hlen : (msg.bytes ++ attrBytes e ⟨NLA_F_NESTED + type, []⟩).length =
      msg.bytes.length + 4 := by
    rw [List.length_append, length_attrBytes, hsize]
  rw [size_container] at h
  obtain ⟨put, hput⟩ := @nlaPuts_of_not_fits e fs
    { msg with bytes := msg.bytes ++ attrBytes e ⟨NLA_F_NESTED + type, []⟩ }
    (by simp only [hlen]; omega) (by simp only [hlen]; omega)
  refine ⟨_, _, ?_, hput, by simp [nestCancel]⟩
  rw [nestStart, nlaPut_of_fits (by omega)]

/-- Without room for its header a container is not opened. -/
theorem nestStart_full {e : Endian} {type : ℕ} {msg : MsgBuf}
    (h : msg.cap < msg.bytes.length + 4) : msg.nestStart e type = (none, msg) := by
  have hsize : (⟨NLA_F_NESTED + type, []⟩ : Field).size = 4 := by simp [Field.size, nlaAlign]
  rw [nestStart, nlaPut_of_not_fits (by omega)]

end MsgBuf

end Librefw
