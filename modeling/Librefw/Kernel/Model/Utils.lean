import Librefw.Common.Mem
import Librefw.Common.Words

/-!
# Address helpers

`utils.c`, and the byte-order conversions the handlers apply to
addresses.
-/

namespace Librefw

def IPV4_BITS : ℕ := 32

/-- `in4_get_bit`: the bit counted from the top. A shift by more than the
word is undefined. -/
def in4GetBit (ip : U32) (bit_index : ℕ) : Except Fault Bool :=
  if bit_index ≤ IPV4_BITS - 1 then
    pure ((ip >>> (IPV4_BITS - 1 - bit_index)) &&& 1#32 == 1#32)
  else throw (.badShift bit_index)

/-- `in4_get_masked`. -/
def in4GetMasked (ip : U32) (prefix_len : ℕ) : U32 :=
  if prefix_len = 0 then 0#32 else ip &&& (0xFFFFFFFF#32 <<< (IPV4_BITS - prefix_len))

/-- `get_unaligned_be32(&v)`: the bytes a host word has in memory, read in
network order. -/
def getUnalignedBe32 (e : Endian) (v : U32) : U32 := Endian.big.word 4 (e.ofWord (w := 4) v)

/-- `htonl(v)`: the host word whose bytes in memory are those of `v` in network
order. -/
def htonl (e : Endian) (v : U32) : U32 := e.word 4 (Endian.big.ofWord (w := 4) v)

end Librefw
