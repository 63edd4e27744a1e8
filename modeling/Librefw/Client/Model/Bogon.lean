import Librefw.Client.Model.Base

/-!
# The client's bogon list

`command.cpp` as far as it sends a bogon list.
-/

namespace Librefw

/-- One line of the file: the address as `inet_pton` leaves it, `uninit` if it
leaves it alone, and the length cut to `unsigned short`. Without a slash both
are read from the whole line. -/
def bogonLine (e : Endian) (uninit : U32) (line : List Char) : Except StdException (U32 × U16) := do
  let slash_pos := line.idxOf? '/'
  let ip_prefix := match slash_pos with
    | some pos => line.take pos
    | none => line
  let ip_prefix_len ← stoi (match slash_pos with
    | some pos => line.drop (pos + 1)
    | none => line)
  let s_addr := match inetPton (List.takeWhile (· ≠ '\x00') ip_prefix) with
    | some addr => e.word 4 addr
    | none => uninit
  pure (s_addr, BitVec.ofInt 16 ip_prefix_len)

/-- The attributes of one prefix, its length cut to a byte. -/
def bogonFields (e : Endian) (s_addr : U32) (ip_prefix_len : U16) : List Field :=
  [⟨LFW_NLA_N_IP_ADDR, e.ofWord (w := 4) s_addr⟩,
    ⟨LFW_NLA_N_IP_PREFIX_LEN, [ip_prefix_len.setWidth 8]⟩]

/-- The loop over the lines; a prefix that does not fit ends it. `uninit` is what
is in the memory of `addr` as each line is begun. -/
def packPrefixes (e : Endian) (uninit : ℕ → U32) :
    List (List Char) → U32 → MsgBuf → Except ClientAbort (U32 × MsgBuf)
  | [], num_lines, msg => pure (num_lines, msg)
  | line :: lines, num_lines, msg => do
    let (s_addr, ip_prefix_len) ←
      (bogonLine e (uninit num_lines.toNat) line).mapError ClientAbort.exception
    let (packed, msg) ← (packNested e LFW_NLA_IP_PREFIX (bogonFields e s_addr ip_prefix_len)
      msg).mapError ClientAbort.fault
    if packed then packPrefixes e uninit lines (num_lines + 1) msg
    else pure (num_lines, msg)

/-- `CommandDispatcher::send_bogon_list`: what is sent, if the file opens. -/
def sendBogonList (e : Endian) (uninit : ℕ → U32) (capacity : U32) (file : Option (List Char)) :
    Except ClientAbort (Option (List U8)) :=
  match file with
  | none => pure none
  | some file => do
    let msg ← makeMessage capacity LFW_NL_CMD_SET_BOGON
    let (num_lines, msg) ← packPrefixes e uninit (getlines file) 0 msg
    let (_, msg) := msg.nlaPut e ⟨LFW_NLA_NUM_IP_PREFIX, e.ofWord (w := 4) num_lines⟩
    pure (some msg.bytes)

end Librefw
