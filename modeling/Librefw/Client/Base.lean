import Librefw.Client.Model.Base
import Librefw.Kernel.Nl

/-!
# One container of a request

A container that fits is packed (`packNested_of_fits`). One that does not
is taken out again, if its header fitted (`packNested_of_not_fits`); if
not even that, it was never opened, and cancelling it is a fault
(`packNested_of_full`).
-/

namespace Librefw

open MsgBuf

variable {e : Endian}
variable {type : ℕ} {fields : List Field} {msg : MsgBuf}

/-- A container that fits is packed. -/
theorem packNested_of_fits (h : msg.bytes.length + (container e type fields).size ≤ msg.cap) :
    packNested e type fields msg =
      .ok (true, { msg with bytes := msg.bytes ++ attrBytes e (container e type fields) }) := by
  obtain ⟨msg₁, msg₂, hstart, hputs, hend⟩ := nest_bytes h
  unfold packNested
  simp only [hstart, hputs, hend, if_true, pure_eq_ok]

/-- A container of which only the header fits is taken out again. -/
theorem packNested_of_not_fits (hcap : msg.bytes.length + 4 ≤ msg.cap)
    (h : ¬ msg.bytes.length + (container e type fields).size ≤ msg.cap) :
    packNested e type fields msg = .ok (false, msg) := by
  obtain ⟨msg₁, msg₂, hstart, hputs, hcancel⟩ := nest_cancel hcap h
  unfold packNested
  simp only [hstart, hputs, Bool.false_eq_true, if_false, hcancel, pure_eq_ok]

/-- Without room for its header a container is not opened, and cancelling it is a
fault. -/
theorem packNested_of_full (h : msg.cap < msg.bytes.length + 4) :
    packNested e type fields msg = .error .nullDeref := by
  unfold packNested
  simp only [nestStart_full h, throw_eq_error]

end Librefw
