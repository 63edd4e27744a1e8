import Librefw.Kernel.Model.Nl

/-!
# Messages of the family, read back

A message whose attributes were laid out as a stream is seen as that stream
(`all_genlAttrs`), whatever follows it in memory.
-/

namespace Librefw

variable {e : Endian}

@[simp] theorem length_genlmsgPut (room cmd : ℕ) : (genlmsgPut room cmd).bytes.length = 4 := rfl

/-- The attributes of a message are those laid out after its header. -/
theorem all_genlAttrs {fs : List Field} (h : ∀ f ∈ fs, f.Fits) (room cmd : ℕ) (rest : List U8) :
    (genlAttrs ((genlmsgPut room cmd).bytes ++ streamBytes e fs) rest).all e =
      seenAll e fs rest := by
  have hdrop : ((genlmsgPut room cmd).bytes ++ streamBytes e fs).drop GENL_HDRLEN =
      streamBytes e fs := by
    rw [GENL_HDRLEN, ← length_genlmsgPut room cmd, List.drop_left]
  have hlen : ((genlmsgPut room cmd).bytes ++ streamBytes e fs).length - GENL_HDRLEN =
      (streamBytes e fs).length := by
    rw [List.length_append, length_genlmsgPut, GENL_HDRLEN, Nat.add_sub_cancel_left]
  unfold GenlInfo.all genlAttrs
  rw [hdrop, hlen]
  exact nlaForEach_streamBytes e fs h rest rfl

/-! ## What a walk sees, by type -/

theorem seenAll_append (fs gs : List Field) (rest : List U8) :
    seenAll e (fs ++ gs) rest = seenAll e fs (streamBytes e gs ++ rest) ++ seenAll e gs rest := by
  induction fs with
  | nil => rfl
  | cons f fs ih =>
    have hstream : streamBytes e (fs ++ gs) = streamBytes e fs ++ streamBytes e gs :=
      List.flatMap_append
    rw [List.cons_append, seenAll, seenAll, ih, hstream, List.append_assoc, List.cons_append]

/-- Where every attribute laid out has the type, all are seen. -/
theorem attrsOfType_seenAll_of_all {type : ℕ} {fs : List Field}
    (h : ∀ f ∈ fs, f.type % 2 ^ 14 = type) (rest : List U8) :
    attrsOfType type (seenAll e fs rest) = seenAll e fs rest := by
  refine List.filter_eq_self.2 fun a ha => ?_
  obtain ⟨f, hf, rest', rfl⟩ := exists_of_mem_seenAll ha
  exact decide_eq_true (h f hf)

/-- Where none has, none is. -/
theorem attrsOfType_seenAll_of_none {type : ℕ} {fs : List Field}
    (h : ∀ f ∈ fs, f.type % 2 ^ 14 ≠ type) (rest : List U8) :
    attrsOfType type (seenAll e fs rest) = [] := by
  refine List.filter_eq_nil_iff.2 fun a ha => ?_
  obtain ⟨f, hf, rest', rfl⟩ := exists_of_mem_seenAll ha
  intro hseen
  exact h f hf (of_decide_eq_true hseen)

/-- A decoder that does not look past an attribute's payload decodes what was
laid out. -/
theorem map_seenAll {α β : Type} {field : α → Field} {decode : NlAttr → β} {spec : α → β}
    {xs : List α} (h : ∀ x ∈ xs, ∀ rest, decode (seen (field x) rest) = spec x) (rest : List U8) :
    (seenAll e (xs.map field) rest).map decode = xs.map spec := by
  induction xs with
  | nil => rfl
  | cons x xs ih =>
    rw [List.map_cons, seenAll, List.map_cons, List.map_cons, h x (List.mem_cons_self ..),
      ih fun y hy => h y (List.mem_cons_of_mem _ hy)]

/-- The type of a container is the one it was opened with. -/
theorem container_type {type : ℕ} (h : type < 2 ^ 14) (fs : List Field) :
    (MsgBuf.container e type fs).type % 2 ^ 14 = type := by
  show (NLA_F_NESTED + type) % 2 ^ 14 = type
  unfold NLA_F_NESTED
  omega

/-- A container with little in it fits its length field. -/
theorem container_fits {type : ℕ} (h : type < 2 ^ 14) {fs : List Field}
    (hsize : (MsgBuf.container e type fs).size < 2 ^ 16) :
    (MsgBuf.container e type fs).Fits := by
  rw [MsgBuf.size_container] at hsize
  refine ⟨hsize, ?_⟩
  show NLA_F_NESTED + type < 2 ^ 16
  unfold NLA_F_NESTED
  omega

end Librefw
