import Librefw.Client.Restore
import Librefw.Deployment.Model.World

/-!
# What the client sends reaches its handler

Every message the client sends passes the policy of the family, and its
command is the one of the handler it is meant for. So the module does on
receiving it what the handler does on the attributes the client packed
(`lfwNlReceive_bogon`, `lfwNlReceive_underAttack`, `lfwNlReceive_history`).
-/

namespace Librefw

variable {e : Endian} {s : LfwSystem} {A : Allocator}

/-! ## The policy on what was laid out -/

/-- A stream of attributes passes if each does, whatever follows it. -/
theorem nlaValidate_seenAll {pol : List (ℕ × NlaPolicy)} {fs : List Field}
    (h : ∀ f ∈ fs, ∀ rest, ∃ p, pol.lookup (f.type % 2 ^ 14) = some p ∧
      p.admits e (seen f rest) = true) (rest : List U8) :
    nlaValidate e pol (seenAll e fs rest) = true := by
  refine List.all_eq_true.2 fun a ha => ?_
  obtain ⟨f, hf, rest', rfl⟩ := exists_of_mem_seenAll ha
  obtain ⟨p, hp, hadmits⟩ := h f hf rest'
  rw [seen_type, hp]
  exact hadmits

/-- A container passes if its attributes do. -/
theorem admits_container {type : ℕ} {pol : List (ℕ × NlaScalar)} {fs : List Field}
    (hfits : ∀ f ∈ fs, f.Fits)
    (h : ∀ f ∈ fs, ∀ rest, ∃ p, pol.lookup (f.type % 2 ^ 14) = some p ∧
      p.admits (seen f rest) = true) (rest : List U8) :
    (NlaPolicy.nested pol).admits e (seen (MsgBuf.container e type fs) rest) = true := by
  unfold NlaPolicy.admits
  rw [MsgBuf.nested_container e hfits, Bool.and_eq_true]
  refine ⟨decide_eq_true ?_, List.all_eq_true.2 fun a ha => ?_⟩
  · show NLA_F_NESTED ≤ NLA_F_NESTED + type
    exact Nat.le_add_right _ _
  · obtain ⟨f, hf, rest', rfl⟩ := exists_of_mem_seenAll ha
    obtain ⟨p, hp, hadmits⟩ := h f hf rest'
    rw [seen_type, hp]
    exact hadmits

/-! ## A list -/

theorem BogonLine.field_admitted (l : BogonLine) (rest : List U8) :
    ∃ p, lfwPol.lookup ((l.field e).type % 2 ^ 14) = some p ∧
      p.admits e (seen (l.field e) rest) = true := by
  refine ⟨.nested lfwIpPrefixPol, by rw [l.field_type]; rfl, ?_⟩
  refine admits_container (fun f hf => ?_) (fun f hf rest' => ?_) rest
  · unfold bogonFields at hf
    simp only [List.mem_cons, List.not_mem_nil, or_false] at hf
    rcases hf with rfl | rfl <;> simp [Field.Fits, LFW_NLA_N_IP_ADDR, LFW_NLA_N_IP_PREFIX_LEN]
  · unfold bogonFields at hf
    simp only [List.mem_cons, List.not_mem_nil, or_false] at hf
    rcases hf with rfl | rfl
    · exact ⟨.u32, rfl, by simp [NlaScalar.admits]⟩
    · exact ⟨.u8, rfl, by simp [NlaScalar.admits]⟩

theorem bogonMessage_admitted (lines : List BogonLine) (counted : Bool) (rest : List U8) :
    lfwPolicyAdmits e (genlAttrs (bogonMessage e lines counted) rest) = true := by
  rw [lfwPolicyAdmits, all_bogonMessage]
  refine nlaValidate_seenAll (fun f hf rest' => ?_) rest
  rcases List.mem_append.1 hf with hf | hf
  · obtain ⟨l, -, rfl⟩ := List.mem_map.1 hf
    exact l.field_admitted rest'
  · cases counted with
    | true =>
      obtain rfl := List.mem_singleton.1 hf
      exact ⟨.scalar .u32, by rw [bogonCount_type]; rfl, by simp [NlaPolicy.admits,
        NlaScalar.admits, bogonCount]⟩
    | false => cases hf

/-- **A list is received by `lfw_bogon_set`.** -/
theorem lfwNlReceive_bogon (lines : List BogonLine) (counted : Bool) (rest : List U8) :
    lfwNlReceive e A (bogonMessage e lines counted) rest s =
      lfwBogonSetDoit e A (genlAttrs (bogonMessage e lines counted) rest) s := by
  have hcmd : lfwNlDoits.lookup ((bogonMessage e lines counted).headD 0).toNat =
      some lfwBogonSetDoit := rfl
  unfold lfwNlReceive
  rw [hcmd]
  simp only [bogonMessage_admitted, if_true]

/-! ## The flag -/

/-- The message of the flag. -/
def underAttackFields (set : Bool) : List Field := if set then [⟨LFW_NLA_UNDER_ATTACK, []⟩] else []

def underAttackMessage (e : Endian) (set : Bool) : List U8 :=
  (genlmsgPut 0 LFW_NL_CMD_SET_UNDER_ATTACK).bytes ++ streamBytes e (underAttackFields set)

/-- **What is sent** of the flag: nothing if there is no room for it. -/
theorem setUnderAttack_eq (e : Endian) (capacity : U32) (set : Bool) :
    setUnderAttack e capacity set =
      if capacity.toNat < 20 then .error (.exception .systemError)
      else if set = true ∧ capacity.toNat < 24 then .ok none
      else .ok (some (underAttackMessage e set)) := by
  unfold setUnderAttack makeMessage NLMSG_HDRLEN GENL_HDRLEN
  by_cases hhdr : capacity.toNat < 20
  · rw [if_pos hhdr, if_neg (by omega)]
    rfl
  rw [if_neg hhdr, if_pos (by omega), pure_eq_ok, ok_bind]
  cases set with
  | false => rfl
  | true =>
    set msg := genlmsgPut (capacity.toNat - 16) LFW_NL_CMD_SET_UNDER_ATTACK with hmsg
    have hsize : (⟨LFW_NLA_UNDER_ATTACK, []⟩ : Field).size = 4 := by simp [Field.size, nlaAlign]
    have hlen : msg.bytes.length = 4 := rfl
    have hcap : msg.cap = capacity.toNat - 16 := rfl
    simp only [if_true, true_and]
    by_cases hfit : capacity.toNat < 24
    · rw [if_pos hfit, MsgBuf.nlaPut_of_not_fits (by omega)]
      rfl
    · rw [if_neg hfit, MsgBuf.nlaPut_of_fits (by omega)]
      simp [underAttackMessage, underAttackFields, streamBytes, genlmsgPut, hmsg]

theorem underAttackFields_fit (set : Bool) : ∀ f ∈ underAttackFields set, f.Fits := by
  cases set with
  | false => exact fun f hf => nomatch hf
  | true =>
    intro f hf
    obtain rfl := List.mem_singleton.1 hf
    simp [Field.Fits, LFW_NLA_UNDER_ATTACK]

theorem all_underAttackMessage (set : Bool) (rest : List U8) :
    (genlAttrs (underAttackMessage e set) rest).all e = seenAll e (underAttackFields set) rest :=
  all_genlAttrs (underAttackFields_fit set) 0 LFW_NL_CMD_SET_UNDER_ATTACK rest

/-- The flag is read back. -/
theorem nlaGetFlag_underAttackMessage (set : Bool) (rest : List U8) :
    nlaGetFlag ((genlAttrs (underAttackMessage e set) rest).attrs e LFW_NLA_UNDER_ATTACK) = set := by
  unfold GenlInfo.attrs
  rw [all_underAttackMessage]
  cases set <;> rfl

/-- **The flag is received by `lfw_state_set_under_attack_nl`.** -/
theorem lfwNlReceive_underAttack (set : Bool) (rest : List U8) :
    lfwNlReceive e A (underAttackMessage e set) rest s =
      lfwStateSetUnderAttackDoit e A (genlAttrs (underAttackMessage e set) rest) s := by
  have hcmd : lfwNlDoits.lookup ((underAttackMessage e set).headD 0).toNat =
      some lfwStateSetUnderAttackDoit := rfl
  have hadmits : lfwPolicyAdmits e (genlAttrs (underAttackMessage e set) rest) = true := by
    rw [lfwPolicyAdmits, all_underAttackMessage]
    refine nlaValidate_seenAll (fun f hf rest' => ?_) rest
    cases set with
    | false => cases hf
    | true =>
      obtain rfl := List.mem_singleton.1 hf
      exact ⟨.scalar .flag, rfl, by simp [NlaPolicy.admits, NlaScalar.admits]⟩
  unfold lfwNlReceive
  rw [hcmd]
  simp only [hadmits, if_true]

/-! ## A history -/

theorem HcfIpv4Row.entry_admitted {row : HcfIpv4Row} (h : row.ip_addr.length = 4) (rest : List U8) :
    ∃ p, lfwPol.lookup ((row.entry e).type % 2 ^ 14) = some p ∧
      p.admits e (seen (row.entry e) rest) = true := by
  refine ⟨.nested hcfIpHistoryPol, ?_, ?_⟩
  · have htype : (row.entry e).type % 2 ^ 14 = LFW_NLA_HCF_HISTORY :=
      container_type (by decide) _
    rw [htype]
    rfl
  · refine admits_container row.fields_fit (fun f hf rest' => ?_) rest
    unfold HcfIpv4Row.fields at hf
    simp only [List.mem_cons, List.not_mem_nil, or_false] at hf
    rcases hf with rfl | rfl | rfl
    · exact ⟨.binary 16, rfl, by simp [NlaScalar.admits, h]⟩
    · exact ⟨.u8, rfl, by simp [NlaScalar.admits]⟩
    · exact ⟨.u8, rfl, by simp [NlaScalar.admits]⟩

/-- **A history is received by `hcf_register_ip_history`.** -/
theorem lfwNlReceive_history {rows : HcfIpv4History} (h : ∀ row ∈ rows, row.ip_addr.length = 4)
    (rest : List U8) :
    lfwNlReceive e A (historyMessage e rows) rest s =
      hcfRegisterIpHistoryDoit e A (genlAttrs (historyMessage e rows) rest) s := by
  have hcmd : lfwNlDoits.lookup ((historyMessage e rows).headD 0).toNat =
      some hcfRegisterIpHistoryDoit := rfl
  have hfits : ∀ f ∈ rows.map (HcfIpv4Row.entry e), f.Fits := by
    intro f hf
    obtain ⟨row, hrow, rfl⟩ := List.mem_map.1 hf
    exact HcfIpv4Row.entry_fits (h row hrow)
  have hadmits : lfwPolicyAdmits e (genlAttrs (historyMessage e rows) rest) = true := by
    rw [lfwPolicyAdmits, historyMessage, all_genlAttrs hfits]
    refine nlaValidate_seenAll (fun f hf rest' => ?_) rest
    obtain ⟨row, hrow, rfl⟩ := List.mem_map.1 hf
    exact HcfIpv4Row.entry_admitted (h row hrow) rest'
  unfold lfwNlReceive
  rw [hcmd]
  simp only [hadmits, if_true]

end Librefw
