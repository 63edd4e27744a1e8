import Librefw.Bogon.State
import Librefw.Common.Run
import Librefw.Kernel.Model.Policy
import Librefw.Kernel.NlOps

/-!
# What a SET_BOGON request blocks

The command counts twice: the count attribute sizes the buffer and drives
the build, the attributes present fill it. `lfwParsePrefixes_spec` gives
the buffer: one slot for each attribute, what it lacks left at zero, and
zeroed slots for the rest of the count. A zeroed slot is the prefix of
length zero, which contains every address, so what is blocked is what the
request lists exactly under the condition of `lfwBogonSet_blocks_iff`.
-/

namespace Librefw

open PtrTrie

variable {e : Endian} {A : Allocator} {info : GenlInfo} {s s' : LfwBgState}
variable {prefix_buf prefix_buf' : List LfwIpPrefix} {a : Addr} {t : PtrTrie Bool}
variable {olds : List (Addr × PtrTrie Bool)}

/-! ## The buffer -/

/-- The address an attribute carries, if it has one. -/
def lfwAddrOf (e : Endian) (pos : NlAttr) : Option U32 :=
  lastOf (fun b => b.type = LFW_NLA_N_IP_ADDR) (NlAttr.getU32 e) (pos.nested e)

/-- The length an attribute carries, if it has one. -/
def lfwLenOf (e : Endian) (pos : NlAttr) : Option U8 :=
  lastOf (fun b => b.type = LFW_NLA_N_IP_PREFIX_LEN) NlAttr.getU8 (pos.nested e)

/-- The slot an attribute fills. -/
def lfwSlot (e : Endian) (pos : NlAttr) : LfwIpPrefix :=
  (pos.nested e).foldl (lfwParseField e) .zero

/-- A slot holds what the attribute carries, and zero for what it lacks. -/
theorem lfwSlot_eq (e : Endian) (pos : NlAttr) :
    lfwSlot e pos = ⟨(lfwAddrOf e pos).getD 0, (lfwLenOf e pos).getD 0⟩ := by
  have haddr : ∀ (p : LfwIpPrefix) (b : NlAttr), (lfwParseField e p b).ipPrefix =
      if decide (b.type = LFW_NLA_N_IP_ADDR) then b.getU32 e else p.ipPrefix := by
    intro p b
    unfold lfwParseField
    by_cases h1 : b.type = LFW_NLA_N_IP_ADDR
    · simp [h1]
    · simp only [h1, if_false, decide_false]
      split <;> rfl
  have hlen : ∀ (p : LfwIpPrefix) (b : NlAttr), (lfwParseField e p b).ipPrefixLen =
      if decide (b.type = LFW_NLA_N_IP_PREFIX_LEN) then b.getU8 else p.ipPrefixLen := by
    intro p b
    unfold lfwParseField
    by_cases h1 : b.type = LFW_NLA_N_IP_ADDR
    · rw [if_pos h1, h1]
      rfl
    · rw [if_neg h1]
      by_cases h2 : b.type = LFW_NLA_N_IP_PREFIX_LEN <;> simp [h2]
  -- each field keeps the last value written to it
  have h1 := foldl_lastWrite haddr (pos.nested e) .zero
  have h2 := foldl_lastWrite hlen (pos.nested e) .zero
  exact congrArg₂ LfwIpPrefix.mk h1 h2

/-- An attribute that is not a field of a prefix is skipped. -/
theorem lfwParseField_of_not {p : LfwIpPrefix} {b : NlAttr} (h : lfwIsField b = false) :
    lfwParseField e p b = p := by
  simp only [lfwIsField, decide_eq_false_iff_not, not_or] at h
  rw [lfwParseField, if_neg h.1, if_neg h.2]

/-- One attribute fills its slot, if the buffer has it. -/
theorem lfwParsePrefix_eq (e : Endian) (done rest : List LfwIpPrefix) (p : LfwIpPrefix)
    (pos : NlAttr) :
    lfwParsePrefix e done.length (done ++ p :: rest) pos =
      .ok (done ++ (pos.nested e).foldl (lfwParseField e) p :: rest) := by
  unfold lfwParsePrefix
  induction pos.nested e generalizing p with
  | nil => rfl
  | cons b l ih =>
    rw [List.foldlM_cons, List.foldl_cons]
    cases hb : lfwIsField b with
    | true =>
      have hget : (done ++ p :: rest)[done.length]? = some p := by simp
      have hset : (done ++ p :: rest).set done.length (lfwParseField e p b) =
          done ++ lfwParseField e p b :: rest := by simp
      simp only [if_true, hget, hset, pure_eq_ok, ok_bind]
      exact ih _
    | false =>
      rw [lfwParseField_of_not hb]
      exact ih _

/-- **The buffer**: a slot for each attribute, then what was zeroed. -/
theorem lfwParsePrefixes_spec (e : Endian) (attrs : List NlAttr) {n : ℕ} (h : attrs.length ≤ n)
    (done : List LfwIpPrefix) :
    lfwParsePrefixes e done.length (done ++ List.replicate n .zero) attrs =
      .ok (done ++ attrs.map (lfwSlot e) ++ List.replicate (n - attrs.length) .zero) := by
  induction attrs generalizing n done with
  | nil => simp [lfwParsePrefixes]
  | cons pos attrs ih =>
    obtain ⟨n, rfl⟩ : ∃ k, n = k + 1 := ⟨n - 1, by simp at h; omega⟩
    have hnext := ih (n := n) (by simpa using h) (done ++ [lfwSlot e pos])
    rw [List.length_append, List.length_singleton, List.append_assoc, List.singleton_append] at hnext
    -- the slot that was filled leaves one zeroed slot less
    have hsub : n + 1 - (pos :: attrs).length = n - attrs.length := by
      rw [List.length_cons, Nat.add_sub_add_right]
    rw [lfwParsePrefixes, List.replicate_succ, lfwParsePrefix_eq, ok_bind, hsub]
    refine hnext.trans ?_
    simp

/-- Filling the buffer keeps its size. -/
theorem lfwParsePrefix_length {runner : ℕ} {pos : NlAttr}
    (h : lfwParsePrefix e runner prefix_buf pos = .ok prefix_buf') :
    prefix_buf'.length = prefix_buf.length := by
  unfold lfwParsePrefix at h
  generalize pos.nested e = l at h
  induction l generalizing prefix_buf with
  | nil =>
    obtain rfl := Except.ok.inj h
    rfl
  | cons b l ih =>
    rw [List.foldlM_cons] at h
    obtain ⟨buf, hstep, h⟩ := bind_eq_ok.1 h
    rw [ih h]
    split at hstep
    · split at hstep
      · cases hstep
      · obtain rfl := Except.ok.inj hstep
        exact List.length_set
    · obtain rfl := Except.ok.inj hstep
      rfl

theorem lfwParsePrefixes_length {attrs : List NlAttr} {runner : ℕ}
    (h : lfwParsePrefixes e runner prefix_buf attrs = .ok prefix_buf') :
    prefix_buf'.length = prefix_buf.length := by
  induction attrs generalizing runner prefix_buf with
  | nil =>
    obtain rfl := Except.ok.inj h
    rfl
  | cons pos attrs ih =>
    rw [lfwParsePrefixes] at h
    obtain ⟨buf, hone, h⟩ := bind_eq_ok.1 h
    rw [ih h, lfwParsePrefix_length hone]

/-- The containers take their share of the request. -/
theorem lfwPrefixAttrs_lt (h : info.attrlen < 2 ^ 31) :
    (lfwPrefixAttrs e info).length < 2 ^ 29 := by
  have hfilter : (lfwPrefixAttrs e info).length ≤ (info.all e).length := List.length_filter_le ..
  have hwalk : 4 * (info.all e).length ≤ info.attrlen := length_nlaForEach ..
  omega

/-- There are no more entries than were asked for. -/
theorem lfwBufEntries_le (A : Allocator) (n : ℕ) : lfwBufEntries A n ≤ n := by
  have hmod := Nat.mod_le (8 * n) (2 ^ A.size_t.bits)
  unfold lfwBufEntries
  omega

/-- And as many, where `size_t` holds the product. -/
theorem lfwBufEntries_eq_iff (A : Allocator) (n : ℕ) :
    lfwBufEntries A n = n ↔ 8 * n < 2 ^ A.size_t.bits := by
  have hlt := Nat.mod_lt (8 * n) (Nat.two_pow_pos A.size_t.bits)
  unfold lfwBufEntries
  constructor
  · intro h
    omega
  · intro h
    rw [Nat.mod_eq_of_lt h]
    omega

theorem lfwBufEntries_of_lt (A : Allocator) {n : ℕ} (h : n < 2 ^ 29) : lfwBufEntries A n = n := by
  rw [lfwBufEntries_eq_iff]
  cases A.size_t with
  | long32 =>
    show 8 * n < 2 ^ 32
    omega
  | long64 =>
    show 8 * n < 2 ^ 64
    omega

theorem lfwVzalloc_of_ne (A : Allocator) (bufs : Mem (List LfwIpPrefix)) {n : ℕ} (h : n ≠ 0) :
    lfwVzalloc A bufs n = bufs.zalloc A (List.replicate n .zero) := if_neg h

/-- **What a request that returns zero has done**: it filled the buffer it was given, loaded as
many prefixes as it announced, and freed the buffer. -/
theorem lfwBogonSet_ok {ret : ℤ} (h : lfwBogonSet e A info s = .ok (ret, s')) :
    (ret ≠ 0 ∧ ∃ bufs, s' = { s with bufs := bufs }) ∨
    (ret = 0 ∧ 0 < lfwNumPrefix e info ∧ ∃ prefix_buf bufs bufs' s₁,
      lfwParsePrefixes e 0 (List.replicate (lfwBufEntries A (lfwNumPrefix e info)) .zero)
        (lfwPrefixAttrs e info) = .ok prefix_buf ∧
      prefix_buf.length = lfwBufEntries A (lfwNumPrefix e info) ∧
      lfwLoadBgTree e A prefix_buf (lfwNumPrefix e info) { s with bufs := bufs } = .ok s₁ ∧
      s' = { s₁ with bufs := bufs' }) := by
  unfold lfwBogonSet at h
  -- a return before the load leaves everything but the buffers as it was
  by_cases hnum : lfwNumPrefix e info = 0
  · simp only [hnum, if_true, pure_eq_ok, Except.ok.injEq, Prod.mk.injEq] at h
    obtain ⟨rfl, rfl⟩ := h
    exact Or.inl ⟨by decide, s.bufs, rfl⟩
  · simp only [hnum, if_false] at h
    split at h
    · obtain ⟨rfl, rfl⟩ := Prod.mk.inj (Except.ok.inj h)
      exact Or.inl ⟨by decide, _, rfl⟩
    · obtain ⟨buf, hparse, h⟩ := bind_eq_ok.1 h
      obtain ⟨bufs₁, -, h⟩ := bind_eq_ok.1 h
      obtain ⟨s₁, hload, h⟩ := bind_eq_ok.1 h
      obtain ⟨bufs₂, -, h⟩ := bind_eq_ok.1 h
      obtain ⟨rfl, rfl⟩ := Prod.mk.inj (Except.ok.inj h)
      have hsize := lfwParsePrefixes_length hparse
      rw [List.length_replicate] at hsize
      exact Or.inr ⟨rfl, by omega, buf, bufs₁, bufs₂, s₁, hparse, hsize, hload, rfl⟩

/-- The invariant says nothing about the buffers. -/
theorem LfwBgInv.bufs (h : LfwBgInv s a t olds) (bufs : Mem (List LfwIpPrefix)) :
    LfwBgInv { s with bufs := bufs } a t olds :=
  ⟨h.tree_eq, h.header, h.stored, h.rcu_eq, h.old, h.nodes_le, h.trees_le⟩

/-- A request that does not fault keeps the invariant, whatever it carries and
whatever memory there is. -/
theorem LfwBgInv.set {ret : ℤ} (h : LfwBgInv s a t olds)
    (hrun : lfwBogonSet e A info s = .ok (ret, s')) : ∃ a t olds, LfwBgInv s' a t olds := by
  rcases lfwBogonSet_ok hrun with ⟨-, bufs, rfl⟩ |
    ⟨-, -, buf, bufs, bufs', s₁, -, hsize, hload, rfl⟩
  · exact ⟨a, t, olds, h.bufs bufs⟩
  · rcases lfwLoadBgTree_cases (hsize ▸ lfwBufEntries_le A _) hload with
      ⟨-, hgave⟩ | ⟨-, -, -, -, a', t', hl⟩
    · exact ⟨a, t, olds, (hgave.inv (h.bufs bufs)).bufs bufs'⟩
    · exact ⟨a', t', _, (hl.inv (h.bufs bufs)).bufs bufs'⟩

theorem lfwInitBgState_inv (hinit : lfwInitBgState A = .ok s) :
    ∃ a t olds, LfwBgInv s a t olds := by
  unfold lfwInitBgState at hinit
  split at hinit
  · cases hinit
  · next tree trees halloc =>
    obtain rfl := Except.ok.inj hinit
    obtain ⟨b, trees', halloc', hext⟩ :=
      Mem.zalloc_supply A.complete (Mem.empty : Mem LfwBgTree) ⟨none⟩
    obtain ⟨hb, rfl⟩ := Prod.mk.inj (halloc'.symm.trans (Mem.zalloc_complete halloc))
    obtain rfl := Option.some.inj hb
    exact ⟨b, .nil, [], rfl, hext.lookup_self, trivial, rfl, fun x hx => absurd hx List.not_mem_nil,
      by simp, by simp [hext.allocated]⟩

/-- The list after its initialisation. -/
def lfwFirstState : LfwBgState :=
  ⟨Mem.empty, { (Mem.empty.set 0 ⟨none⟩) with tick := 1 }, Mem.empty, some 0, [], []⟩

theorem lfwInitBgState_first : lfwInitBgState Supply.next.toAllocator = .ok lfwFirstState := rfl

/-- **In every state a run reaches the list is well formed.** -/
theorem lfwBgRun_inv {A₀ : Allocator} {s₀ : LfwBgState} {ops : List LfwBgOp}
    (hinit : lfwInitBgState A₀ = .ok s₀) (hrun : run (lfwBgStep e) s₀ ops = .ok s) :
    ∃ a t olds, LfwBgInv s a t olds := by
  refine @run_keeps _ _ _ _ _ _ (fun s => ∃ a t olds, LfwBgInv s a t olds) ?_
    (lfwInitBgState_inv hinit) hrun
  rintro s op s' ⟨a, t, olds, h⟩ hstep
  cases op with
  | set A info =>
    obtain ⟨⟨ret, s₁⟩, hset, hpure⟩ := bind_eq_ok.1 hstep
    obtain rfl := Except.ok.inj hpure
    exact h.set hset
  | callback i =>
    obtain ⟨s₁, hfree, h', -⟩ := lfwFreeBgTree_spec i h
    obtain rfl := Except.ok.inj (hfree.symm.trans hstep)
    exact ⟨a, t, _, h'⟩

/-! ## What is blocked -/

/-- An address the filter blocks. -/
def LfwBlocked (s : LfwBgState) (ip : U32) : Prop := ∃ r, lfwLookupBgTree s ip = .ok r ∧ 0 < r

/-- The prefix of an attribute that has both its fields. -/
def lfwCarried (e : Endian) (pos : NlAttr) : Option LfwIpPrefix := do
  let addr ← lfwAddrOf e pos
  let len ← lfwLenOf e pos
  pure ⟨addr, len⟩

/-- An address in a prefix some attribute of the request carries whole. -/
def LfwListed (e : Endian) (info : GenlInfo) (ip : U32) : Prop :=
  ∃ pos ∈ lfwPrefixAttrs e info, ∃ p ∈ lfwCarried e pos, p.Contains e ip

instance (e : Endian) (info : GenlInfo) (ip : U32) : Decidable (LfwListed e info ip) :=
  inferInstanceAs (Decidable (∃ pos ∈ _, ∃ p ∈ _, _))

/-- The condition under which a request blocks what it lists. Every attribute
has its length and there are as many as announced, or the list contains every
address anyway; and where an attribute lacks its address, the list contains the
prefix of its length at `0.0.0.0`. Without memory for the new list, the old one
has to block what is listed. -/
def LfwSetExact (e : Endian) (A : Allocator) (info : GenlInfo) (s : LfwBgState) : Prop :=
  if lfwLoadAborts A s then ∀ ip, LfwBlocked s ip ↔ LfwListed e info ip
  else
    (((lfwPrefixAttrs e info).length = lfwNumPrefix e info ∧
        ∀ pos ∈ lfwPrefixAttrs e info, (lfwLenOf e pos).isSome) ∨ ∀ ip, LfwListed e info ip) ∧
      ∀ pos ∈ lfwPrefixAttrs e info, ∀ len, lfwAddrOf e pos = none → lfwLenOf e pos = some len →
        ∀ ip, in4GetMasked ip len.toNat = 0 → LfwListed e info ip

/-- The prefix of an address that is zero contains what starts with zeros. -/
theorem contains_zero_iff (e : Endian) (len : U8) (ip : U32) :
    (⟨0, len⟩ : LfwIpPrefix).Contains e ip ↔ in4GetMasked ip len.toNat = 0 := by
  have hhost : (⟨0, len⟩ : LfwIpPrefix).host e = 0#32 := by
    change getUnalignedBe32 e 0#32 = 0#32
    cases e <;> decide
  have hmask : in4GetMasked 0#32 len.toNat = 0 := by
    unfold in4GetMasked
    split <;> simp
  rw [LfwIpPrefix.Contains, hhost, hmask]

/-- The empty prefix contains every address. -/
theorem contains_of_len_zero (e : Endian) (addr : U32) (ip : U32) :
    (⟨addr, 0⟩ : LfwIpPrefix).Contains e ip := rfl

theorem LfwBgInv.blocked_iff (h : LfwBgInv s a t olds) (ip : U32) :
    LfwBlocked s ip ↔ (vals t).marks (ipPath ip 32) = true := by
  obtain ⟨r, hr, hiff⟩ := h.lookup ip
  constructor
  · rintro ⟨r', hr', hpos⟩
    obtain rfl := Except.ok.inj (hr.symm.trans hr')
    exact hiff.1 hpos
  · intro hmarks
    exact ⟨r, hr, hiff.2 hmarks⟩

/-- Of the slots of a request with no more attributes than announced, those that
are not carried whole are harmless exactly under the condition. -/
theorem slots_contain_iff (hcount : (lfwPrefixAttrs e info).length ≤ lfwNumPrefix e info) :
    (∀ ip, (∃ p ∈ (lfwPrefixAttrs e info).map (lfwSlot e) ++
        List.replicate (lfwNumPrefix e info - (lfwPrefixAttrs e info).length) .zero,
        p.Contains e ip) ↔ LfwListed e info ip) ↔
      (((lfwPrefixAttrs e info).length = lfwNumPrefix e info ∧
          ∀ pos ∈ lfwPrefixAttrs e info, (lfwLenOf e pos).isSome) ∨ ∀ ip, LfwListed e info ip) ∧
        ∀ pos ∈ lfwPrefixAttrs e info, ∀ len, lfwAddrOf e pos = none →
          lfwLenOf e pos = some len → ∀ ip, in4GetMasked ip len.toNat = 0 → LfwListed e info ip := by
  constructor
  · intro hall
    refine ⟨?_, fun pos hpos len haddr hlen ip hip => ?_⟩
    · by_cases hex : (lfwPrefixAttrs e info).length = lfwNumPrefix e info ∧
          ∀ pos ∈ lfwPrefixAttrs e info, (lfwLenOf e pos).isSome
      · exact Or.inl hex
      · -- a spare slot, or one without a length, contains every address
        refine Or.inr fun ip => (hall ip).1 ?_
        by_cases hlt : (lfwPrefixAttrs e info).length = lfwNumPrefix e info
        · obtain ⟨pos, hpos, hnone⟩ : ∃ pos ∈ lfwPrefixAttrs e info, ¬ (lfwLenOf e pos).isSome := by
            by_contra hno
            push Not at hno
            exact hex ⟨hlt, hno⟩
          rw [Option.not_isSome_iff_eq_none] at hnone
          refine ⟨lfwSlot e pos, List.mem_append_left _ (List.mem_map_of_mem hpos), ?_⟩
          rw [lfwSlot_eq, hnone]
          exact contains_of_len_zero e _ ip
        · refine ⟨.zero, List.mem_append_right _ (List.mem_replicate.2 ⟨by omega, rfl⟩), ?_⟩
          exact contains_of_len_zero e 0 ip
    · -- an attribute without an address fills its slot with the address zero
      refine (hall ip).1 ⟨lfwSlot e pos, List.mem_append_left _ (List.mem_map_of_mem hpos), ?_⟩
      rw [lfwSlot_eq, haddr, hlen]
      exact (contains_zero_iff e len ip).2 hip
  · rintro ⟨hfull, hzero⟩ ip
    constructor
    · rintro ⟨p, hp, hcontains⟩
      rcases hfull with ⟨hlen, hsome⟩ | hlisted
      · rw [hlen, Nat.sub_self, List.replicate_zero, List.append_nil] at hp
        obtain ⟨pos, hpos, rfl⟩ := List.mem_map.1 hp
        obtain ⟨len, hl⟩ := Option.isSome_iff_exists.1 (hsome pos hpos)
        rw [lfwSlot_eq, hl] at hcontains
        cases ha : lfwAddrOf e pos with
        | none =>
          rw [ha] at hcontains
          exact hzero pos hpos len ha hl ip ((contains_zero_iff e len ip).1 hcontains)
        | some addr =>
          rw [ha] at hcontains
          exact ⟨pos, hpos, ⟨addr, len⟩, by simp [lfwCarried, ha, hl], hcontains⟩
      · exact hlisted ip
    · rintro ⟨pos, hpos, p, hcarried, hcontains⟩
      refine ⟨lfwSlot e pos, List.mem_append_left _ (List.mem_map_of_mem hpos), ?_⟩
      simp only [lfwCarried, Option.bind_eq_bind, Option.mem_def, Option.bind_eq_some_iff] at hcarried
      obtain ⟨addr, ha, len, hl, hp⟩ := hcarried
      obtain rfl := Option.some.inj hp
      rw [lfwSlot_eq, ha, hl]
      exact hcontains

/-! ## With allocations that succeed -/

/-- The list a request installs: a slot for each attribute, then zeros. -/
def lfwInstalled (e : Endian) (info : GenlInfo) : List LfwIpPrefix :=
  (lfwPrefixAttrs e info).map (lfwSlot e) ++
    List.replicate (lfwNumPrefix e info - (lfwPrefixAttrs e info).length) .zero

/-- **The law of the command.** It refuses a request without a count, and
otherwise installs the request's list. -/
theorem LfwBgInv.set_spec (h : LfwBgInv s a t olds) (A : Supply)
    (hcount : (lfwPrefixAttrs e info).length ≤ lfwNumPrefix e info)
    (hmax : lfwNumPrefix e info < 2 ^ 29)
    (hlen : ∀ p ∈ lfwInstalled e info, p.ipPrefixLen.toNat ≤ 32) :
    if lfwNumPrefix e info = 0 then lfwBogonSet e A.toAllocator info s = .ok (-EINVAL, s)
    else ∃ s' a' t', lfwBogonSet e A.toAllocator info s = .ok (0, s') ∧
      LfwBgInv s' a' t' (olds ++ [(a, t)]) ∧
      ∀ ip, LfwBlocked s' ip ↔ ∃ p ∈ lfwInstalled e info, p.Contains e ip := by
  split
  · next hnum =>
    unfold lfwBogonSet
    simp only [hnum, if_true, pure_eq_ok]
  · next hnum =>
    obtain ⟨buf, bufs, halloc, hext⟩ := Mem.zalloc_supply A s.bufs
      (List.replicate (lfwNumPrefix e info) LfwIpPrefix.zero)
    have hentries := lfwBufEntries_of_lt A.toAllocator hmax
    have halloc' := (lfwVzalloc_of_ne A.toAllocator s.bufs hnum).trans halloc
    have hparse := lfwParsePrefixes_spec e (lfwPrefixAttrs e info) hcount []
    rw [List.nil_append, List.nil_append, List.length_nil] at hparse
    -- the buffer is as long as the count, so the load reads all of it
    have hsize : (lfwInstalled e info).length = lfwNumPrefix e info := by
      simp only [lfwInstalled, List.length_append, List.length_map, List.length_replicate]
      omega
    obtain ⟨s₁, a', t', hload, hl⟩ := lfwLoadBgTree_spec e A
      { s with bufs := bufs.set buf (lfwInstalled e info) } hlen (by omega)
    have hinv := hl.inv (h.bufs (bufs.set buf (lfwInstalled e info)))
    have hbuf : buf ∈ s₁.bufs := by
      rw [hl.bufs_eq]
      exact Mem.mem_set.2 (Or.inl rfl)
    refine ⟨{ s₁ with bufs := s₁.bufs.erase buf }, a', t', ?_, hinv.bufs _, fun ip => ?_⟩
    · rw [hsize] at hload
      unfold lfwBogonSet
      simp only [hnum, if_false, hentries, halloc', hparse, ok_bind,
        Mem.store_of_mem hext.mem_self]
      unfold lfwInstalled at hload hbuf
      simp only [hload, ok_bind, Mem.free_of_mem hbuf, pure_eq_ok]
    · obtain ⟨c, hvals⟩ := hl.vals_eq
      rw [(hinv.bufs _).blocked_iff, hvals, marks_lfwMarked hlen]

/-! ## The requests that block what they list -/

/-- **What a request blocks.** In any state the list can reach, after a request
with lengths of at most 32 and no more attributes than it announces for which
the command returns zero, the addresses blocked are exactly those in a prefix
that an attribute carries whole, if and only if `LfwSetExact` holds of the
request. -/
theorem lfwBogonSet_blocks_iff {A₀ : Allocator} {s₀ : LfwBgState} {ops : List LfwBgOp}
    (hinit : lfwInitBgState A₀ = .ok s₀) (hreach : run (lfwBgStep e) s₀ ops = .ok s)
    (hcount : (lfwPrefixAttrs e info).length ≤ lfwNumPrefix e info)
    (hset : lfwBogonSet e A info s = .ok (0, s')) :
    (∀ ip, LfwBlocked s' ip ↔ LfwListed e info ip) ↔ LfwSetExact e A info s := by
  obtain ⟨a, t, olds, h⟩ := lfwBgRun_inv hinit hreach
  rcases lfwBogonSet_ok hset with ⟨hne, -⟩ |
    ⟨-, hpos, buf, bufs, bufs', s₁, hparse, hsize, hload, rfl⟩
  · exact absurd rfl hne
  unfold LfwSetExact
  rcases lfwLoadBgTree_cases (hsize ▸ lfwBufEntries_le A _) hload with
    ⟨habort, hgave⟩ | ⟨habort, hall, -, hlen, a', t', hl⟩
  · -- the old list is still in place
    have hinv := (hgave.inv (h.bufs bufs)).bufs bufs'
    have habort' : lfwLoadAborts A s := habort
    rw [if_pos habort']
    simp only [hinv.blocked_iff, h.blocked_iff]
  · -- the load came to its end, so the buffer had all it announced
    have hbuf := lfwParsePrefixes_spec e (lfwPrefixAttrs e info) hcount []
    rw [← hsize, ← hall] at hparse
    rw [List.nil_append, List.nil_append, List.length_nil, hparse] at hbuf
    obtain rfl := Except.ok.inj hbuf
    have hinv := (hl.inv (h.bufs bufs)).bufs bufs'
    have habort' : ¬ lfwLoadAborts A s := habort
    obtain ⟨c, hvals⟩ := hl.vals_eq
    rw [if_neg habort', ← slots_contain_iff hcount]
    simp only [hinv.blocked_iff, hvals, marks_lfwMarked hlen]

/-- A request that announces `count` prefixes and carries `10.0.0.0/8`. -/
def lfwSampleRequest (count : U8) : GenlInfo :=
  let attrs := streamBytes .little
    [⟨LFW_NLA_NUM_IP_PREFIX, [count, 0, 0, 0]⟩,
      ⟨NLA_F_NESTED + LFW_NLA_IP_PREFIX, streamBytes .little
        [⟨LFW_NLA_N_IP_ADDR, [10, 0, 0, 0]⟩, ⟨LFW_NLA_N_IP_PREFIX_LEN, [8]⟩]⟩]
  ⟨attrs, attrs.length⟩

/-- The first request of a run, from a state the list starts in. -/
theorem lfwSampleRequest_set {count : U8}
    (hcount : (lfwPrefixAttrs .little (lfwSampleRequest count)).length ≤
      lfwNumPrefix .little (lfwSampleRequest count))
    (hmax : lfwNumPrefix .little (lfwSampleRequest count) < 2 ^ 29)
    (hlen : ∀ p ∈ lfwInstalled .little (lfwSampleRequest count), p.ipPrefixLen.toNat ≤ 32)
    (hnum : lfwNumPrefix .little (lfwSampleRequest count) ≠ 0) :
    ∃ s₀ s', lfwInitBgState Supply.next.toAllocator = .ok s₀ ∧
      lfwBogonSet .little Supply.next.toAllocator (lfwSampleRequest count) s₀ = .ok (0, s') ∧
      ∀ ip, LfwBlocked s' ip ↔
        ∃ p ∈ lfwInstalled .little (lfwSampleRequest count), p.Contains .little ip := by
  obtain ⟨s₀, a, hinit, hinv⟩ := lfwInitBgState_spec Supply.next
  have hset := hinv.set_spec Supply.next hcount hmax hlen
  rw [if_neg hnum] at hset
  obtain ⟨s', a', t', hrun, -, hblocked⟩ := hset
  exact ⟨s₀, s', hinit, hrun, hblocked⟩

/-- The request that announces what it carries blocks what it lists. -/
theorem lfwBogonSet_blocks_iff_sample :
    ∃ s₀ s', lfwInitBgState Supply.next.toAllocator = .ok s₀ ∧
      lfwBogonSet .little Supply.next.toAllocator (lfwSampleRequest 1) s₀ = .ok (0, s') ∧
      ∀ ip, LfwBlocked s' ip ↔ LfwListed .little (lfwSampleRequest 1) ip := by
  have hcount : (lfwPrefixAttrs .little (lfwSampleRequest 1)).length ≤
      lfwNumPrefix .little (lfwSampleRequest 1) := by decide +kernel
  obtain ⟨s₀, s', hinit, hrun, -⟩ :=
    lfwSampleRequest_set hcount (by decide +kernel) (by decide +kernel) (by decide +kernel)
  have hnil : run (lfwBgStep .little) s₀ [] = .ok s₀ := rfl
  refine ⟨s₀, s', hinit, hrun, (lfwBogonSet_blocks_iff hinit hnil hcount hrun).2 ?_⟩
  have haddr : ∀ pos ∈ lfwPrefixAttrs .little (lfwSampleRequest 1),
      (lfwAddrOf .little pos).isSome := by decide +kernel
  unfold LfwSetExact
  rw [if_neg (not_lfwLoadAborts _ _)]
  refine ⟨Or.inl (by decide +kernel), fun pos hpos len hnone => ?_⟩
  have hsome := haddr pos hpos
  rw [hnone] at hsome
  cases hsome

/-- Announced as two, the one prefix `10.0.0.0/8` blocks `192.168.0.1`. -/
theorem lfwBogonSet_blocks_unlisted :
    ¬ ∀ (e : Endian) (A₀ A : Allocator) (s₀ s s' : LfwBgState) (ops : List LfwBgOp)
      (info : GenlInfo), lfwInitBgState A₀ = .ok s₀ → run (lfwBgStep e) s₀ ops = .ok s →
      lfwPolicyAdmits e info = true → (∀ p ∈ lfwInstalled e info, p.ipPrefixLen.toNat ≤ 32) →
      (lfwPrefixAttrs e info).length ≤ lfwNumPrefix e info →
      lfwBogonSet e A info s = .ok (0, s') → ∀ ip, LfwBlocked s' ip ↔ LfwListed e info ip := by
  intro h
  have hcount : (lfwPrefixAttrs .little (lfwSampleRequest 2)).length ≤
      lfwNumPrefix .little (lfwSampleRequest 2) := by decide +kernel
  have hlen : ∀ p ∈ lfwInstalled .little (lfwSampleRequest 2), p.ipPrefixLen.toNat ≤ 32 := by
    decide +kernel
  obtain ⟨s₀, s', hinit, hrun, hblocked⟩ := lfwSampleRequest_set hcount (by decide +kernel) hlen
    (by decide +kernel)
  have hclaim := h .little _ _ s₀ s₀ s' [] (lfwSampleRequest 2) hinit rfl (by decide +kernel) hlen
    hcount hrun 0xC0A80001#32
  rw [hblocked] at hclaim
  have hnot : ¬ LfwListed .little (lfwSampleRequest 2) 0xC0A80001#32 := by decide +kernel
  exact hnot (hclaim.1 (by decide +kernel))

end Librefw
