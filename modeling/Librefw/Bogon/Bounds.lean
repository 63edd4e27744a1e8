import Librefw.Bogon.Atomic

/-!
# The bounds of the command and of the load

A slot of the buffer is written for each attribute of a request and read
for each turn of the load; a bit of an address is read, and a character
written, for each bit of a prefix. The slots are those `vzalloc` was asked
for, and the turns those that were announced, counted by an `int`. So the
command stays inside its buffer exactly when no attribute past the buffer
has a field, and the load takes no more turns than there are slots and
numbers, or ends before it does (`lfwBogonSet_inside_iff`). Shifts stay in
range up to length 32, and the string is terminated up to length 31, so
the turns a load takes are sound exactly below 32
(`lfwLoadBgTree_bounded_iff`).
-/

namespace Librefw

open PtrTrie

variable {e : Endian} {A : Allocator} {info : GenlInfo} {s s' : LfwBgState}
variable {prefix_buf prefixes : List LfwIpPrefix} {P : Fault → Prop} {m m' : Mem LfwBgNode}

/-! ## What a load can run into -/

/-- A bit that was read is one of the address. -/
theorem in4GetBit_ok {ip : U32} {j : ℕ} {bit : Bool} (h : in4GetBit ip j = .ok bit) : j < 32 := by
  unfold in4GetBit IPV4_BITS at h
  split at h
  · omega
  · cases h

/-- The only fault of a read of a bit is its shift. -/
theorem in4GetBit_avoids {ip : U32} {j : ℕ} (h : j < 32 ∨ ∀ n, ¬ P (.badShift n)) :
    Avoids P (in4GetBit ip j) := by
  unfold in4GetBit IPV4_BITS
  split
  · exact avoids_ok _
  · next hj =>
    rw [throw_eq_error, avoids_error]
    exact h.resolve_left (by omega) j

/-- The loop over the bits of a prefix stays in its string; its shifts are in
range up to the length of an address. -/
theorem lfwInsertPath_avoids (hP : ∀ f, P f → ¬ f.OfCache) {ip : U32} {k j : ℕ}
    (hbits : j + k ≤ 32 ∨ ∀ n, ¬ P (.badShift n)) {runner : Ptr} {ip_path : List Char}
    (hlen : ip_path.length = 32) {num : ℕ} :
    Avoids P (lfwInsertPath A ip k j runner ip_path num m) := by
  induction k generalizing j runner ip_path num m with
  | zero => exact avoids_ok _
  | succ k ih =>
    rw [lfwInsertPath]
    refine (in4GetBit_avoids (hbits.imp_left fun h => by omega)).bind fun bit hbit => ?_
    -- the bit was read first, so the character has a place
    have hj : j < ip_path.length := hlen.symm ▸ in4GetBit_ok hbit
    rw [setChar, if_pos hj, pure_eq_ok, ok_bind]
    have hlen' : (ip_path.set j (if bit then '1' else '0')).length = 32 := by
      rw [List.length_set, hlen]
    have hbits' : j + 1 + k ≤ 32 ∨ ∀ n, ¬ P (.badShift n) := hbits.imp_left fun h => by omega
    refine (Mem.load_avoids hP m runner).bind fun n _ => ?_
    cases hc : n.child bit with
    | some child => exact ih hbits' hlen'
    | none => exact (Mem.modify_avoids hP _ _ _).bind fun m₂ _ => ih hbits' hlen'

theorem lfwInsertPrefix_avoids (hP : ∀ f, P f → ¬ f.OfCache) {root : Ptr} {p : LfwIpPrefix}
    (hbits : p.ipPrefixLen.toNat ≤ 32 ∨ ∀ n, ¬ P (.badShift n)) :
    Avoids P (lfwInsertPrefix e A root p m) := by
  unfold lfwInsertPrefix
  refine Avoids.bind ?_ fun r _ => (Mem.modify_avoids hP _ _ _).bind fun m₂ _ => avoids_ok _
  exact lfwInsertPath_avoids hP (hbits.imp_left fun h => by omega) List.length_replicate

/-- A slot that is there is read, unless the counter got negative. -/
theorem lfwPrefixAt_avoids {i : ℕ} (hi : i < prefixes.length)
    (hmax : i < 2 ^ 31 ∨ ∀ n, ¬ P (.negativeIndex n)) : Avoids P (lfwPrefixAt prefixes i) := by
  by_cases hlt : i < 2 ^ 31
  · rw [lfwPrefixAt_of_lt hlt hi]
    exact avoids_ok _
  · rw [lfwPrefixAt, if_neg hlt, throw_eq_error, avoids_error]
    exact hmax.resolve_left hlt _

theorem lfwInsertPrefixes_avoids (hP : ∀ f, P f → ¬ f.OfCache) {root : Ptr} {k i : ℕ}
    (hread : i + k ≤ prefixes.length) (hmax : i + k ≤ 2 ^ 31 ∨ ∀ n, ¬ P (.negativeIndex n))
    (hbits : (∀ p ∈ prefixes.take (2 ^ 31), p.ipPrefixLen.toNat ≤ 32) ∨ ∀ n, ¬ P (.badShift n))
    {log : List LfwBgLog} :
    Avoids P (lfwInsertPrefixes e A root prefixes k i log m) := by
  induction k generalizing i log m with
  | zero => exact avoids_ok _
  | succ k ih =>
    rw [lfwInsertPrefixes]
    refine (lfwPrefixAt_avoids (by omega) (hmax.imp_left fun h => by omega)).bind fun p hp => ?_
    obtain ⟨hlt, hi, rfl⟩ := lfwPrefixAt_ok hp
    refine Avoids.bind ?_ fun x _ => ih (by omega) (hmax.imp_left fun h => by omega)
    exact lfwInsertPrefix_avoids hP (hbits.imp_left fun h => h _ (List.mem_take_iff_getElem.2
      ⟨i, by omega, rfl⟩))

/-- **A load reads and writes in bounds**: of the slots it is told to read that
are there, as many as it can count, and of its string; and its shifts are in range
for prefixes no longer than an address. -/
theorem lfwLoadBgTree_avoids (hP : ∀ f, P f → ¬ f.OfCache) {len : ℕ}
    (hread : len ≤ prefixes.length) (hmax : len ≤ 2 ^ 31 ∨ ∀ n, ¬ P (.negativeIndex n))
    (hbits : (∀ p ∈ prefixes.take (2 ^ 31), p.ipPrefixLen.toNat ≤ 32) ∨ ∀ n, ¬ P (.badShift n)) :
    Avoids P (lfwLoadBgTree e A prefixes len s) := by
  unfold lfwLoadBgTree
  split
  · exact avoids_ok _
  · split
    · exact avoids_ok _
    · refine (Mem.store_avoids hP _ _ _).bind fun trees _ => ?_
      exact (lfwInsertPrefixes_avoids hP (by omega) (hmax.imp_left fun h => by omega)
        hbits).bind fun x _ => avoids_ok _

/-! ## The buffer of the command -/

/-- An attribute past the end of the buffer is harmless if it has no field. -/
theorem lfwParsePrefix_of_past {runner : ℕ} (hpast : prefix_buf.length ≤ runner) (pos : NlAttr) :
    lfwParsePrefix e runner prefix_buf pos =
      if (pos.nested e).any lfwIsField then .error (.outOfBounds runner) else .ok prefix_buf := by
  have hget : prefix_buf[runner]? = none := List.getElem?_eq_none hpast
  unfold lfwParsePrefix
  induction pos.nested e with
  | nil => rfl
  | cons b l ih =>
    rw [List.foldlM_cons, List.any_cons]
    cases hb : lfwIsField b with
    | true =>
      simp only [if_true, hget, Bool.true_or]
      rfl
    | false =>
      rw [Bool.false_or]
      exact ih

/-- The attributes past the end of the buffer. -/
theorem lfwParsePrefixes_of_past {runner : ℕ} (hpast : prefix_buf.length ≤ runner)
    (attrs : List NlAttr) :
    (∃ i, lfwParsePrefixes e runner prefix_buf attrs = .error (.outOfBounds i) ∧
        ∃ pos ∈ attrs, (pos.nested e).any lfwIsField = true) ∨
      (lfwParsePrefixes e runner prefix_buf attrs = .ok prefix_buf ∧
        ∀ pos ∈ attrs, (pos.nested e).any lfwIsField = false) := by
  induction attrs generalizing runner with
  | nil => exact Or.inr ⟨rfl, fun pos hpos => absurd hpos List.not_mem_nil⟩
  | cons pos attrs ih =>
    rw [lfwParsePrefixes, lfwParsePrefix_of_past hpast pos]
    cases hany : (pos.nested e).any lfwIsField with
    | true => exact Or.inl ⟨runner, rfl, pos, List.mem_cons_self, hany⟩
    | false =>
      rw [if_neg Bool.false_ne_true, ok_bind]
      rcases ih (Nat.le_succ_of_le hpast) with ⟨i, herr, q, hq, hqany⟩ | ⟨hok, hall⟩
      · exact Or.inl ⟨i, herr, q, List.mem_cons_of_mem _ hq, hqany⟩
      · refine Or.inr ⟨hok, fun q hq => ?_⟩
        rcases List.mem_cons.1 hq with rfl | hq
        · exact hany
        · exact hall q hq

theorem lfwParsePrefixes_append (e : Endian) (runner : ℕ) (prefix_buf : List LfwIpPrefix)
    (xs ys : List NlAttr) :
    lfwParsePrefixes e runner prefix_buf (xs ++ ys) = (do
      let prefix_buf ← lfwParsePrefixes e runner prefix_buf xs
      lfwParsePrefixes e (runner + xs.length) prefix_buf ys) := by
  induction xs generalizing runner prefix_buf with
  | nil => rfl
  | cons pos xs ih =>
    simp only [List.cons_append, lfwParsePrefixes, bind_assoc, ih, List.length_cons,
      Nat.add_assoc, Nat.add_comm 1]

/-- A buffer of `n` slots, filled from the attributes it has room for. -/
def lfwFilled (e : Endian) (attrs : List NlAttr) (n : ℕ) : List LfwIpPrefix :=
  (attrs.take n).map (lfwSlot e) ++ List.replicate (n - attrs.length) .zero

theorem length_lfwFilled (e : Endian) (attrs : List NlAttr) (n : ℕ) :
    (lfwFilled e attrs n).length = n := by
  simp only [lfwFilled, List.length_append, List.length_map, List.length_take,
    List.length_replicate]
  omega

/-- **The loop over the attributes** leaves the buffer exactly when an attribute
past it has a field. -/
theorem lfwParsePrefixes_bounds (e : Endian) (n : ℕ) (attrs : List NlAttr) :
    (∃ i, lfwParsePrefixes e 0 (List.replicate n .zero) attrs = .error (.outOfBounds i) ∧
        ∃ pos ∈ attrs.drop n, (pos.nested e).any lfwIsField = true) ∨
      (lfwParsePrefixes e 0 (List.replicate n .zero) attrs = .ok (lfwFilled e attrs n) ∧
        ∀ pos ∈ attrs.drop n, (pos.nested e).any lfwIsField = false) := by
  have hrest : n - (attrs.take n).length = n - attrs.length := by
    rw [List.length_take]
    omega
  have hfirst := lfwParsePrefixes_spec e (attrs.take n) (List.length_take_le n attrs) []
  rw [List.nil_append, List.nil_append, List.length_nil, hrest, ← lfwFilled] at hfirst
  -- the first `n` attributes fill the buffer, and what follows has no slot
  have hsplit := lfwParsePrefixes_append e 0 (List.replicate n .zero) (attrs.take n) (attrs.drop n)
  rw [List.take_append_drop, hfirst, ok_bind, Nat.zero_add] at hsplit
  rw [hsplit]
  by_cases hmore : attrs.length ≤ n
  · refine Or.inr ⟨?_, fun pos hpos => ?_⟩
    · rw [List.drop_of_length_le hmore]
      rfl
    · rw [List.drop_of_length_le hmore] at hpos
      exact absurd hpos List.not_mem_nil
  · have hpast : (attrs.take n).length = n := by
      rw [List.length_take]
      omega
    rcases lfwParsePrefixes_of_past ((length_lfwFilled e attrs n).trans hpast.symm).le
      (attrs.drop n) with herr | ⟨hok, hall⟩
    · exact Or.inl herr
    · exact Or.inr ⟨hok, hall⟩

/-! ## The turns of the load -/

/-- The fault is an index outside an array. -/
def Fault.OutOfArray (f : Fault) : Prop := (∃ i, f = .outOfBounds i) ∨ ∃ i, f = .negativeIndex i

theorem Fault.OutOfArray.not_ofCache {f : Fault} (h : f.OutOfArray) : ¬ f.OfCache := by
  rcases h with ⟨i, rfl⟩ | ⟨i, rfl⟩ <;> exact id

theorem Fault.OutOfArray.not_badShift (n : ℕ) : ¬ (Fault.badShift n).OutOfArray := by
  rintro (⟨i, h⟩ | ⟨i, h⟩) <;> cases h

/-- The load of these prefixes comes to their end: it is granted its header and the nodes of its
list, and none of them is longer than an address. -/
def LfwLoadEnds (e : Endian) (A : Allocator) (prefixes : List LfwIpPrefix) (s : LfwBgState) :
    Prop :=
  (s.trees.Grants A 1 ∧ s.nodes.Grants A (lfwNodeCount e prefixes)) ∧
    ∀ p ∈ prefixes, p.ipPrefixLen.toNat ≤ 32

/-- The loop reads no slot past the turns it takes. -/
theorem lfwInsertPrefixes_take (e : Endian) (A : Allocator) (root : Ptr)
    (prefixes : List LfwIpPrefix) {n k i : ℕ} (hk : i + k ≤ n) (log : List LfwBgLog)
    (m : Mem LfwBgNode) :
    lfwInsertPrefixes e A root (prefixes.take n) k i log m =
      lfwInsertPrefixes e A root prefixes k i log m := by
  induction k generalizing i log m with
  | zero => rfl
  | succ k ih =>
    have hread : lfwPrefixAt (prefixes.take n) i = lfwPrefixAt prefixes i := by
      unfold lfwPrefixAt
      rw [List.getElem?_take_of_lt (by omega)]
    simp only [lfwInsertPrefixes, hread, ih (by omega : i + 1 + k ≤ n)]

theorem lfwLoadBgTree_take (e : Endian) (A : Allocator) (prefixes : List LfwIpPrefix) (k : ℕ)
    (s : LfwBgState) :
    lfwLoadBgTree e A (prefixes.take k) k s = lfwLoadBgTree e A prefixes k s := by
  unfold lfwLoadBgTree
  simp only [lfwInsertPrefixes_take e A _ prefixes (by omega : 0 + k ≤ k)]

theorem lfwInsertPrefixes_add (e : Endian) (A : Allocator) (root : Ptr)
    (prefixes : List LfwIpPrefix) (k l i : ℕ) (log : List LfwBgLog) (m : Mem LfwBgNode) :
    lfwInsertPrefixes e A root prefixes (k + l) i log m =
      lfwInsertPrefixes e A root prefixes k i log m >>= fun x =>
        lfwInsertPrefixes e A root prefixes l (i + k) x.1 x.2 := by
  induction k generalizing i log m with
  | zero =>
    rw [Nat.zero_add]
    rfl
  | succ k ih =>
    have hi : i + (k + 1) = i + 1 + k := by omega
    rw [Nat.succ_add]
    simp only [lfwInsertPrefixes, ih, hi, bind_assoc]

/-- A load that takes a turn too many does what it does before, unless it gives up, and then
faults. -/
theorem lfwLoadBgTree_past {k len : ℕ} {f : Fault} (hlt : k < len)
    (hpast : lfwPrefixAt prefixes k = .error f) (habort : ¬ lfwLoadAborts A s) :
    lfwLoadBgTree e A prefixes len s =
      lfwLoadBgTree e A prefixes k s >>= fun _ => .error f := by
  obtain ⟨l, rfl⟩ : ∃ l, len = k + (l + 1) := ⟨len - k - 1, by omega⟩
  rcases Mem.zalloc_cases A s.trees ⟨none⟩ with ⟨tree, trees, htree, hextt⟩ | htree
  swap
  · exact absurd (Or.inl (by rw [htree])) habort
  rcases Mem.zalloc_cases A s.nodes (Cell.zero false) with ⟨c, nodes, hnode, hextc⟩ | hnode
  swap
  · exact absurd (Or.inr (by rw [lfwCreateNode, hnode])) habort
  have hturn : ∀ log m, lfwInsertPrefixes e A (some c) prefixes (l + 1) k log m = .error f := by
    intro log m
    rw [lfwInsertPrefixes, hpast, error_bind]
  simp only [lfwLoadBgTree, htree, lfwCreateNode, hnode, Mem.store_of_mem hextt.mem_self, ok_bind,
    lfwInsertPrefixes_add, Nat.zero_add, hturn, bind_assoc, error_bind, pure_eq_ok]

/-- **The load stays in its array** exactly when it takes no more turns than it has slots and
numbers, or ends before it does. -/
theorem lfwLoadBgTree_inside_iff {len : ℕ} (hall : prefixes.length ≤ len) :
    Avoids Fault.OutOfArray (lfwLoadBgTree e A prefixes len s) ↔
      (len ≤ prefixes.length ∧ len ≤ 2 ^ 31) ∨ ¬ LfwLoadEnds e A (prefixes.take (2 ^ 31)) s := by
  have havoids : ∀ {k}, k ≤ prefixes.length → k ≤ 2 ^ 31 →
      Avoids Fault.OutOfArray (lfwLoadBgTree e A prefixes k s) := fun hread hmax =>
    lfwLoadBgTree_avoids (fun f => Fault.OutOfArray.not_ofCache) hread (Or.inl hmax)
      (Or.inr Fault.OutOfArray.not_badShift)
  by_cases hfit : len ≤ prefixes.length ∧ len ≤ 2 ^ 31
  · exact iff_of_true (havoids hfit.1 hfit.2) (Or.inl hfit)
  simp only [hfit, false_or]
  by_cases habort : lfwLoadAborts A s
  · obtain ⟨s', hrun, -⟩ : ∃ s', lfwLoadBgTree e A prefixes len s = .ok s' ∧ _ :=
      lfwLoadBgTree_aborted s habort
    rw [hrun]
    exact iff_of_true (avoids_ok _) fun hends => not_grants_of_aborts _ habort hends.1
  -- the turns that can be taken are those of a load of their own
  obtain ⟨k, hk⟩ : ∃ k, k = (prefixes.take (2 ^ 31)).length := ⟨_, rfl⟩
  have hmin := hk
  rw [List.length_take] at hmin
  obtain ⟨f, hf, hpast⟩ : ∃ f : Fault, f.OutOfArray ∧ lfwPrefixAt prefixes k = .error f := by
    unfold lfwPrefixAt
    split
    · rw [List.getElem?_eq_none (by omega)]
      exact ⟨_, Or.inl ⟨_, rfl⟩, rfl⟩
    · exact ⟨_, Or.inr ⟨_, rfl⟩, rfl⟩
  have htake : prefixes.take k = prefixes.take (2 ^ 31) := by
    rw [hmin, ← List.take_take, List.take_length]
  have hturns : lfwLoadBgTree e A (prefixes.take (2 ^ 31)) (prefixes.take (2 ^ 31)).length s =
      lfwLoadBgTree e A prefixes k s := by
    rw [← hk, ← htake]
    exact lfwLoadBgTree_take e A prefixes k s
  rw [lfwLoadBgTree_past (by omega) hpast habort]
  by_cases hlen : ∀ p ∈ prefixes.take (2 ^ 31), p.ipPrefixLen.toNat ≤ 32
  · have hserve := lfwLoadBgTree_serve (e := e) A hlen (by omega) s
    rw [hturns] at hserve
    have hends : LfwLoadEnds e A (prefixes.take (2 ^ 31)) s ↔ s.trees.Grants A 1 ∧
        s.nodes.Grants A (lfwNodeCount e (prefixes.take (2 ^ 31))) := and_iff_left hlen
    rw [hends]
    split at hserve
    · next hgrants =>
      obtain ⟨s', a, t, hrun, -⟩ := hserve
      rw [hrun, ok_bind, avoids_error]
      exact iff_of_false (not_not.2 hf) (not_not.2 hgrants)
    · next hgrants =>
      rcases hserve with hrun | ⟨hgave, -⟩
      · rw [hrun, error_bind, avoids_error]
        refine iff_of_true ?_ hgrants
        rintro (⟨i, h⟩ | ⟨i, h⟩) <;> cases h
      · exact absurd hgave habort
  · -- a shift ends the load before
    refine iff_of_true ?_ fun hends => hlen hends.2
    cases hrun : lfwLoadBgTree e A prefixes k s with
    | error err =>
      have hsafe := havoids (k := k) (by omega) (by omega)
      rw [hrun] at hsafe
      exact hsafe
    | ok s' =>
      rcases lfwLoadBgTree_cases (le_refl _) (hturns.trans hrun) with ⟨hgave, -⟩ | ⟨-, -, -, hle, -⟩
      · exact absurd hgave habort
      · exact absurd hle hlen

/-- The condition under which a request stays in its buffer: it has none, or no attribute past
its slots has a field, and it announces no more prefixes than it has slots and the load can
count, or the load ends before. -/
def LfwSetInside (e : Endian) (A : Allocator) (info : GenlInfo) (s : LfwBgState) : Prop :=
  lfwNumPrefix e info = 0 ∨
    (lfwVzalloc A s.bufs (lfwBufEntries A (lfwNumPrefix e info))).1 = none ∨
    ((∀ pos ∈ (lfwPrefixAttrs e info).drop (lfwBufEntries A (lfwNumPrefix e info)),
        ∀ b ∈ pos.nested e, lfwIsField b = false) ∧
      ((8 * lfwNumPrefix e info < 2 ^ A.size_t.bits ∧ lfwNumPrefix e info ≤ 2 ^ 31) ∨
        ¬ LfwLoadEnds e A ((lfwFilled e (lfwPrefixAttrs e info)
          (lfwBufEntries A (lfwNumPrefix e info))).take (2 ^ 31)) s))

/-- A request that announces `count` prefixes and carries some. -/
def lfwRequest (count : U8) (prefixes : List (List U8 × U8)) : GenlInfo :=
  let attrs := streamBytes .little (⟨LFW_NLA_NUM_IP_PREFIX, [count, 0, 0, 0]⟩ ::
    prefixes.map fun p => ⟨NLA_F_NESTED + LFW_NLA_IP_PREFIX, streamBytes .little
      [⟨LFW_NLA_N_IP_ADDR, p.1⟩, ⟨LFW_NLA_N_IP_PREFIX_LEN, [p.2]⟩]⟩)
  ⟨attrs, attrs.length⟩

/-- The character of a bit. -/
def lfwBitChar (ip : U32) (i : ℕ) : Char := if ip.getMsbD i then '1' else '0'

/-- The bits are written one after another, and what follows stays. -/
theorem lfwPathText_append (ip : U32) {k j : ℕ} {done rest : List Char} (hdone : done.length = j)
    (hrest : k ≤ rest.length) :
    lfwPathText ip k j (done ++ rest) =
      done ++ (List.range' j k).map (lfwBitChar ip) ++ rest.drop k := by
  induction k generalizing j done rest with
  | zero => simp [lfwPathText]
  | succ k ih =>
    cases rest with
    | nil => simp at hrest
    | cons c rest =>
      rw [List.length_cons] at hrest
      have hset : (done ++ c :: rest).set j (lfwBitChar ip j) =
          done ++ [lfwBitChar ip j] ++ rest := by
        rw [← hdone]
        simp
      have hdone' : (done ++ [lfwBitChar ip j]).length = j + 1 := by simp [hdone]
      have hnext := ih hdone' (Nat.le_of_succ_le_succ hrest)
      rw [lfwPathText, List.range'_succ, List.foldl_cons]
      show lfwPathText ip k (j + 1) ((done ++ c :: rest).set j (lfwBitChar ip j)) = _
      rw [hset, hnext]
      simp

/-- **The string is terminated** if the prefix is shorter than the array. -/
theorem lfwPathText_terminated_iff (ip : U32) {k : ℕ} (hk : k ≤ 32) :
    '\x00' ∈ lfwPathText ip k 0 (List.replicate 32 '\x00') ↔ k ≤ 31 := by
  have hroom : k ≤ (List.replicate 32 '\x00').length := by rwa [List.length_replicate]
  have htext := lfwPathText_append ip (j := 0) List.length_nil hroom
  rw [List.nil_append, List.nil_append] at htext
  -- no bit is written as NUL, so only what is left of the array can end it
  have hbits : '\x00' ∉ (List.range' 0 k).map (lfwBitChar ip) := by
    intro hmem
    obtain ⟨i, -, hi⟩ := List.mem_map.1 hmem
    unfold lfwBitChar at hi
    split at hi <;> exact absurd hi (by decide)
  rw [htext, List.mem_append, List.drop_replicate, List.mem_replicate]
  constructor
  · rintro (hmem | ⟨hne, -⟩)
    · exact absurd hmem hbits
    · omega
  · intro hlt
    exact Or.inr ⟨by omega, rfl⟩

/-- The string a prefix is logged with. -/
def LfwIpPrefix.text (e : Endian) (p : LfwIpPrefix) : List Char :=
  lfwPathText (p.host e) p.ipPrefixLen.toNat 0 (List.replicate 32 '\x00')

/-- A loop that ends has written the bits it read. -/
theorem lfwInsertPath_text {ip : U32} {k j : ℕ} {runner : Ptr} {ip_path : List Char} {num : ℕ}
    {r : Ptr × List Char × ℕ × Mem LfwBgNode}
    (h : lfwInsertPath A ip k j runner ip_path num m = .ok r) :
    r.2.1 = lfwPathText ip k j ip_path := by
  induction k generalizing j runner ip_path num m with
  | zero =>
    obtain rfl := Except.ok.inj h
    rfl
  | succ k ih =>
    rw [lfwInsertPath] at h
    obtain ⟨bit, hbit, h⟩ := bind_eq_ok.1 h
    obtain ⟨path, hpath, h⟩ := bind_eq_ok.1 h
    obtain ⟨n, -, h⟩ := bind_eq_ok.1 h
    -- the bit that was read is the one that is written
    have hread := in4GetBit_of_lt ip (in4GetBit_ok hbit)
    obtain rfl := Except.ok.inj (hbit.symm.trans hread)
    unfold setChar at hpath
    split at hpath
    · obtain rfl := Except.ok.inj hpath
      have hnext : lfwPathText ip (k + 1) j ip_path =
          lfwPathText ip k (j + 1) (ip_path.set j (if ip.getMsbD j then '1' else '0')) := by
        simp only [lfwPathText, List.range'_succ, List.foldl_cons]
      rw [hnext]
      cases hc : n.child (ip.getMsbD j) with
      | some c =>
        simp only [hc] at h
        exact ih h
      | none =>
        simp only [hc] at h
        obtain ⟨m₂, -, h⟩ := bind_eq_ok.1 h
        exact ih h
    · cases hpath

/-- A load logs the string of each prefix it has done. -/
theorem lfwInsertPrefixes_log {root : Ptr} {k i : ℕ} {log log' : List LfwBgLog}
    (h : lfwInsertPrefixes e A root prefixes k i log m = .ok (log', m')) :
    log'.map LfwBgLog.ip_path =
      log.map LfwBgLog.ip_path ++ ((prefixes.drop i).take k).map (LfwIpPrefix.text e) := by
  induction k generalizing i log m with
  | zero =>
    obtain ⟨rfl, -⟩ := Prod.mk.inj (Except.ok.inj h)
    simp
  | succ k ih =>
    obtain ⟨-, hi, line, m₁, hone, hrest⟩ := lfwInsertPrefixes_cases h
    have hline : line.ip_path = LfwIpPrefix.text e prefixes[i] := by
      unfold lfwInsertPrefix at hone
      obtain ⟨r, hloop, hone⟩ := bind_eq_ok.1 hone
      obtain ⟨m₂, -, hone⟩ := bind_eq_ok.1 hone
      obtain ⟨rfl, -⟩ := Prod.mk.inj (Except.ok.inj hone)
      exact lfwInsertPath_text hloop
    rw [ih hrest, List.drop_eq_getElem_cons hi, List.take_succ_cons, List.map_cons, ← hline]
    simp

/-! ## Prefixes that fit and prefixes that do not -/

theorem lfwInsertPath_add (A : Allocator) (ip : U32) (k l j : ℕ) (runner : Ptr)
    (ip_path : List Char) (num : ℕ) (m : Mem LfwBgNode) :
    lfwInsertPath A ip (k + l) j runner ip_path num m = (do
      let (runner, ip_path, num, m) ← lfwInsertPath A ip k j runner ip_path num m
      lfwInsertPath A ip l (j + k) runner ip_path num m) := by
  induction k generalizing j runner ip_path num m with
  | zero =>
    rw [Nat.zero_add]
    rfl
  | succ k ih =>
    have hj : j + (k + 1) = j + 1 + k := by omega
    rw [Nat.succ_add, lfwInsertPath, lfwInsertPath]
    simp only [bind_assoc, ih, hj]
    congr 1
    funext bit
    congr 1
    funext path
    congr 1
    funext n
    cases n.child bit with
    | some c => rfl
    | none => simp only [bind_assoc]

/-- **A prefix longer than an address shifts out of range.** -/
theorem lfwInsertPrefix_badShift {t : PtrTrie Bool} (A : Supply) (hs : Stored m t) (hne : t ≠ .nil)
    (hnd : (addrs t).Nodup) {p : LfwIpPrefix} (hp : 32 < p.ipPrefixLen.toNat) :
    lfwInsertPrefix e A.toAllocator (root t) p m = .error (.badShift 32) := by
  obtain ⟨l, hl⟩ : ∃ l, p.ipPrefixLen.toNat = 32 + (l + 1) :=
    ⟨p.ipPrefixLen.toNat - 33, by omega⟩
  cases t with
  | nil => exact absurd rfl hne
  | node x kids =>
    obtain ⟨a, v⟩ := x
    obtain ⟨last, created, m₁, t₁, hput, -⟩ :=
      put_spec A false (fun _ => true) (ipPath (p.host e) 32) m a v kids hs hnd
    obtain ⟨⟨runner, num, m₂⟩, hextend, -⟩ := bind_eq_ok.1 hput
    -- the bits of the address are walked; the next one is not a bit of it
    have hwalk : lfwInsertPath A.toAllocator (p.host e) 32 0 (some a) (List.replicate 32 '\x00') 0 m =
        .ok (runner, lfwPathText (p.host e) 32 0 (List.replicate 32 '\x00'), 0 + num, m₂) := by
      rw [lfwInsertPath_eq A.toAllocator (Nat.zero_add 32).le _ List.length_replicate,
        ipBits_eq_ipPath, hextend]
      rfl
    have hover : lfwInsertPath A.toAllocator (p.host e) (l + 1) (0 + 32) runner
        (lfwPathText (p.host e) 32 0 (List.replicate 32 '\x00')) (0 + num) m₂ =
          .error (.badShift 32) := rfl
    have hsplit := lfwInsertPath_add A.toAllocator (p.host e) 32 (l + 1) 0 (some a)
      (List.replicate 32 '\x00') 0 m
    rw [hwalk, ok_bind] at hsplit
    have hloop := hsplit.trans hover
    rw [LfwIpPrefix.host] at hloop
    rw [lfwInsertPrefix, hl, root_node]
    simp only [hloop, error_bind]

/-- So does a run of them, at the first such prefix. -/
theorem lfwInsertPrefixes_badShift {t : PtrTrie Bool} (A : Supply) (hs : Stored m t)
    (hne : t ≠ .nil) (hnd : (addrs t).Nodup) (hmax : prefixes.length ≤ 2 ^ 31) {k i : ℕ}
    (hk : i + k = prefixes.length) (hlong : ∃ p ∈ prefixes.drop i, 32 < p.ipPrefixLen.toNat) (log : List LfwBgLog) :
    lfwInsertPrefixes e A.toAllocator (root t) prefixes k i log m = .error (.badShift 32) := by
  induction k generalizing i log m t with
  | zero =>
    obtain ⟨p, hp, -⟩ := hlong
    rw [List.drop_of_length_le (by omega)] at hp
    exact absurd hp List.not_mem_nil
  | succ k ih =>
    have hi : i < prefixes.length := by omega
    rw [lfwInsertPrefixes_succ e A.toAllocator (root t) (by omega) hi]
    -- a prefix that fits is inserted, and the long one is still to come
    by_cases hp : prefixes[i].ipPrefixLen.toNat ≤ 32
    · have hlong' : ∃ p ∈ prefixes.drop (i + 1), 32 < p.ipPrefixLen.toNat := by
        obtain ⟨p, hmem, hlt⟩ := hlong
        rw [List.drop_eq_getElem_cons hi] at hmem
        rcases List.mem_cons.1 hmem with rfl | hmem
        · omega
        · exact ⟨p, hmem, hlt⟩
      obtain ⟨ip_path, hone⟩ := lfwInsertPrefix_eq e A.toAllocator (root t) hp m
      cases t with
      | nil => exact absurd rfl hne
      | node x kids =>
        obtain ⟨a, v⟩ := x
        obtain ⟨last, created, m₁, t₁, hput, hres⟩ := put_spec A false
          (LfwIpPrefix.put e prefixes[i]).2 (LfwIpPrefix.put e prefixes[i]).1 m a v kids hs hnd
        have hg := hres.grows
        have hrest := ih hg.stored (hg.ne_nil hne) (hg.nodup hs hnd) (by omega) hlong'
          (log ++ [⟨prefixes[i].ipPrefix, ip_path, created⟩])
        have hroot : root (BitTrie.node (a, v) kids) = some a := rfl
        have hturn : lfwInsertPrefix e A.toAllocator (some a) prefixes[i] m =
            .ok (⟨prefixes[i].ipPrefix, ip_path, created⟩, m₁) := by
          rw [← hroot, hone, hroot, hput]
          rfl
        rw [hroot, hturn, ok_bind, ← hroot, ← hg.root_eq]
        exact hrest
    · rw [lfwInsertPrefix_badShift A hs hne hnd (by omega)]
      rfl

theorem lfwLoadBgTree_badShift (e : Endian) (A : Supply) (s : LfwBgState)
    (hmax : prefixes.length ≤ 2 ^ 31) (hlong : ∃ p ∈ prefixes, 32 < p.ipPrefixLen.toNat) :
    lfwLoadBgTree e A.toAllocator prefixes prefixes.length s = .error (.badShift 32) := by
  obtain ⟨a, trees, htree, hexta⟩ := Mem.zalloc_supply A s.trees ⟨none⟩
  obtain ⟨c, nodes, hnode, hextc⟩ := Mem.zalloc_supply A s.nodes (Cell.zero false)
  have hs : Stored nodes (lfwBlank c) := ⟨hextc.lookup_self, fun _ => trivial⟩
  have hloop : lfwInsertPrefixes e A.toAllocator (root (lfwBlank c)) prefixes prefixes.length 0
      s.log nodes = .error (.badShift 32) :=
    lfwInsertPrefixes_badShift A hs (by simp [lfwBlank]) (by simp [lfwBlank, addrs])
      hmax (Nat.zero_add _) hlong s.log
  have hroot : root (lfwBlank c) = some c := rfl
  rw [hroot] at hloop
  simp only [lfwLoadBgTree, htree, lfwCreateNode, hnode, Mem.store_of_mem hexta.mem_self, ok_bind,
    hloop, error_bind]

/-! ## The depth of a list -/

/-- What is found after a run of insertions was there, or is on the way to a key
inserted. -/
theorem find_putVals_prefix {q : List Bool} {u : BitTrie Bool}
    (h : (putVals false (prefixes.map (LfwIpPrefix.put e)) u).find q ≠ none) :
    u.find q ≠ none ∨ ∃ p ∈ prefixes, q <+: p.key e := by
  induction prefixes generalizing u with
  | nil => exact Or.inl h
  | cons p prefixes ih =>
    rw [List.map_cons, putVals, List.foldl_cons] at h
    rcases ih h with hput | ⟨x, hx, hq⟩
    · by_cases hq : q <+: p.key e
      · exact Or.inr ⟨p, List.mem_cons_self, hq⟩
      · rw [LfwIpPrefix.put, BitTrie.find_put_of_not_prefix hq] at hput
        exact Or.inl hput
    · exact Or.inr ⟨x, List.mem_cons_of_mem _ hx, hq⟩

/-- **No node lies deeper than the longest prefix.** -/
theorem LfwLoaded.depth_le {a c : Addr} {t : PtrTrie Bool} {q : List Bool} {n : ℕ}
    (hl : LfwLoaded e prefixes s s' a t) (hlen : ∀ p ∈ prefixes, p.ipPrefixLen.toNat ≤ n)
    (hwalk : walk s'.nodes q (root t) = .ok (some c)) : q.length ≤ n := by
  have hne : t ≠ .nil := by
    rintro rfl
    cases q <;> cases hwalk
  rw [walk_spec hl.stored hne] at hwalk
  obtain ⟨node, -, hfind⟩ := hl.stored.data_of_descend (Except.ok.inj hwalk)
  obtain ⟨b, hvals⟩ := hl.vals_eq
  have hsome : (lfwMarked e b prefixes).find q ≠ none := by
    rw [← hvals, hfind]
    exact Option.some_ne_none _
  rcases find_putVals_prefix hsome with hblank | ⟨p, hp, hq⟩
  · rcases q with _ | ⟨d, q⟩
    · exact Nat.zero_le n
    · exact absurd (BitTrie.find_nil q) hblank
  · have hle := hq.length_le
    rw [LfwIpPrefix.key, length_ipPath] at hle
    exact hle.trans (hlen p hp)

/-! ## The bound that is safe -/

/-- The fault is an index past an array or a shift out of range. -/
def Fault.OutOfRange (f : Fault) : Prop := (∃ i, f = .outOfBounds i) ∨ ∃ n, f = .badShift n

theorem Fault.OutOfRange.not_negativeIndex (n : ℤ) : ¬ (Fault.negativeIndex n).OutOfRange := by
  rintro (⟨i, h⟩ | ⟨i, h⟩) <;> cases h

theorem Fault.OutOfRange.not_ofCache {f : Fault} (h : f.OutOfRange) : ¬ f.OfCache := by
  rcases h with ⟨i, rfl⟩ | ⟨n, rfl⟩ <;> exact id

/-- What is asked of a load, after any number of turns: that every index into the string and
every shift is in range, that each string that was logged is terminated, and that no node it
created lies deeper than 32. A counter of the turns that gets negative is not asked about: that
read of the buffer is `lfwBogonSet_inside_iff`'s. -/
structure LfwLoadBounded (e : Endian) (A : Allocator) (prefixes : List LfwIpPrefix)
    (s : LfwBgState) : Prop where
  in_range : ∀ len ≤ prefixes.length, Avoids Fault.OutOfRange (lfwLoadBgTree e A prefixes len s)
  terminated : ∀ len ≤ prefixes.length, ∀ s', lfwLoadBgTree e A prefixes len s = .ok s' →
    ∀ line ∈ s'.log.drop s.log.length, '\x00' ∈ line.ip_path
  depth_le : ∀ len ≤ prefixes.length, ∀ s', lfwLoadBgTree e A prefixes len s = .ok s' →
    ∀ tree q c, s'.trees.load s'.tree = .ok tree → walk s'.nodes q tree.root = .ok (some c) →
      c ∈ s'.nodes → c ∉ s.nodes → q.length ≤ 32

/-- What a load that does not give up logs. -/
theorem lfwLoadBgTree_log {len : ℕ} (h : lfwLoadBgTree e A prefixes len s = .ok s')
    (hmem : ¬ lfwLoadAborts A s) :
    s'.log.map LfwBgLog.ip_path =
      s.log.map LfwBgLog.ip_path ++ (prefixes.take len).map (LfwIpPrefix.text e) := by
  unfold lfwLoadAborts at hmem
  unfold lfwLoadBgTree at h
  split at h
  · next htree => exact absurd (Or.inl (by rw [htree])) hmem
  · split at h
    · next hnode => exact absurd (Or.inr (by rw [hnode])) hmem
    · obtain ⟨trees, -, h⟩ := bind_eq_ok.1 h
      obtain ⟨⟨log, nodes⟩, hloop, h⟩ := bind_eq_ok.1 h
      obtain rfl := Except.ok.inj h
      exact lfwInsertPrefixes_log hloop

/-- The lines a load adds have the strings of its prefixes. -/
theorem mem_log_drop {log log' : List LfwBgLog} {l : List LfwIpPrefix} (c : Char)
    (h : log'.map LfwBgLog.ip_path = log.map LfwBgLog.ip_path ++ l.map (LfwIpPrefix.text e)) :
    (∀ line ∈ log'.drop log.length, c ∈ line.ip_path) ↔ ∀ p ∈ l, c ∈ p.text e := by
  have hdrop : (log'.drop log.length).map LfwBgLog.ip_path = l.map (LfwIpPrefix.text e) := by
    rw [List.map_drop, h, List.drop_left' (List.length_map _)]
  have hall : (∀ t ∈ (log'.drop log.length).map LfwBgLog.ip_path, c ∈ t) ↔
      ∀ t ∈ l.map (LfwIpPrefix.text e), c ∈ t := by rw [hdrop]
  simpa only [List.forall_mem_map] using hall

/-- Below 32 a load is sound, whatever the memory. -/
theorem lfwLoadBgTree_bounded (A : Allocator) (s : LfwBgState)
    (hlen : ∀ p ∈ prefixes.take (2 ^ 31), p.ipPrefixLen.toNat ≤ 31) :
    LfwLoadBounded e A prefixes s := by
  have hle : ∀ p ∈ prefixes.take (2 ^ 31), p.ipPrefixLen.toNat ≤ 32 := fun p hp =>
    (hlen p hp).trans (by omega)
  -- a load of `len` turns is the load of the first `len` prefixes
  have hcases : ∀ len ≤ prefixes.length, ∀ s', lfwLoadBgTree e A prefixes len s = .ok s' →
      (lfwLoadAborts A s ∧ LfwGaveUp s s') ∨ (¬ lfwLoadAborts A s ∧
        (∀ p ∈ prefixes.take len, p ∈ prefixes.take (2 ^ 31)) ∧
        ∃ a t, LfwLoaded e (prefixes.take len) s s' a t) := by
    intro len hread s' hrun
    have hsize : (prefixes.take len).length = len := List.length_take_of_le hread
    have htake := (lfwLoadBgTree_take e A prefixes len s).trans hrun
    rcases lfwLoadBgTree_cases hsize.le htake with hgave | ⟨hmem, -, hmax, -, hl⟩
    · exact Or.inl hgave
    · rw [hsize] at hmax
      exact Or.inr ⟨hmem, fun p hp => List.take_subset_take_left prefixes hmax hp, hl⟩
  refine ⟨fun len hread => ?_, fun len hread s' hrun => ?_, fun len hread s' hrun => ?_⟩
  · exact lfwLoadBgTree_avoids (fun f => Fault.OutOfRange.not_ofCache) hread
      (Or.inr Fault.OutOfRange.not_negativeIndex) (Or.inl hle)
  · rcases hcases len hread s' hrun with ⟨-, hgave⟩ | ⟨hmem, hsub, -⟩
    · rw [hgave.log_eq, List.drop_length]
      exact fun line hline => absurd hline List.not_mem_nil
    · refine (mem_log_drop _ (lfwLoadBgTree_log hrun hmem)).2 fun p hp => ?_
      exact (lfwPathText_terminated_iff _ (hle p (hsub p hp))).2 (hlen p (hsub p hp))
  · intro tree q c htree hwalk hnew hold
    rcases hcases len hread s' hrun with ⟨-, hgave⟩ | ⟨-, hsub, a, t, hl⟩
    · have hsame : c ∈ s.nodes := by
        have hnew' : c ∈ s'.nodes.objs := hnew
        rwa [hgave.nodes_eq] at hnew'
      exact absurd hsame hold
    · rw [hl.tree_eq, Mem.load_of_lookup hl.header] at htree
      obtain rfl := Except.ok.inj htree
      exact hl.depth_le (fun p hp => hle p (hsub p hp)) hwalk

/-- **A load is sound exactly below 32.** Whatever the memory, every shift and every index into
the string is in range, every string terminated and no node deeper than 32, if and only if no
prefix is longer than 31 that a turn can come to. -/
theorem lfwLoadBgTree_bounded_iff (e : Endian) (prefixes : List LfwIpPrefix) (s : LfwBgState) :
    (∀ A, LfwLoadBounded e A prefixes s) ↔
      ∀ p ∈ prefixes.take (2 ^ 31), p.ipPrefixLen.toNat ≤ 31 := by
  refine ⟨fun hsound => ?_, fun hlen A => lfwLoadBgTree_bounded A s hlen⟩
  have hb := hsound Supply.next.toAllocator
  obtain ⟨n, hn⟩ : ∃ n, n = (prefixes.take (2 ^ 31)).length := ⟨_, rfl⟩
  have hmin := hn
  rw [List.length_take] at hmin
  have hread : n ≤ prefixes.length := by omega
  have hmax : (prefixes.take (2 ^ 31)).length ≤ 2 ^ 31 := by omega
  have htake : prefixes.take n = prefixes.take (2 ^ 31) := by
    rw [hmin, ← List.take_take, List.take_length]
  have hturns : lfwLoadBgTree e Supply.next.toAllocator (prefixes.take (2 ^ 31))
      (prefixes.take (2 ^ 31)).length s =
        lfwLoadBgTree e Supply.next.toAllocator prefixes n s := by
    rw [← hn, ← htake]
    exact lfwLoadBgTree_take e _ prefixes n s
  by_cases hlong : ∃ p ∈ prefixes.take (2 ^ 31), 32 < p.ipPrefixLen.toNat
  · have hshift := hturns.symm.trans (lfwLoadBgTree_badShift e Supply.next s hmax hlong)
    exact absurd (Or.inr ⟨32, rfl⟩) (hb.in_range n hread _ hshift)
  · push Not at hlong
    -- every prefix is logged, so its string has to be terminated
    obtain ⟨s', a, t, hrun, -⟩ := lfwLoadBgTree_spec e Supply.next s hlong hmax
    have hrun' := hturns.symm.trans hrun
    have hlog := lfwLoadBgTree_log hrun' (not_lfwLoadAborts _ s)
    rw [htake] at hlog
    intro p hp
    have hterm := (mem_log_drop _ hlog).1 (hb.terminated n hread s' hrun') p hp
    exact (lfwPathText_terminated_iff _ (hlong p hp)).1 hterm

/-- The prefix `255.255.255.255/32` is logged with a string that does not end. -/
theorem lfwLoadBgTree_bounded_host :
    ¬ ∀ (e : Endian) (A₀ A : Allocator) (s₀ s : LfwBgState) (ops : List LfwBgOp)
      (info : GenlInfo) (prefixes : List LfwIpPrefix),
      lfwInitBgState A₀ = .ok s₀ → run (lfwBgStep e) s₀ ops = .ok s →
      lfwPolicyAdmits e info = true →
      lfwParsePrefixes e 0 (List.replicate (lfwNumPrefix e info) .zero) (lfwPrefixAttrs e info) =
        .ok prefixes → LfwLoadBounded e A prefixes s := by
  intro hall
  obtain ⟨s₀, a, hinit, -⟩ := lfwInitBgState_spec Supply.next
  have hlen := (lfwLoadBgTree_bounded_iff .little [⟨0xFFFFFFFF#32, 32⟩] s₀).1 fun A =>
    hall .little _ A s₀ s₀ [] (lfwRequest 1 [([255, 255, 255, 255], 32)]) _ hinit rfl
      (by decide +kernel) (by decide +kernel)
  exact absurd (hlen _ List.mem_cons_self) (by decide)

end Librefw
