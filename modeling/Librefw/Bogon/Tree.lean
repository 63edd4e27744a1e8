import Librefw.Bogon.Model.Tree
import Librefw.Common.TrieBuild
import Librefw.Kernel.Utils

/-!
# The bogon list, over the trie library

The build of a list is a run of insertions into a fresh trie
(`lfwInsertPrefixes_of_putAll`), the lookup asks whether a key on the way
down is marked (`lfwLookupFrom_spec`), and the keys that are marked are
those of the prefixes (`find_lfwMarked`): on the way to an address they are
the prefixes that contain it (`marks_lfwMarked`).
-/

namespace Librefw

open PtrTrie

variable {A : Allocator} {m m' : Mem LfwBgNode} {t : PtrTrie Bool} {ip : U32}

/-! ## The lookup -/

/-- **The lookup asks for a mark on the way down.** -/
theorem lfwLookupFrom_spec (ip : U32) {k : ℕ} (hk : k ≤ 32) {runner : Addr} (hs : Stored m t)
    (hroot : root t = some runner) :
    ∃ r, lfwLookupFrom m ip k runner = .ok r ∧
      (0 < r ↔ (vals t).marks (ipBits ip (32 - k) k) = true) := by
  induction k generalizing runner t with
  | zero =>
    obtain ⟨v, kids, rfl⟩ := root_eq_some.1 hroot
    refine ⟨if v then 1 else 0, ?_, ?_⟩
    · rw [lfwLookupFrom, Mem.load_of_lookup hs.1]
      rfl
    · change _ ↔ v = true
      cases v <;> simp
  | succ k ih =>
    obtain ⟨v, kids, rfl⟩ := root_eq_some.1 hroot
    have hidx : 31 - k = 32 - (k + 1) := by omega
    have hnext : 32 - (k + 1) + 1 = 32 - k := by omega
    have hbit : in4GetBit ip (31 - k) = .ok (ip.getMsbD (31 - k)) := in4GetBit_of_lt ip (by omega)
    have hmarks : (vals (.node (runner, v) kids)).marks (ipBits ip (32 - (k + 1)) (k + 1)) =
        (v || (vals (kids (ip.getMsbD (31 - k)))).marks (ipBits ip (32 - k) k)) := by
      rw [ipBits_succ, hnext, ← hidx]
      rfl
    rw [hmarks, lfwLookupFrom, hbit, ok_bind, Mem.load_of_lookup hs.1, ok_bind]
    -- a mark ends the walk, and so does a missing child
    cases v with
    | true => exact ⟨1, rfl, by simp⟩
    | false =>
      cases hc : root (kids (ip.getMsbD (31 - k))) with
      | none =>
        refine ⟨-2, ?_, ?_⟩
        · simp only [hc]
          rfl
        · rw [root_eq_none.1 hc]
          simp [BitTrie.marks]
      | some c =>
        obtain ⟨r, hrun, hr⟩ := ih (by omega) (hs.2 (ip.getMsbD (31 - k))) hc
        refine ⟨r, ?_, ?_⟩
        · simp only [hc]
          exact hrun
        · rw [hr, Bool.false_or]

/-! ## The build -/

/-- `ip_path` after the bits `j` to `j + k` are written into it. -/
def lfwPathText (ip : U32) (k j : ℕ) (ip_path : List Char) : List Char :=
  (List.range' j k).foldl (fun l i => l.set i (if ip.getMsbD i then '1' else '0')) ip_path

/-- The loop over the bits of a prefix extends the path of its key. -/
theorem lfwInsertPath_eq (A : Allocator) {k j : ℕ} (hk : j + k ≤ 32) (runner : Ptr)
    {ip_path : List Char} (hlen : ip_path.length = 32) (num_nodes : ℕ) (m : Mem LfwBgNode) :
    lfwInsertPath A ip k j runner ip_path num_nodes m =
      (do let (last, created, m) ← extend A false (ipBits ip j k) runner m
          pure (last, lfwPathText ip k j ip_path, num_nodes + created, m)) := by
  induction k generalizing j runner ip_path num_nodes m with
  | zero => rfl
  | succ k ih =>
    have hset : setChar ip_path j (if ip.getMsbD j then '1' else '0') =
        .ok (ip_path.set j (if ip.getMsbD j then '1' else '0')) := if_pos (by omega)
    have hlen' : (ip_path.set j (if ip.getMsbD j then '1' else '0')).length = 32 := by
      rw [List.length_set, hlen]
    have htext : lfwPathText ip (k + 1) j ip_path =
        lfwPathText ip k (j + 1) (ip_path.set j (if ip.getMsbD j then '1' else '0')) := by
      simp only [lfwPathText, List.range'_succ, List.foldl_cons]
    rw [ipBits_succ, htext, lfwInsertPath, in4GetBit_of_lt ip (by omega), ok_bind, hset, ok_bind,
      extend]
    simp only [bind_assoc]
    congr 1
    funext n
    cases hc : n.child (ip.getMsbD j) with
    | some c => simp only [ih (by omega : j + 1 + k ≤ 32) _ hlen']
    | none =>
      simp only [lfwCreateNode, ih (by omega : j + 1 + k ≤ 32) _ hlen', bind_assoc, pure_bind,
        Nat.add_assoc, Nat.add_comm 1]

/-- The address of a prefix in host order. -/
def LfwIpPrefix.host (e : Endian) (p : LfwIpPrefix) : U32 :=
  getUnalignedBe32 e p.ipPrefix

/-- The key of a prefix. -/
def LfwIpPrefix.key (e : Endian) (p : LfwIpPrefix) : List Bool :=
  ipPath (p.host e) p.ipPrefixLen.toNat

/-- What a prefix inserts: a mark at its key. -/
def LfwIpPrefix.put (e : Endian) (p : LfwIpPrefix) : List Bool × (Bool → Bool) :=
  (p.key e, fun _ => true)

/-- A prefix is an insertion at its key. -/
theorem lfwInsertPrefix_eq (e : Endian) (A : Allocator) (root : Ptr) {p : LfwIpPrefix}
    (hp : p.ipPrefixLen.toNat ≤ 32) (m : Mem LfwBgNode) :
    ∃ ip_path, lfwInsertPrefix e A root p m =
      (do let (_, created, m) ← PtrTrie.put A false (p.put e).2 (p.put e).1 root m
          pure (⟨p.ipPrefix, ip_path, created⟩, m)) := by
  refine ⟨lfwPathText (p.host e) p.ipPrefixLen.toNat 0 (List.replicate 32 '\x00'), ?_⟩
  have htext : (List.replicate 32 '\x00').length = 32 := List.length_replicate
  have hidx : 0 + p.ipPrefixLen.toNat ≤ 32 := by omega
  have hloop : lfwInsertPath A (p.host e) _ 0 root _ 0 m = _ :=
    lfwInsertPath_eq A hidx root htext 0 m
  rw [ipBits_eq_ipPath] at hloop
  unfold lfwInsertPrefix
  simp only [LfwIpPrefix.host] at hloop ⊢
  rw [hloop]
  simp only [PtrTrie.put, LfwIpPrefix.put, LfwIpPrefix.key, LfwIpPrefix.host, bind_assoc, pure_bind,
    Nat.zero_add]

/-- A slot of the array, as long as the counter is not negative. -/
theorem lfwPrefixAt_of_lt {prefixes : List LfwIpPrefix} {i : ℕ} (hmax : i < 2 ^ 31)
    (hi : i < prefixes.length) : lfwPrefixAt prefixes i = .ok prefixes[i] := by
  rw [lfwPrefixAt, if_pos hmax, List.getElem?_eq_getElem hi]
  rfl

/-- A slot that is read is there. -/
theorem lfwPrefixAt_ok {prefixes : List LfwIpPrefix} {i : ℕ} {p : LfwIpPrefix}
    (h : lfwPrefixAt prefixes i = .ok p) :
    i < 2 ^ 31 ∧ ∃ hi : i < prefixes.length, p = prefixes[i] := by
  unfold lfwPrefixAt at h
  split at h
  · next hmax =>
    by_cases hi : i < prefixes.length
    · rw [List.getElem?_eq_getElem hi] at h
      exact ⟨hmax, hi, (Except.ok.inj h).symm⟩
    · rw [List.getElem?_eq_none (Nat.le_of_not_lt hi)] at h
      cases h
  · cases h

/-- A turn of the loop, at a slot of the array. -/
theorem lfwInsertPrefixes_succ (e : Endian) (A : Allocator) (root : Ptr)
    {prefixes : List LfwIpPrefix} {i : ℕ} (hmax : i < 2 ^ 31) (hi : i < prefixes.length) (k : ℕ)
    (log : List LfwBgLog) (m : Mem LfwBgNode) :
    lfwInsertPrefixes e A root prefixes (k + 1) i log m =
      lfwInsertPrefix e A root prefixes[i] m >>= fun x =>
        lfwInsertPrefixes e A root prefixes k (i + 1) (log ++ [x.1]) x.2 := by
  rw [lfwInsertPrefixes, lfwPrefixAt_of_lt hmax hi]
  rfl

/-- What a turn of a loop that ends has done. -/
theorem lfwInsertPrefixes_cases {e : Endian} {A : Allocator} {root : Ptr}
    {prefixes : List LfwIpPrefix} {k i : ℕ} {log : List LfwBgLog}
    {x : List LfwBgLog × Mem LfwBgNode}
    (h : lfwInsertPrefixes e A root prefixes (k + 1) i log m = .ok x) :
    i < 2 ^ 31 ∧ ∃ (hi : i < prefixes.length) (line : LfwBgLog) (m₁ : Mem LfwBgNode),
      lfwInsertPrefix e A root prefixes[i] m = .ok (line, m₁) ∧
        lfwInsertPrefixes e A root prefixes k (i + 1) (log ++ [line]) m₁ = .ok x := by
  rw [lfwInsertPrefixes] at h
  obtain ⟨p, hread, h⟩ := bind_eq_ok.1 h
  obtain ⟨hmax, hi, rfl⟩ := lfwPrefixAt_ok hread
  obtain ⟨⟨line, m₁⟩, hone, hrest⟩ := bind_eq_ok.1 h
  exact ⟨hmax, hi, line, m₁, hone, hrest⟩

/-- The loop over the prefixes is a run of insertions. -/
theorem lfwInsertPrefixes_of_putAll {e : Endian} {A : Allocator} {root : Ptr}
    {prefixes : List LfwIpPrefix} (hlen : ∀ p ∈ prefixes, p.ipPrefixLen.toNat ≤ 32)
    (hmax : prefixes.length ≤ 2 ^ 31) {k i : ℕ} (hk : i + k = prefixes.length) (log : List LfwBgLog)
    (h : putAll A false root ((prefixes.drop i).map (LfwIpPrefix.put e)) m = .ok m') :
    ∃ log', lfwInsertPrefixes e A root prefixes k i log m = .ok (log', m') := by
  induction k generalizing i log m with
  | zero =>
    rw [List.drop_of_length_le (by omega)] at h
    obtain rfl := Except.ok.inj h
    exact ⟨log, rfl⟩
  | succ k ih =>
    have hi : i < prefixes.length := by omega
    rw [List.drop_eq_getElem_cons hi, List.map_cons, putAll] at h
    obtain ⟨⟨last, created, m₁⟩, hput, h⟩ := bind_eq_ok.1 h
    obtain ⟨ip_path, hone⟩ := lfwInsertPrefix_eq e A root (hlen _ (List.getElem_mem hi)) m
    rw [hput, ok_bind] at hone
    obtain ⟨log', hrest⟩ :=
      ih (by omega) (log ++ [⟨prefixes[i].ipPrefix, ip_path, created⟩]) h
    refine ⟨log', ?_⟩
    rw [lfwInsertPrefixes_succ e A root (by omega) hi, hone]
    exact hrest

/-- The trie of a fresh root. -/
def lfwBlank (a : Addr) : PtrTrie Bool := .node (a, false) fun _ => .nil

/-- What the trie of a list of prefixes means. -/
def lfwMarked (e : Endian) (a : Addr) (prefixes : List LfwIpPrefix) : BitTrie Bool :=
  putVals false (prefixes.map (LfwIpPrefix.put e)) (vals (lfwBlank a))

/-- **The keys marked are the keys of the prefixes.** -/
theorem find_lfwMarked {e : Endian} {a : Addr} {prefixes : List LfwIpPrefix} {q : List Bool} :
    (lfwMarked e a prefixes).find q = some true ↔ ∃ p ∈ prefixes, q = p.key e := by
  have hgen : ∀ (u : BitTrie Bool),
      (putVals false (prefixes.map (LfwIpPrefix.put e)) u).find q = some true ↔
        (∃ p ∈ prefixes, q = p.key e) ∨ u.find q = some true := by
    induction prefixes with
    | nil => simp [putVals]
    | cons p prefixes ih =>
      intro u
      rw [List.map_cons, putVals, List.foldl_cons]
      refine (ih _).trans ?_
      rw [LfwIpPrefix.put, BitTrie.find_mark]
      rw [List.exists_mem_cons_iff, or_left_comm, or_assoc]
  rw [lfwMarked, hgen]
  refine or_iff_left ?_
  rcases q with _ | ⟨b, q⟩
  · intro h
    exact Bool.noConfusion (Option.some.inj h)
  · rw [lfwBlank, vals, BitTrie.map, BitTrie.find_cons, BitTrie.kid_node, BitTrie.map_nil,
      BitTrie.find_nil]
    exact Option.some_ne_none true ∘ Eq.symm

/-- A prefix contains an address. -/
def LfwIpPrefix.Contains (e : Endian) (p : LfwIpPrefix) (ip : U32) : Prop :=
  in4GetMasked ip p.ipPrefixLen.toNat = in4GetMasked (p.host e) p.ipPrefixLen.toNat

instance (e : Endian) (p : LfwIpPrefix) (ip : U32) : Decidable (p.Contains e ip) :=
  inferInstanceAs (Decidable (_ = _))

/-- **A mark on the way to an address is a prefix that contains it.** -/
theorem marks_lfwMarked {e : Endian} {a : Addr} {prefixes : List LfwIpPrefix}
    (hlen : ∀ p ∈ prefixes, p.ipPrefixLen.toNat ≤ 32) :
    (lfwMarked e a prefixes).marks (ipPath ip 32) = true ↔ ∃ p ∈ prefixes, p.Contains e ip := by
  rw [BitTrie.marks_iff]
  constructor
  · rintro ⟨q, hq, hfind⟩
    obtain ⟨p, hp, rfl⟩ := find_lfwMarked.1 hfind
    refine ⟨p, hp, ?_⟩
    rw [LfwIpPrefix.Contains, ← ipPath_eq_iff_masked (hlen p hp)]
    exact (ipPath_prefix_iff (hlen p hp)).1 hq
  · rintro ⟨p, hp, hcontains⟩
    refine ⟨p.key e, (ipPath_prefix_iff (hlen p hp)).2 ?_, find_lfwMarked.2 ⟨p, hp, rfl⟩⟩
    rw [ipPath_eq_iff_masked (hlen p hp)]
    exact hcontains

end Librefw
