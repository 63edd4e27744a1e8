import Librefw.Bogon.Model.Concurrent
import Librefw.Bogon.Store
import Librefw.Common.Rcu

/-!
# Lookups of the bogon list among loads

The trees that are published, replaced, queued or under construction are
those of the store. A tree that is no longer under construction is never
written, and what a lookup holds is there as long as it holds it: that is
the rule of versions and sections (`Rcu.Safe`), which the component obeys
as `LfwBgSys.rcu`. Together they are `LfwBgSafe`.

`lfwBgSysStep_cases` says once what an event can do (`LfwBgStepCase`), and
every event keeps the component safe and faults under nothing, as long as
no prefix is longer than an address.
-/

namespace Librefw

open PtrTrie

variable {nodes nodes' : Mem LfwBgNode} {trees trees' : Mem LfwBgTree} {hs : Multiset Ptr}
variable {p : Ptr} {a c : Addr} {t t' : PtrTrie Bool} {e : Endian}

/-! ## The component -/

/-- The tree a lookup has loaded. -/
def LfwBgReaderPc.tree? : LfwBgReaderPc → Option Ptr
  | .entered => none
  | .loaded _ tree => some tree
  | .descending _ tree _ _ => some tree
  | .done seen _ => some seen.tree

/-- The state a lookup has loaded its tree from. -/
def LfwBgReaderPc.seen? : LfwBgReaderPc → Option LfwBgState
  | .entered => none
  | .loaded seen _ => some seen
  | .descending seen _ _ _ => some seen
  | .done seen _ => some seen

namespace LfwBgSys

/-- The headers that may be read: published, replaced and queued. -/
def shared (s : LfwBgSys) : Multiset Ptr := s.bg.tree ::ₘ ((s.swapped : Multiset Ptr) + s.bg.rcu)

/-- The headers of loads. -/
def building (s : LfwBgSys) : Multiset Ptr := (s.builds.map LfwBgBuild.tree : List Ptr)

/-- The component as versions and sections. -/
def rcu (s : LfwBgSys) : Rcu Ptr where
  current := s.bg.tree
  replaced := s.swapped
  retired := s.bg.rcu.zip s.stamps
  clock := s.clock
  sections := s.readers.map fun r => ⟨r.id, r.pc.tree?⟩

end LfwBgSys

variable {s s' : LfwBgSys} {ev : LfwBgEvent} {bg bg' : LfwBgState} {ip : U32}

/-- The lookup after it has read the root. -/
def lfwReadTree (nodes : Mem LfwBgNode) (ip : U32) : Ptr → Except Fault ℤ
  | none => pure (-1)
  | some runner => lfwLookupFrom nodes ip 32 runner

/-- What a lookup has done is right: what is left of it, on the state as it is, gives what the
whole gives on the state it loaded its tree from. -/
def LfwBgReaderPc.Good (bg : LfwBgState) (ip : U32) : LfwBgReaderPc → Prop
  | .entered => True
  | .loaded seen tree => seen.tree = tree ∧ ∃ a r res, tree = some a ∧
      bg.trees.lookup a = some r ∧ lfwLookupBgTree seen ip = .ok res ∧
        lfwReadTree bg.nodes ip r.root = .ok res
  | .descending seen tree k runner => seen.tree = tree ∧ (∃ u, root u = some runner ∧
      Stored bg.nodes u ∧ ∀ c ∈ addrs u, c ∈ footprint bg.nodes (lfwRootAt bg.trees tree)) ∧
        ∃ res, lfwLookupBgTree seen ip = .ok res ∧ lfwLookupFrom bg.nodes ip k runner = .ok res
  | .done seen result => lfwLookupBgTree seen ip = .ok result

/-- **Safety.** The store is in order, sections hold what they may, and lookups are right. -/
structure LfwBgSafe (s : LfwBgSys) : Prop where
  store : LfwBgStore s.bg.nodes s.bg.trees (s.shared + s.building)
  stamps : s.stamps.length = s.bg.rcu.length
  rcu : s.rcu.Safe
  grown : ∀ b ∈ s.builds, lfwRootAt s.bg.trees b.tree ≠ none
  short : ∀ b ∈ s.builds, ∀ x ∈ b.prefixes, x.ipPrefixLen.toNat ≤ 32
  readers : ∀ r ∈ s.readers, r.pc.Good s.bg r.ip

/-! ## Lookups -/

/-- The walk reads the nodes of its tree and no others. -/
theorem lfwLookupFrom_congr (ip : U32) {k : ℕ} {runner : Addr} (hst : Stored nodes t)
    (hroot : root t = some runner) (hkeep : ∀ c ∈ addrs t, nodes'.lookup c = nodes.lookup c) :
    lfwLookupFrom nodes' ip k runner = lfwLookupFrom nodes ip k runner := by
  induction k generalizing t runner with
  | zero =>
    have hself := hkeep runner (root_mem_addrs hroot)
    obtain ⟨v, kids, rfl⟩ := root_eq_some.1 hroot
    rw [lfwLookupFrom, lfwLookupFrom, Mem.load_of_lookup (hself.trans hst.1),
      Mem.load_of_lookup hst.1]
  | succ k ih =>
    have hself := hkeep runner (root_mem_addrs hroot)
    obtain ⟨v, kids, rfl⟩ := root_eq_some.1 hroot
    rw [lfwLookupFrom, lfwLookupFrom, Mem.load_of_lookup (hself.trans hst.1),
      Mem.load_of_lookup hst.1]
    refine bind_congr_ok fun bit _ => ?_
    simp only [ok_bind]
    cases hc : root (kids bit) with
    | none => rfl
    | some child =>
      have hrec := ih (hst.2 bit) hc fun c hc => hkeep c (Multiset.mem_of_le (addrs_kid_le _ kids bit) hc)
      simp only [hrec]

theorem lfwLookupBgTree_header {r : LfwBgTree} (htree : bg.tree = some a)
    (hr : bg.trees.lookup a = some r) (ip : U32) :
    lfwLookupBgTree bg ip = lfwReadTree bg.nodes ip r.root := by
  rw [lfwLookupBgTree, htree, Mem.load_of_lookup hr, ok_bind]
  rfl

/-- A lookup in a tree that is kept. -/
theorem LfwBgKeeps.readTree {r : LfwBgTree} (h : LfwBgKeeps nodes trees nodes' trees' (some a))
    (hr : trees.lookup a = some r) (hst : IsTrie nodes (lfwRootAt trees (some a))) (ip : U32) :
    lfwReadTree nodes' ip r.root = lfwReadTree nodes ip r.root := by
  have hnode := h.node
  obtain ⟨u, hroot, hsu⟩ := hst
  rw [lfwRootAt_some hr] at hroot hnode
  rw [hsu.footprint_eq hroot] at hnode
  cases hc : r.root with
  | none => rfl
  | some runner => exact lfwLookupFrom_congr ip hsu (hroot.trans hc) hnode

/-- A lookup is as it was where its tree is kept. -/
theorem LfwBgReaderPc.Good.mono {pc : LfwBgReaderPc} (hg : pc.Good bg ip)
    (hkeep : ∀ p, pc.tree? = some p → LfwBgKeeps bg.nodes bg.trees bg'.nodes bg'.trees p ∧
      IsTrie bg.nodes (lfwRootAt bg.trees p)) : pc.Good bg' ip := by
  cases pc with
  | entered => trivial
  | loaded seen tree =>
    obtain ⟨htree, a, r, res, rfl, hr, hseen, hread⟩ := hg
    obtain ⟨hk, hst⟩ := hkeep _ rfl
    refine ⟨htree, a, r, res, rfl, (hk.header a rfl).trans hr, hseen, ?_⟩
    rw [hk.readTree hr hst, hread]
  | descending seen tree k runner =>
    obtain ⟨htree, ⟨u, hroot, hsu, hin⟩, res, hseen, hread⟩ := hg
    obtain ⟨hk, hst⟩ := hkeep _ rfl
    have hkept : ∀ c ∈ addrs u, bg'.nodes.lookup c = bg.nodes.lookup c := fun c hc =>
      hk.node c (hin c hc)
    refine ⟨htree, ⟨u, hroot, hsu.congr hkept, fun c hc => ?_⟩, res, hseen, ?_⟩
    · rw [(hk.frame hst).2]
      exact hin c hc
    · rw [lfwLookupFrom_congr ip hsu hroot hkept, hread]
  | done seen result => exact hg

/-- The walk always ends with an answer. -/
theorem lfwReadTree_ok (hst : IsTrie nodes p) (ip : U32) : ∃ res, lfwReadTree nodes ip p = .ok res := by
  obtain ⟨u, hroot, hsu⟩ := hst
  cases p with
  | none => exact ⟨-1, rfl⟩
  | some runner =>
    obtain ⟨res, hres, -⟩ := lfwLookupFrom_spec ip (le_refl 32) hsu hroot
    exact ⟨res, hres⟩

/-- A lookup goes on with the tree it has, or loads the published one. -/
def LfwBgReaderPc.Next (bg : LfwBgState) (pc pc' : LfwBgReaderPc) : Prop :=
  pc = .entered ∧ pc' = .loaded bg bg.tree ∨ pc'.seen? = pc.seen? ∧ pc'.tree? = pc.tree?

/-- **A load of a lookup succeeds**, and the lookup is nearer to its answer. -/
theorem lfwBgLoad_good {r : LfwBgReader} (hst : LfwBgStore bg.nodes bg.trees hs) (hmem : bg.tree ∈ hs)
    (hheld : ∀ p, r.pc.tree? = some p → p ∈ hs) (hg : r.pc.Good bg r.ip) :
    ∃ pc, lfwBgLoad bg r = .ok pc ∧ pc.Good bg r.ip ∧ r.pc.Next bg pc := by
  unfold lfwBgLoad
  cases hpc : r.pc with
  | entered =>
    obtain ⟨a, h, htree, hr⟩ := hst.header hmem
    have htrie := hst.stored _ hmem
    rw [htree, lfwRootAt_some hr] at htrie
    obtain ⟨res, hres⟩ := lfwReadTree_ok htrie r.ip
    refine ⟨_, rfl, ⟨rfl, a, h, res, htree, hr, ?_, hres⟩, Or.inl ⟨rfl, rfl⟩⟩
    rw [lfwLookupBgTree_header htree hr, hres]
  | loaded seen tree =>
    rw [hpc] at hg
    obtain ⟨htree, a, h, res, rfl, hr, hseen, hread⟩ := hg
    simp only [Mem.load_of_lookup hr, ok_bind]
    cases hroot : h.root with
    | none =>
      rw [hroot] at hread
      obtain rfl := Except.ok.inj hread
      exact ⟨_, rfl, hseen, Or.inr ⟨rfl, congrArg some htree⟩⟩
    | some runner =>
      rw [hroot] at hread
      have hmem' : some a ∈ hs := hheld _ (by rw [hpc]; rfl)
      obtain ⟨u, hu, hsu⟩ := hst.stored _ hmem'
      have hfoot := hsu.footprint_eq hu
      rw [lfwRootAt_some hr] at hu
      refine ⟨_, rfl, ⟨htree, ⟨u, hu.trans hroot, hsu, fun c hc => ?_⟩, res, hseen, hread⟩,
        Or.inr ⟨rfl, rfl⟩⟩
      rw [hfoot]
      exact hc
  | descending seen tree k runner =>
    rw [hpc] at hg
    obtain ⟨htree, ⟨u, hroot, hsu, hin⟩, res, hseen, hread⟩ := hg
    obtain ⟨v, kids, rfl⟩ := root_eq_some.1 hroot
    have hload := Mem.load_of_lookup hsu.1
    cases k with
    | zero =>
      rw [lfwLookupFrom, hload, ok_bind] at hread
      obtain rfl := Except.ok.inj hread
      refine ⟨.done seen (if v then 1 else 0), ?_, hseen, Or.inr ⟨rfl, congrArg some htree⟩⟩
      simp only [hload, ok_bind, pure_eq_ok]
    | succ k =>
      rw [lfwLookupFrom] at hread
      obtain ⟨bit, hbit, hread⟩ := bind_eq_ok.1 hread
      simp only [hload, hbit, ok_bind] at hread ⊢
      cases v with
      | true =>
        obtain rfl := Except.ok.inj hread
        exact ⟨_, rfl, hseen, Or.inr ⟨rfl, congrArg some htree⟩⟩
      | false =>
        cases hc : root (kids bit) with
        | none =>
          simp only [hc] at hread
          obtain rfl := Except.ok.inj hread
          exact ⟨_, rfl, hseen, Or.inr ⟨rfl, congrArg some htree⟩⟩
        | some child =>
          simp only [hc] at hread
          refine ⟨_, rfl, ⟨htree, ⟨kids bit, hc, hsu.2 bit, fun c hc => ?_⟩, res, hseen, hread⟩,
            Or.inr ⟨rfl, rfl⟩⟩
          exact hin c (Multiset.mem_of_le (addrs_kid_le _ kids bit) hc)
  | done seen result =>
    rw [hpc] at hg
    exact ⟨_, rfl, hg, Or.inr ⟨rfl, rfl⟩⟩

/-! ## What an event does -/

/-- No prefix is longer than an address, and no list than the counter of the load can count. -/
def LfwBgEvent.Short : LfwBgEvent → Prop
  | .loadStart _ prefixes =>
    (∀ x ∈ prefixes, x.ipPrefixLen.toNat ≤ 32) ∧ prefixes.length ≤ 2 ^ 31
  | _ => True

/-- What an event does to the state, the laws of the tree functions filled in. -/
inductive LfwBgStepCase (e : Endian) (s : LfwBgSys) : LfwBgEvent → LfwBgSys → Prop where
  | start {A : Supply} {prefixes : List LfwIpPrefix} {a c : Addr} {trees : Mem LfwBgTree}
      {nodes : Mem LfwBgNode} (hexta : s.bg.trees.Extends a ⟨none⟩ trees)
      (hextc : s.bg.nodes.Extends c (Cell.zero false) nodes) :
      LfwBgStepCase e s (.loadStart A prefixes)
        { s with
          bg := { s.bg with trees := trees.set a ⟨some c⟩, nodes := nodes }
          builds := s.builds ++ [⟨some a, prefixes⟩] }
  | insert {A : Supply} {i : ℕ} {b : LfwBgBuild} {x : LfwIpPrefix} {rest : List LfwIpPrefix}
      {line : LfwBgLog} {nodes : Mem LfwBgNode} {t t' : PtrTrie Bool}
      (hb : s.builds[i]? = some b) (hx : b.prefixes = x :: rest)
      (hroot : root t = lfwRootAt s.bg.trees b.tree) (hst : Stored s.bg.nodes t)
      (hg : Grows s.bg.nodes t nodes t')
      (hvals : vals t' = BitTrie.put false (fun _ => true) (x.key e) (vals t)) :
      LfwBgStepCase e s (.loadPrefix A i)
        { s with
          bg := { s.bg with nodes := nodes, log := s.bg.log ++ [line] }
          builds := s.builds.set i { b with prefixes := rest } }
  | inserted {A : Supply} {i : ℕ} (h : ∀ b, s.builds[i]? = some b → b.prefixes = []) :
      LfwBgStepCase e s (.loadPrefix A i) s
  | swap {i : ℕ} {b : LfwBgBuild} (hb : s.builds[i]? = some b) (hx : b.prefixes = []) :
      LfwBgStepCase e s (.loadSwap i)
        { s with
          bg := { s.bg with tree := b.tree }
          builds := s.builds.eraseIdx i
          swapped := s.swapped ++ [s.bg.tree] }
  | early {i : ℕ} (h : ∀ b, s.builds[i]? = some b → b.prefixes ≠ []) :
      LfwBgStepCase e s (.loadSwap i) s
  | callRcu {i : ℕ} {old_tree : Ptr} (hi : s.swapped[i]? = some old_tree) :
      LfwBgStepCase e s (.callRcu i)
        { s with
          bg := { s.bg with rcu := s.bg.rcu ++ [old_tree] }
          stamps := s.stamps ++ [s.clock]
          swapped := s.swapped.eraseIdx i }
  | callback {i stamp : ℕ} {a : Addr} {nodes : Mem LfwBgNode} (hi : s.bg.rcu[i]? = some (some a))
      (hstamp : s.stamps[i]? = some stamp) (hgrace : s.graceOver stamp)
      (hstore : LfwBgStore nodes (s.bg.trees.erase a) ((s.shared + s.building).erase (some a)))
      (hkeep : ∀ q ∈ (s.shared + s.building).erase (some a),
        LfwBgKeeps s.bg.nodes s.bg.trees nodes (s.bg.trees.erase a) q) :
      LfwBgStepCase e s (.callback i)
        { s with
          bg := { s.bg with
            nodes := nodes, trees := s.bg.trees.erase a, rcu := s.bg.rcu.eraseIdx i }
          stamps := s.stamps.eraseIdx i }
  | idleRcu (i : ℕ) : LfwBgStepCase e s (.callRcu i) s
  | idleCallback (i : ℕ) : LfwBgStepCase e s (.callback i) s
  | enter (ip : U32) : LfwBgStepCase e s (.readerEnter ip) (lfwBgReaderEnter ip s)
  | load {i : ℕ} {r : LfwBgReader} {pc : LfwBgReaderPc} (hr : s.readers[i]? = some r)
      (hload : lfwBgLoad s.bg r = .ok pc) (hgood : pc.Good s.bg r.ip) (hnext : r.pc.Next s.bg pc) :
      LfwBgStepCase e s (.readerStep i)
        { s with readers := s.readers.set i { r with pc := pc } }
  | leave {i : ℕ} : LfwBgStepCase e s (.readerStep i) { s with readers := s.readers.eraseIdx i }

namespace LfwBgSafe

theorem mem_shared (h : LfwBgSafe s) {r : LfwBgReader} (hr : r ∈ s.readers) {p : Ptr}
    (hp : r.pc.tree? = some p) : p ∈ s.shared := h.rcu.mem_versions hr hp

theorem mem_tree : s.bg.tree ∈ s.shared + s.building :=
  Multiset.mem_add.2 (Or.inl (Multiset.mem_cons_self _ _))

theorem mem_build {b : LfwBgBuild} (hb : b ∈ s.builds) : b.tree ∈ s.shared + s.building :=
  Multiset.mem_add.2 (Or.inr (Multiset.mem_coe.2 (List.mem_map_of_mem hb)))

/-- The headers without a queued one. -/
theorem erase_queued {i : ℕ} (hi : s.bg.rcu[i]? = some p) :
    (s.shared + s.building).erase p = s.bg.tree ::ₘ
      ((s.swapped : Multiset Ptr) + (s.bg.rcu.eraseIdx i : List Ptr)) + s.building := by
  have heq : s.shared = p ::ₘ _ := Rcu.versions_reclaim hi
  rw [heq, Multiset.cons_add, Multiset.erase_cons_head]
  rfl

/-- Loads have trees of their own. -/
theorem build_inj (h : LfwBgSafe s) {i j : ℕ} {b y : LfwBgBuild} (hb : s.builds[i]? = some b)
    (hy : s.builds[j]? = some y) (hij : i ≠ j) : b.tree ≠ y.tree := by
  have hnd := h.store.nodup
  rw [Multiset.nodup_add] at hnd
  have hlist : (s.builds.map LfwBgBuild.tree).Nodup := Multiset.coe_nodup.1 hnd.2.1
  intro heq
  have hi : (s.builds.map LfwBgBuild.tree)[i]? = some b.tree := by
    rw [List.getElem?_map, hb, Option.map_some]
  have hj : (s.builds.map LfwBgBuild.tree)[j]? = some b.tree := by
    rw [List.getElem?_map, hy, Option.map_some, heq]
  exact hij ((List.getElem?_inj (List.getElem?_eq_some_iff.1 hi).1 hlist).1 (hi.trans hj.symm))

/-- A load's tree is none that may be read. -/
theorem ne_shared (h : LfwBgSafe s) {b : LfwBgBuild} (hb : b ∈ s.builds) {p : Ptr}
    (hp : p ∈ s.shared) : p ≠ b.tree := by
  rintro rfl
  have hnd := h.store.nodup
  rw [Multiset.nodup_add] at hnd
  exact Multiset.disjoint_left.1 hnd.2.2 hp (Multiset.mem_coe.2 (List.mem_map_of_mem hb))

end LfwBgSafe

theorem lfwLoadStart_cases (e : Endian) (A : Supply) (prefixes : List LfwIpPrefix) (s : LfwBgSys) :
    ∃ s', lfwLoadStart A.toAllocator prefixes s = .ok s' ∧
      LfwBgStepCase e s (.loadStart A prefixes) s' := by
  obtain ⟨a, trees, htree, hexta⟩ := Mem.zalloc_supply A s.bg.trees ⟨none⟩
  obtain ⟨c, nodes, hnode, hextc⟩ := Mem.zalloc_supply A s.bg.nodes (Cell.zero false)
  refine ⟨_, ?_, .start hexta hextc⟩
  simp only [lfwLoadStart, htree, lfwCreateNode, hnode, Mem.store_of_mem hexta.mem_self, ok_bind,
    pure_eq_ok]

/-- A prefix goes into a tree only its load holds. -/
theorem lfwLoadPrefix_cases (h : LfwBgSafe s) (e : Endian) (A : Supply) (i : ℕ) :
    ∃ s', lfwLoadPrefix e A.toAllocator i s = .ok s' ∧ LfwBgStepCase e s (.loadPrefix A i) s' := by
  unfold lfwLoadPrefix
  cases hb : s.builds[i]? with
  | none => exact ⟨s, rfl, .inserted fun b hb' => nomatch hb.symm.trans hb'⟩
  | some b =>
    cases hx : b.prefixes with
    | nil =>
      refine ⟨s, by simp only [hx, pure_eq_ok], .inserted fun b' hb' => ?_⟩
      obtain rfl := Option.some.inj (hb.symm.trans hb')
      exact hx
    | cons x rest =>
      have hmem : b ∈ s.builds := List.mem_of_getElem? hb
      have hin := LfwBgSafe.mem_build hmem
      obtain ⟨a, r, htree, hr⟩ := h.store.header hin
      obtain ⟨t, hroot, hst⟩ := h.store.stored _ hin
      have hfoot := hst.footprint_eq hroot
      have hnil : t ≠ .nil := by
        rintro rfl
        exact h.grown b hmem hroot.symm
      have hlen := h.short b hmem x (hx ▸ List.mem_cons_self)
      obtain ⟨line, nodes, t', hrun, hg, hvals⟩ :=
        lfwInsertPrefix_spec e A hlen hst hnil (hfoot ▸ h.store.nodup_footprint hin)
      refine ⟨{ s with
        bg := { s.bg with nodes := nodes, log := s.bg.log ++ [line] }
        builds := s.builds.set i { b with prefixes := rest } }, ?_, .insert hb hx hroot hst hg hvals⟩
      rw [htree, lfwRootAt_some hr] at hroot
      rw [hroot] at hrun
      simp only [hx, htree, Mem.load_of_lookup hr, hrun, ok_bind, pure_eq_ok]

theorem lfwLoadSwap_cases (e : Endian) (i : ℕ) (s : LfwBgSys) :
    LfwBgStepCase e s (.loadSwap i) (lfwLoadSwap i s) := by
  unfold lfwLoadSwap
  cases hb : s.builds[i]? with
  | none => exact .early fun b hb' => nomatch hb.symm.trans hb'
  | some b =>
    cases hx : b.prefixes with
    | nil => simpa only [hx] using LfwBgStepCase.swap hb hx
    | cons x rest =>
      simp only [hx]
      refine .early fun b' hb' => ?_
      obtain rfl := Option.some.inj (hb.symm.trans hb')
      rw [hx]
      exact List.cons_ne_nil x rest

theorem lfwLoadCallRcu_cases (e : Endian) (i : ℕ) (s : LfwBgSys) :
    LfwBgStepCase e s (.callRcu i) (lfwLoadCallRcu i s) := by
  unfold lfwLoadCallRcu
  cases hi : s.swapped[i]? with
  | none => exact .idleRcu i
  | some old_tree => exact .callRcu hi

/-- A callback frees a tree that is there. -/
theorem lfwBgCallback_cases (h : LfwBgSafe s) (e : Endian) (i : ℕ) :
    ∃ s', lfwBgCallback i s = .ok s' ∧ LfwBgStepCase e s (.callback i) s' := by
  unfold lfwBgCallback
  cases hstamp : s.stamps[i]? with
  | none => exact ⟨s, rfl, .idleCallback i⟩
  | some stamp =>
    by_cases hgrace : s.graceOver stamp
    · have hlt : i < s.bg.rcu.length := by
        rw [← h.stamps]
        exact (List.getElem?_eq_some_iff.1 hstamp).1
      have hi : s.bg.rcu[i]? = some s.bg.rcu[i] := List.getElem?_eq_getElem hlt
      have hin : s.bg.rcu[i] ∈ s.shared + s.building := Multiset.mem_add.2 (Or.inl
        (Multiset.mem_cons_of_mem (Multiset.mem_add.2 (Or.inr (List.getElem_mem hlt)))))
      obtain ⟨a, r, htree, hr⟩ := h.store.header hin
      rw [htree] at hi hin
      obtain ⟨r', nodes, hr', hfree, hstore, hkeep⟩ := h.store.free hin
      refine ⟨_, ?_, .callback hi hstamp hgrace hstore hkeep⟩
      have hbm : a ∈ s.bg.trees := Mem.mem_of_lookup hr'
      simp only [hgrace, if_true, lfwFreeBgTree, hi, Mem.load_of_lookup hr', hfree,
        Mem.free_of_mem hbm, ok_bind, pure_eq_ok]
    · exact ⟨s, by simp only [hgrace, if_false, pure_eq_ok], .idleCallback i⟩

theorem lfwBgReaderStep_cases (h : LfwBgSafe s) (e : Endian) (i : ℕ) :
    ∃ s', lfwBgReaderStep i s = .ok s' ∧ LfwBgStepCase e s (.readerStep i) s' := by
  unfold lfwBgReaderStep
  cases hr : s.readers[i]? with
  | none =>
    refine ⟨s, rfl, ?_⟩
    have hlen := List.getElem?_eq_none_iff.1 hr
    have hleave := LfwBgStepCase.leave (e := e) (s := s) (i := i)
    rwa [List.eraseIdx_of_length_le hlen] at hleave
  | some r =>
    have hmem : r ∈ s.readers := List.mem_of_getElem? hr
    obtain ⟨pc, hload, hgood, hnext⟩ := lfwBgLoad_good h.store LfwBgSafe.mem_tree
      (fun p hp => Multiset.mem_add.2 (Or.inl (h.mem_shared hmem hp))) (h.readers r hmem)
    have hcase := LfwBgStepCase.load (e := e) hr hload hgood hnext
    cases hpc : r.pc with
    | done seen result => exact ⟨_, by simp only [hpc, pure_eq_ok], .leave⟩
    | entered => exact ⟨_, by simp only [hpc, hload, ok_bind, pure_eq_ok], hcase⟩
    | loaded seen tree => exact ⟨_, by simp only [hpc, hload, ok_bind, pure_eq_ok], hcase⟩
    | descending seen tree k runner =>
      exact ⟨_, by simp only [hpc, hload, ok_bind, pure_eq_ok], hcase⟩

/-- **What an event does.** -/
theorem lfwBgSysStep_cases (h : LfwBgSafe s) (e : Endian) (ev : LfwBgEvent) :
    ∃ s', lfwBgSysStep e s ev = .ok s' ∧ LfwBgStepCase e s ev s' := by
  cases ev with
  | loadStart A prefixes => exact lfwLoadStart_cases e A prefixes s
  | loadPrefix A i => exact lfwLoadPrefix_cases h e A i
  | loadSwap i => exact ⟨_, rfl, lfwLoadSwap_cases e i s⟩
  | callRcu i => exact ⟨_, rfl, lfwLoadCallRcu_cases e i s⟩
  | callback i => exact lfwBgCallback_cases h e i
  | readerEnter ip => exact ⟨_, rfl, .enter ip⟩
  | readerStep i => exact lfwBgReaderStep_cases h e i

/-! ## Every event keeps the component safe -/

namespace LfwBgSafe

/-- The lookups that were there, where the trees they hold are kept. -/
theorem good_of_keeps (h : LfwBgSafe s) {M : Multiset Ptr} (hsub : ∀ p ∈ s.shared, p ∈ M)
    (hkeep : ∀ p ∈ M, LfwBgKeeps s.bg.nodes s.bg.trees bg'.nodes bg'.trees p) :
    ∀ r ∈ s.readers, r.pc.Good bg' r.ip := fun r hr =>
  (h.readers r hr).mono fun p hp =>
    have hin := h.mem_shared hr hp
    ⟨hkeep p (hsub p hin), h.store.stored p (Multiset.mem_add.2 (Or.inl hin))⟩

theorem start (h : LfwBgSafe s) {prefixes : List LfwIpPrefix}
    (hshort : ∀ x ∈ prefixes, x.ipPrefixLen.toNat ≤ 32)
    (hexta : s.bg.trees.Extends a ⟨none⟩ trees)
    (hextc : s.bg.nodes.Extends c (Cell.zero false) nodes) :
    LfwBgSafe { s with
      bg := { s.bg with trees := trees.set a ⟨some c⟩, nodes := nodes }
      builds := s.builds ++ [⟨some a, prefixes⟩] } := by
  obtain ⟨hstore, hroot, -, hkeep⟩ := h.store.start hexta hextc
  refine ⟨?_, h.stamps, h.rcu, fun b hb => ?_, fun b hb => ?_,
    h.good_of_keeps (fun p hp => Multiset.mem_add.2 (Or.inl hp)) hkeep⟩
  · have heq : some a ::ₘ (s.shared + s.building) =
        s.shared + ((s.builds ++ [⟨some a, prefixes⟩] : List LfwBgBuild).map
          LfwBgBuild.tree : List Ptr) := by
      rw [List.map_append, ← Multiset.coe_add, List.map_singleton, Multiset.coe_singleton,
        ← add_assoc, add_comm _ {some a}, Multiset.singleton_add]
      rfl
    rw [heq] at hstore
    exact hstore
  · rcases List.mem_append.1 hb with hb | hb
    · simp only [(hkeep _ (mem_build hb)).root_eq]
      exact h.grown b hb
    · obtain rfl := List.mem_singleton.1 hb
      rw [hroot]
      exact Option.some_ne_none c
  · rcases List.mem_append.1 hb with hb | hb
    · exact h.short b hb
    · obtain rfl := List.mem_singleton.1 hb
      exact hshort

theorem insert (h : LfwBgSafe s) {i : ℕ} {b : LfwBgBuild} {x : LfwIpPrefix}
    {rest : List LfwIpPrefix} (log : List LfwBgLog) (hb : s.builds[i]? = some b)
    (hx : b.prefixes = x :: rest) (hroot : root t = lfwRootAt s.bg.trees b.tree)
    (hst : Stored s.bg.nodes t) (hg : Grows s.bg.nodes t nodes t') :
    LfwBgSafe { s with
      bg := { s.bg with nodes := nodes, log := log }
      builds := s.builds.set i { b with prefixes := rest } } := by
  have hmem : b ∈ s.builds := List.mem_of_getElem? hb
  obtain ⟨hstore, hkeep⟩ := h.store.grow (mem_build hmem) hroot hst hg
  refine ⟨?_, h.stamps, h.rcu, fun y hy => ?_, fun y hy => ?_,
    h.good_of_keeps (M := s.shared) (fun _ hp => hp) fun p hp => ?_⟩
  · have heq : (s.builds.set i { b with prefixes := rest }).map LfwBgBuild.tree =
        s.builds.map LfwBgBuild.tree := by
      refine List.ext_getElem? fun j => ?_
      rw [List.getElem?_map, List.getElem?_map, List.getElem?_set]
      by_cases hij : i = j
      · subst hij
        simp only [if_true, (List.getElem?_eq_some_iff.1 hb).1, hb, Option.map_some]
      · rw [if_neg hij]
    unfold LfwBgSys.building
    rw [heq]
    exact hstore
  · rcases List.mem_or_eq_of_mem_set hy with hy | rfl
    · exact h.grown y hy
    · exact h.grown b hmem
  · rcases List.mem_or_eq_of_mem_set hy with hy | rfl
    · exact h.short y hy
    · exact fun z hz => h.short b hmem z (hx ▸ List.mem_cons_of_mem x hz)
  · exact hkeep p (Multiset.mem_add.2 (Or.inl hp)) (h.ne_shared hmem hp)

theorem swap (h : LfwBgSafe s) {i : ℕ} {b : LfwBgBuild} (hb : s.builds[i]? = some b) :
    LfwBgSafe { s with
      bg := { s.bg with tree := b.tree }
      builds := s.builds.eraseIdx i
      swapped := s.swapped ++ [s.bg.tree] } := by
  refine ⟨?_, h.stamps, h.rcu.publish b.tree, fun y hy => h.grown y (List.mem_of_mem_eraseIdx hy),
    fun y hy => h.short y (List.mem_of_mem_eraseIdx hy),
    h.good_of_keeps (M := s.shared) (fun _ hp => hp) fun p _ => .refl p⟩
  have hbuild : s.building = b.tree ::ₘ ((s.builds.eraseIdx i).map LfwBgBuild.tree : List Ptr) := by
    rw [LfwBgSys.building, ← Multiset.map_coe, coe_eraseIdx hb, Multiset.map_cons, Multiset.map_coe]
  have heq : Rcu.versions b.tree (s.swapped ++ [s.bg.tree]) s.bg.rcu +
      ((s.builds.eraseIdx i).map LfwBgBuild.tree : List Ptr) = s.shared + s.building := by
    rw [Rcu.versions_publish, hbuild, Multiset.cons_add, Multiset.add_cons]
    rfl
  have hstore := h.store
  rw [← heq] at hstore
  exact hstore

theorem callRcu (h : LfwBgSafe s) {i : ℕ} {old_tree : Ptr} (hi : s.swapped[i]? = some old_tree) :
    LfwBgSafe { s with
      bg := { s.bg with rcu := s.bg.rcu ++ [old_tree] }
      stamps := s.stamps ++ [s.clock]
      swapped := s.swapped.eraseIdx i } := by
  refine ⟨?_, ?_, h.rcu.shown_retire h.stamps hi, h.grown, h.short,
    h.good_of_keeps (M := s.shared) (fun _ hp => hp) fun p _ => .refl p⟩
  · have heq : Rcu.versions s.bg.tree (s.swapped.eraseIdx i) (s.bg.rcu ++ [old_tree]) = s.shared :=
      Rcu.versions_retire hi
    have hstore := h.store
    rw [← heq] at hstore
    exact hstore
  · rw [List.length_append, List.length_append, h.stamps]
    rfl

theorem callback (h : LfwBgSafe s) {i stamp : ℕ} (hi : s.bg.rcu[i]? = some (some a))
    (hstamp : s.stamps[i]? = some stamp) (hgrace : s.graceOver stamp)
    (hstore : LfwBgStore nodes (s.bg.trees.erase a) ((s.shared + s.building).erase (some a)))
    (hkeep : ∀ q ∈ (s.shared + s.building).erase (some a),
      LfwBgKeeps s.bg.nodes s.bg.trees nodes (s.bg.trees.erase a) q) :
    LfwBgSafe { s with
      bg := { s.bg with
        nodes := nodes, trees := s.bg.trees.erase a, rcu := s.bg.rcu.eraseIdx i }
      stamps := s.stamps.eraseIdx i } := by
  have hrest := erase_queued hi
  have hsafe := h.rcu.shown_reclaim hi hstamp hgrace
  refine ⟨hrest ▸ hstore, ?_, hsafe, fun b hb => ?_, h.short, fun r hr => ?_⟩
  · have hlt := (List.getElem?_eq_some_iff.1 hi).1
    have hlt' := (List.getElem?_eq_some_iff.1 hstamp).1
    rw [List.length_eraseIdx_of_lt hlt, List.length_eraseIdx_of_lt hlt', h.stamps]
  · have hb' : b.tree ∈ (s.shared + s.building).erase (some a) := by
      rw [hrest]
      exact Multiset.mem_add.2 (Or.inr (Multiset.mem_coe.2 (List.mem_map_of_mem hb)))
    simp only [(hkeep _ hb').root_eq]
    exact h.grown b hb
  · -- what a lookup holds is still there, so it is another tree
    refine (h.readers r hr).mono fun p hp => ⟨hkeep p ?_, ?_⟩
    · rw [hrest]
      exact Multiset.mem_add.2 (Or.inl (hsafe.mem_versions hr hp))
    · exact h.store.stored p (Multiset.mem_add.2 (Or.inl (h.mem_shared hr hp)))

theorem enter (h : LfwBgSafe s) (ip : U32) : LfwBgSafe (lfwBgReaderEnter ip s) := by
  refine ⟨h.store, h.stamps, h.rcu.shown_enter rfl, h.grown, h.short, fun r hr => ?_⟩
  rcases List.mem_append.1 hr with hr | hr
  · exact h.readers r hr
  · obtain rfl := List.mem_singleton.1 hr
    trivial

theorem load (h : LfwBgSafe s) {i : ℕ} {r : LfwBgReader} {pc : LfwBgReaderPc}
    (hr : s.readers[i]? = some r) (hgood : pc.Good s.bg r.ip) (hnext : r.pc.Next s.bg pc) :
    LfwBgSafe { s with readers := s.readers.set i { r with pc := pc } } := by
  refine ⟨h.store, h.stamps, ?_, h.grown, h.short, fun x hx => ?_⟩
  · rcases hnext with ⟨hpc, rfl⟩ | ⟨-, hsame⟩
    · -- the first load takes the published tree
      exact h.rcu.shown_load hr rfl
    · exact h.rcu.shown_stay hr (congrArg (RcuSection.mk r.id) hsame)
  · rcases List.mem_or_eq_of_mem_set hx with hx | rfl
    · exact h.readers x hx
    · exact hgood

theorem leave (h : LfwBgSafe s) (i : ℕ) :
    LfwBgSafe { s with readers := s.readers.eraseIdx i } :=
  ⟨h.store, h.stamps, h.rcu.shown_leave i, h.grown, h.short,
    fun r hr => h.readers r (List.mem_of_mem_eraseIdx hr)⟩

end LfwBgSafe

/-- **Every event keeps the component safe.** -/
theorem LfwBgStepCase.safe (hcase : LfwBgStepCase e s ev s') (h : LfwBgSafe s) (hev : ev.Short) :
    LfwBgSafe s' := by
  cases hcase with
  | start hexta hextc => exact h.start hev.1 hexta hextc
  | insert hb hx hroot hst hg hvals => exact h.insert _ hb hx hroot hst hg
  | inserted _ => exact h
  | swap hb hx => exact h.swap hb
  | early _ => exact h
  | callRcu hi => exact h.callRcu hi
  | callback hi hstamp hgrace hstore hkeep => exact h.callback hi hstamp hgrace hstore hkeep
  | idleRcu _ => exact h
  | idleCallback _ => exact h
  | enter ip => exact h.enter ip
  | load hr hload hgood hnext => exact h.load hr hgood hnext
  | leave => exact h.leave _

theorem lfwBgSysInit_safe (A : Supply) : ∃ s, lfwBgSysInit A.toAllocator = .ok s ∧ LfwBgSafe s ∧
    s.bg.nodes = Mem.empty ∧ s.builds = [] ∧ s.readers = [] := by
  obtain ⟨a, trees, halloc, hext⟩ := Mem.zalloc_supply A (Mem.empty : Mem LfwBgTree) ⟨none⟩
  have hroot : lfwRootAt trees (some a) = none := lfwRootAt_some hext.lookup_self
  refine ⟨⟨⟨Mem.empty, trees, Mem.empty, some a, [], []⟩, [], [], [], 0, []⟩, ?_,
    ⟨⟨?_, fun p hp => ?_, ?_⟩, rfl, ⟨?_, ?_⟩, ?_, ?_, ?_⟩, rfl, rfl, rfl⟩
  · simp only [lfwBgSysInit, lfwInitBgState, halloc]
    rfl
  · simp [LfwBgSys.shared, LfwBgSys.building, hext.allocated]
  · obtain rfl : p = some a := by simpa [LfwBgSys.shared, LfwBgSys.building] using hp
    rw [hroot]
    exact isTrie_none _
  · simp [LfwBgSys.shared, LfwBgSys.building, hroot]
  all_goals simp [LfwBgSys.rcu]

/-- **No run faults**, whatever the order of its events. -/
theorem lfwBgSysRun_safe {evs : List LfwBgEvent} (h : LfwBgSafe s)
    (hshort : ∀ ev ∈ evs, ev.Short) :
    ∃ s', run (lfwBgSysStep e) s evs = .ok s' ∧ LfwBgSafe s' := by
  refine run_invariant (P := fun _ ev => ev.Short) (fun s ev hs hev => ?_) h
    (along_of_forall (P := LfwBgEvent.Short) hshort)
  obtain ⟨s', hrun, hcase⟩ := lfwBgSysStep_cases hs e ev
  exact ⟨s', hrun, hcase.safe hs hev⟩

end Librefw
