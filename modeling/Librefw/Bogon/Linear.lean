import Librefw.Bogon.Readers
import Librefw.Common.Moments

/-!
# Lookups of the bogon list answer as at one moment

What the component is for while everything is in flight: one list of
prefixes that is in force, and the lists of the loads under way
(`LfwBgSpec`). A load puts its whole list into force in one step, at its
swap, and nothing else changes it (`LfwBgMeans.step`).

A lookup loads the tree in one step and answers many steps later, when the
list may have been replaced any number of times. Its answer is still the
one of the list in force at a single moment of its call:
`lfwBgLookup_linearizable`.
-/

namespace Librefw

open PtrTrie

/-! ## The list in force -/

/-- A load under way: the prefixes it has inserted, and those to come. -/
structure LfwBgDraft where
  inserted : List LfwIpPrefix
  prefixes : List LfwIpPrefix
  deriving DecidableEq, Repr

/-- The component without its stores: the prefixes in force, and the loads under way. -/
structure LfwBgSpec where
  current : List LfwIpPrefix
  drafts : List LfwBgDraft
  deriving DecidableEq, Repr

namespace LfwBgSpec

/-- The component after initialisation. -/
def init : LfwBgSpec := ⟨[], []⟩

/-- The next prefix of the `i`-th load. -/
def insert (t : LfwBgSpec) (i : ℕ) : LfwBgSpec :=
  match t.drafts[i]? with
  | none => t
  | some d =>
    match d.prefixes with
    | [] => t
    | x :: rest => { t with drafts := t.drafts.set i ⟨d.inserted ++ [x], rest⟩ }

/-- The `i`-th load, once all its prefixes are inserted, puts them into force. -/
def publish (t : LfwBgSpec) (i : ℕ) : LfwBgSpec :=
  match t.drafts[i]? with
  | none => t
  | some d =>
    match d.prefixes with
    | [] => ⟨d.inserted, t.drafts.eraseIdx i⟩
    | _ :: _ => t

/-- What an event does to the lists. -/
def step (t : LfwBgSpec) : LfwBgEvent → LfwBgSpec
  | .loadStart _ prefixes => { t with drafts := t.drafts ++ [⟨[], prefixes⟩] }
  | .loadPrefix _ i => t.insert i
  | .loadSwap i => t.publish i
  | _ => t

end LfwBgSpec

/-! ## What the store means -/

variable {nodes nodes' : Mem LfwBgNode} {trees trees' : Mem LfwBgTree} {p : Ptr} {a : Addr}
variable {u : PtrTrie Bool} {s s' : LfwBgSys} {t : LfwBgSpec} {ev : LfwBgEvent} {e : Endian}

/-- The addresses in one of the prefixes. -/
def lfwCover (e : Endian) (prefixes : List LfwIpPrefix) (ip : U32) : Bool :=
  decide (∃ x ∈ prefixes, x.Contains e ip)

/-- A prefix added to the end. -/
theorem lfwCover_append (e : Endian) (prefixes : List LfwIpPrefix) (x : LfwIpPrefix) (ip : U32) :
    lfwCover e (prefixes ++ [x]) ip = (lfwCover e prefixes ip || decide (x.Contains e ip)) := by
  rw [Bool.eq_iff_iff]
  simp only [lfwCover, Bool.or_eq_true, decide_eq_true_eq, List.mem_append, List.mem_singleton,
    or_and_right, exists_or, exists_eq_left]

/-- A mark at the key of a prefix covers what the prefix contains. -/
theorem marks_put (e : Endian) {x : LfwIpPrefix} (hx : x.ipPrefixLen.toNat ≤ 32)
    (u : BitTrie Bool) (ip : U32) :
    (BitTrie.put false (fun _ => true) (x.key e) u).marks (ipPath ip 32) =
      (u.marks (ipPath ip 32) || decide (x.Contains e ip)) := by
  have hkey : x.key e <+: ipPath ip 32 ↔ x.Contains e ip := by
    rw [LfwIpPrefix.Contains, ← ipPath_eq_iff_masked hx]
    exact ipPath_prefix_iff hx
  rw [Bool.eq_iff_iff, Bool.or_eq_true, decide_eq_true_eq, BitTrie.marks_iff, BitTrie.marks_iff,
    ← hkey]
  constructor
  · rintro ⟨q, hq, hfind⟩
    rcases BitTrie.find_mark.1 hfind with rfl | hfind
    · exact Or.inr hq
    · exact Or.inl ⟨q, hq, hfind⟩
  · rintro (⟨q, hq, hfind⟩ | hq)
    · exact ⟨q, hq, BitTrie.find_mark.2 (Or.inr hfind)⟩
    · exact ⟨_, hq, BitTrie.find_mark.2 (Or.inl rfl)⟩

open Classical in
/-- The addresses that the tree at a header blocks. -/
noncomputable def lfwBlocks (nodes : Mem LfwBgNode) (trees : Mem LfwBgTree) (p : Ptr) (ip : U32) :
    Bool :=
  if h : IsTrie nodes (lfwRootAt trees p) then (vals h.choose).marks (ipPath ip 32) else false

theorem lfwBlocks_eq (hroot : root u = lfwRootAt trees p) (hs : Stored nodes u) (ip : U32) :
    lfwBlocks nodes trees p ip = (vals u).marks (ipPath ip 32) := by
  have hex : IsTrie nodes (lfwRootAt trees p) := ⟨u, hroot, hs⟩
  obtain ⟨hroot', hs'⟩ := hex.choose_spec
  rw [lfwBlocks, dif_pos hex, Stored.unique hs' hs (hroot'.trans hroot.symm)]

/-- A tree that is kept blocks what it blocked. -/
theorem LfwBgKeeps.blocks (h : LfwBgKeeps nodes trees nodes' trees' p)
    (hst : IsTrie nodes (lfwRootAt trees p)) :
    lfwBlocks nodes' trees' p = lfwBlocks nodes trees p := by
  obtain ⟨u, hroot, hs⟩ := hst
  have hnode := h.node
  rw [hs.footprint_eq hroot] at hnode
  funext ip
  rw [lfwBlocks_eq hroot hs, lfwBlocks_eq (hroot.trans h.root_eq.symm) (hs.congr hnode)]

/-- What a load under way blocks so far, and its prefixes to come. -/
noncomputable def LfwBgSys.draft (s : LfwBgSys) (b : LfwBgBuild) : (U32 → Bool) × List LfwIpPrefix :=
  (lfwBlocks s.bg.nodes s.bg.trees b.tree, b.prefixes)

/-- The component stands for the lists. -/
structure LfwBgMeans (e : Endian) (s : LfwBgSys) (t : LfwBgSpec) : Prop where
  safe : LfwBgSafe s
  current : lfwBlocks s.bg.nodes s.bg.trees s.bg.tree = lfwCover e t.current
  drafts : s.builds.map s.draft = t.drafts.map fun d => (lfwCover e d.inserted, d.prefixes)

namespace LfwBgMeans

/-- **The published tree answers as the list in force.** -/
theorem lookup (h : LfwBgMeans e s t) (ip : U32) :
    ∃ r, lfwLookupBgTree s.bg ip = .ok r ∧ (0 < r ↔ ∃ x ∈ t.current, x.Contains e ip) := by
  obtain ⟨a, r, htree, hr⟩ := h.safe.store.header LfwBgSafe.mem_tree
  obtain ⟨u, hroot, hs⟩ := h.safe.store.stored _ LfwBgSafe.mem_tree
  have hcur := congrFun h.current ip
  rw [lfwBlocks_eq hroot hs] at hcur
  rw [htree, lfwRootAt_some hr] at hroot
  have hhead : s.bg.trees.lookup a = some ⟨root u⟩ := by rw [hr, hroot]
  obtain ⟨res, hrun, hres⟩ := lfwLookupBgTree_spec htree hhead hs ip
  refine ⟨res, hrun, ?_⟩
  rw [hres, hcur, lfwCover, decide_eq_true_eq]

/-- The load and its lists. -/
theorem getElem? (h : LfwBgMeans e s t) (i : ℕ) :
    s.builds[i]?.map s.draft = t.drafts[i]?.map fun d => (lfwCover e d.inserted, d.prefixes) := by
  rw [← List.getElem?_map, h.drafts, List.getElem?_map]

/-- A load that is there is a draft that is there. -/
theorem exists_draft (h : LfwBgMeans e s t) {i : ℕ} {b : LfwBgBuild} (hb : s.builds[i]? = some b) :
    ∃ d, t.drafts[i]? = some d ∧ lfwBlocks s.bg.nodes s.bg.trees b.tree = lfwCover e d.inserted ∧
      b.prefixes = d.prefixes := by
  have hi := h.getElem? i
  rw [hb, Option.map_some] at hi
  obtain ⟨d, hd, heq⟩ := Option.map_eq_some_iff.1 hi.symm
  obtain ⟨hblocks, hprefixes⟩ := Prod.mk.inj heq
  exact ⟨d, hd, hblocks.symm, hprefixes.symm⟩

/-- Without a load there is no draft. -/
theorem draft_none (h : LfwBgMeans e s t) {i : ℕ} (hb : s.builds[i]? = none) :
    t.drafts[i]? = none := by
  have hi := h.getElem? i
  rw [hb, Option.map_none] at hi
  exact Option.map_eq_none_iff.1 hi.symm

/-- An event that keeps every tree of the component, and its loads. -/
theorem of_keeps (h : LfwBgMeans e s t) (hsafe : LfwBgSafe s') (htree : s'.bg.tree = s.bg.tree)
    (hbuilds : s'.builds = s.builds)
    (hkeep : ∀ p, p = s.bg.tree ∨ p ∈ s.building →
      LfwBgKeeps s.bg.nodes s.bg.trees s'.bg.nodes s'.bg.trees p) : LfwBgMeans e s' t := by
  refine ⟨hsafe, ?_, ?_⟩
  · rw [htree, (hkeep _ (Or.inl rfl)).blocks (h.safe.store.stored _ LfwBgSafe.mem_tree), h.current]
  · rw [hbuilds, ← h.drafts]
    refine List.map_congr_left fun b hb => ?_
    have hk := hkeep b.tree (Or.inr (Multiset.mem_coe.2 (List.mem_map_of_mem hb)))
    rw [LfwBgSys.draft, LfwBgSys.draft, hk.blocks (h.safe.store.stored _ (LfwBgSafe.mem_build hb))]

theorem start (h : LfwBgMeans e s t) {trees : Mem LfwBgTree} {nodes : Mem LfwBgNode} {c : Addr}
    {prefixes : List LfwIpPrefix} (hexta : s.bg.trees.Extends a ⟨none⟩ trees)
    (hextc : s.bg.nodes.Extends c (Cell.zero false) nodes)
    (hsafe : LfwBgSafe { s with
      bg := { s.bg with trees := trees.set a ⟨some c⟩, nodes := nodes }
      builds := s.builds ++ [⟨some a, prefixes⟩] }) :
    LfwBgMeans e { s with
      bg := { s.bg with trees := trees.set a ⟨some c⟩, nodes := nodes }
      builds := s.builds ++ [⟨some a, prefixes⟩] }
      { t with drafts := t.drafts ++ [⟨[], prefixes⟩] } := by
  obtain ⟨-, hroot, hblank, hkeep⟩ := h.safe.store.start hexta hextc
  have hempty : lfwBlocks nodes (trees.set a ⟨some c⟩) (some a) = lfwCover e [] := by
    funext ip
    rw [lfwBlocks_eq (u := lfwBlank c) hroot.symm hblank, lfwCover]
    have hnone : ¬ ∃ x ∈ ([] : List LfwIpPrefix), x.Contains e ip := by simp
    have hblank : vals (lfwBlank c) = lfwMarked e c [] := rfl
    rw [decide_eq_false hnone, ← Bool.not_eq_true, hblank, marks_lfwMarked (by simp)]
    exact hnone
  refine ⟨hsafe, ?_, ?_⟩
  · simp only
    rw [(hkeep _ LfwBgSafe.mem_tree).blocks (h.safe.store.stored _ LfwBgSafe.mem_tree), h.current]
  · rw [List.map_append, List.map_append, ← h.drafts]
    congr 1
    · refine List.map_congr_left fun b hb => ?_
      have hk := hkeep b.tree (LfwBgSafe.mem_build hb)
      simp only [LfwBgSys.draft, hk.blocks (h.safe.store.stored _ (LfwBgSafe.mem_build hb))]
    · simp only [List.map_singleton, LfwBgSys.draft, hempty]

theorem insert (h : LfwBgMeans e s t) {i : ℕ} {b : LfwBgBuild} {x : LfwIpPrefix}
    {rest : List LfwIpPrefix} {log : List LfwBgLog} {nodes : Mem LfwBgNode} {u u' : PtrTrie Bool}
    (hb : s.builds[i]? = some b) (hx : b.prefixes = x :: rest)
    (hroot : root u = lfwRootAt s.bg.trees b.tree) (hs : Stored s.bg.nodes u)
    (hg : Grows s.bg.nodes u nodes u')
    (hvals : vals u' = BitTrie.put false (fun _ => true) (x.key e) (vals u))
    (hsafe : LfwBgSafe { s with
      bg := { s.bg with nodes := nodes, log := log }
      builds := s.builds.set i { b with prefixes := rest } }) :
    LfwBgMeans e { s with
      bg := { s.bg with nodes := nodes, log := log }
      builds := s.builds.set i { b with prefixes := rest } } (t.insert i) := by
  have hmem : b ∈ s.builds := List.mem_of_getElem? hb
  obtain ⟨-, hkeep⟩ := h.safe.store.grow (LfwBgSafe.mem_build hmem) hroot hs hg
  obtain ⟨d, hd, hblocks, hprefixes⟩ := h.exists_draft hb
  have hlen := h.safe.short b hmem x (hx ▸ List.mem_cons_self)
  have hnew : lfwBlocks nodes s.bg.trees b.tree = lfwCover e (d.inserted ++ [x]) := by
    funext ip
    have hold := congrFun hblocks ip
    rw [lfwBlocks_eq hroot hs] at hold
    rw [lfwBlocks_eq (hg.root_eq.trans hroot) hg.stored, hvals, marks_put e hlen, hold,
      lfwCover_append]
  have htree : s.bg.tree ≠ b.tree := h.safe.ne_shared hmem (Multiset.mem_cons_self _ _)
  rw [hx] at hprefixes
  have hinsert : t.insert i = { t with drafts := t.drafts.set i ⟨d.inserted ++ [x], rest⟩ } := by
    unfold LfwBgSpec.insert
    simp only [hd, ← hprefixes]
  rw [hinsert]
  refine ⟨hsafe, ?_, ?_⟩
  · simp only
    rw [(hkeep _ LfwBgSafe.mem_tree htree).blocks (h.safe.store.stored _ LfwBgSafe.mem_tree),
      h.current]
  · -- the other loads have other trees
    refine List.ext_getElem? fun j => ?_
    have hj := h.getElem? j
    rw [List.getElem?_map, List.getElem?_map, List.getElem?_set, List.getElem?_set]
    by_cases hij : i = j
    · subst hij
      simp only [if_true, (List.getElem?_eq_some_iff.1 hb).1, (List.getElem?_eq_some_iff.1 hd).1,
        Option.map_some, LfwBgSys.draft, hnew]
    · simp only [if_neg hij]
      cases hy : s.builds[j]? with
      | none =>
        rw [h.draft_none hy]
        rfl
      | some y =>
        rw [hy] at hj
        have hymem : y ∈ s.builds := List.mem_of_getElem? hy
        have hne : y.tree ≠ b.tree := h.safe.build_inj hy hb (Ne.symm hij)
        have hk := hkeep y.tree (LfwBgSafe.mem_build hymem) hne
        rw [← hj]
        simp only [Option.map_some, LfwBgSys.draft,
          hk.blocks (h.safe.store.stored _ (LfwBgSafe.mem_build hymem))]

theorem swap (h : LfwBgMeans e s t) {i : ℕ} {b : LfwBgBuild} (hb : s.builds[i]? = some b)
    (hx : b.prefixes = [])
    (hsafe : LfwBgSafe { s with
      bg := { s.bg with tree := b.tree }
      builds := s.builds.eraseIdx i
      swapped := s.swapped ++ [s.bg.tree] }) :
    LfwBgMeans e { s with
      bg := { s.bg with tree := b.tree }
      builds := s.builds.eraseIdx i
      swapped := s.swapped ++ [s.bg.tree] } (t.publish i) := by
  obtain ⟨d, hd, hblocks, hprefixes⟩ := h.exists_draft hb
  rw [hx] at hprefixes
  have hpublish : t.publish i = ⟨d.inserted, t.drafts.eraseIdx i⟩ := by
    unfold LfwBgSpec.publish
    simp only [hd, ← hprefixes]
  rw [hpublish]
  refine ⟨hsafe, hblocks, ?_⟩
  have hrest : (s.builds.eraseIdx i).map s.draft =
      (t.drafts.eraseIdx i).map fun d => (lfwCover e d.inserted, d.prefixes) := by
    rw [← List.eraseIdx_map, ← List.eraseIdx_map, h.drafts]
  exact hrest

/-- **Every event is a step of the lists**, whatever loads, grace periods and
lookups it falls between. -/
theorem step (h : LfwBgMeans e s t) (hev : ev.Short) :
    ∃ s', lfwBgSysStep e s ev = .ok s' ∧ LfwBgStepCase e s ev s' ∧ LfwBgMeans e s' (t.step ev) := by
  obtain ⟨s', hrun, hcase⟩ := lfwBgSysStep_cases h.safe e ev
  have hsafe := hcase.safe h.safe hev
  refine ⟨s', hrun, hcase, ?_⟩
  cases hcase with
  | start hexta hextc => exact h.start hexta hextc hsafe
  | insert hb hx hroot hst hg hvals => exact h.insert hb hx hroot hst hg hvals hsafe
  | @inserted A i hdone =>
    have hsame : t.insert i = t := by
      unfold LfwBgSpec.insert
      cases hb : s.builds[i]? with
      | none => simp only [h.draft_none hb]
      | some b =>
        obtain ⟨d, hd, -, hprefixes⟩ := h.exists_draft hb
        simp only [hd, ← hprefixes, hdone b hb]
    show LfwBgMeans e s (t.insert i)
    rw [hsame]
    exact h
  | swap hb hx => exact h.swap hb hx hsafe
  | @early i hmore =>
    have hsame : t.publish i = t := by
      unfold LfwBgSpec.publish
      cases hb : s.builds[i]? with
      | none => simp only [h.draft_none hb]
      | some b =>
        obtain ⟨d, hd, -, hprefixes⟩ := h.exists_draft hb
        obtain ⟨x, rest, hx⟩ := List.exists_cons_of_ne_nil (hmore b hb)
        simp only [hd, ← hprefixes, hx]
    show LfwBgMeans e s (t.publish i)
    rw [hsame]
    exact h
  | callRcu hi => exact h.of_keeps hsafe rfl rfl fun p _ => .refl p
  | callback hi hstamp hgrace hstore hkeep =>
    refine h.of_keeps hsafe rfl rfl fun p hp => hkeep p ?_
    -- the tree freed is neither published nor under construction
    rw [LfwBgSafe.erase_queued hi]
    rcases hp with rfl | hp
    · exact Multiset.mem_add.2 (Or.inl (Multiset.mem_cons_self _ _))
    · exact Multiset.mem_add.2 (Or.inr hp)
  | idleRcu i => exact h
  | idleCallback i => exact h
  | enter ip => exact ⟨hsafe, h.current, h.drafts⟩
  | load hr hload hgood hnext => exact ⟨hsafe, h.current, h.drafts⟩
  | leave => exact ⟨hsafe, h.current, h.drafts⟩

end LfwBgMeans

/-- The component starts with no list in force. -/
theorem lfwBgSysInit_means (e : Endian) (A : Supply) :
    ∃ s, lfwBgSysInit A.toAllocator = .ok s ∧ LfwBgMeans e s LfwBgSpec.init ∧ s.readers = [] := by
  obtain ⟨s, hinit, hsafe, hnodes, hbuilds, hreaders⟩ := lfwBgSysInit_safe A
  refine ⟨s, hinit, ⟨hsafe, ?_, ?_⟩, hreaders⟩
  · obtain ⟨u, hroot, hs⟩ := hsafe.store.stored _ LfwBgSafe.mem_tree
    have hnil : u = .nil := by
      cases u with
      | nil => rfl
      | node x kids =>
        have hlookup := hs.1
        rw [hnodes] at hlookup
        cases hlookup
    funext ip
    rw [lfwBlocks_eq hroot hs, hnil]
    simp [lfwCover, LfwBgSpec.init, BitTrie.marks]
  · rw [hbuilds]
    rfl

/-- Every run is a run of the lists. -/
theorem lfwBgSysRun_means {evs : List LfwBgEvent} (h : LfwBgMeans e s t)
    (hshort : ∀ ev ∈ evs, ev.Short) :
    ∃ s', run (lfwBgSysStep e) s evs = .ok s' ∧ LfwBgMeans e s' (evs.foldl LfwBgSpec.step t) := by
  refine run_simulation (P := LfwBgEvent.Short) (fun s t ev hs hev => ?_) h hshort
  obtain ⟨s', hrun, -, hs'⟩ := hs.step hev
  exact ⟨s', hrun, hs'⟩

/-! ## Lookups -/

/-- A call of a lookup under way in a state that stands for `t`. -/
structure LfwBgCalling (e : Endian) (n : ℕ) (ip : U32) (s : LfwBgSys) (t : LfwBgSpec) : Prop where
  means : LfwBgMeans e s t
  begun : n < s.clock
  own : ∀ r ∈ s.readers, r.id = n → r.ip = ip

/-- What the call with a number has loaded. -/
def LfwBgSys.Seen (n : ℕ) (s : LfwBgSys) (xs : List LfwBgState) : Prop :=
  ∃ r ∈ s.readers, r.id = n ∧ r.pc.seen?.toList = xs

/-- A state that answers as the list in force. -/
def LfwBgState.Answers (e : Endian) (x : LfwBgState) (t : LfwBgSpec) : Prop :=
  ∀ ip, ∃ r, lfwLookupBgTree x ip = .ok r ∧ (0 < r ↔ ∃ x ∈ t.current, x.Contains e ip)

/-- The lookups after an event: old ones, the one that went on, and the one that
began. -/
theorem LfwBgStepCase.readers (hcase : LfwBgStepCase e s ev s') {r : LfwBgReader}
    (hr : r ∈ s'.readers) :
    r ∈ s.readers ∨
    (∃ r₀ ∈ s.readers, ∃ pc, r₀.pc.Next s.bg pc ∧ r = { r₀ with pc := pc }) ∨
    ∃ ip, r = ⟨s.clock, ip, .entered⟩ := by
  cases hcase with
  | enter ip =>
    rcases List.mem_append.1 hr with hr | hr
    · exact Or.inl hr
    · exact Or.inr (Or.inr ⟨ip, List.mem_singleton.1 hr⟩)
  | load hr₀ hload hgood hnext =>
    rcases List.mem_or_eq_of_mem_set hr with hr | rfl
    · exact Or.inl hr
    · exact Or.inr (Or.inl ⟨_, List.mem_of_getElem? hr₀, _, hnext, rfl⟩)
  | leave => exact Or.inl (List.mem_of_mem_eraseIdx hr)
  | _ => exact Or.inl hr

theorem LfwBgStepCase.clock_le (hcase : LfwBgStepCase e s ev s') : s.clock ≤ s'.clock := by
  cases hcase with
  | enter ip => exact Nat.le_succ s.clock
  | _ => exact le_refl _

/-- A call goes on through any event, and loads no more than the state the event met. -/
theorem LfwBgCalling.step {n : ℕ} {ip : U32} (h : LfwBgCalling e n ip s t) (hev : ev.Short) :
    ∃ s', lfwBgSysStep e s ev = .ok s' ∧ LfwBgCalling e n ip s' (t.step ev) ∧
      ∀ xs, s'.Seen n xs → s.Seen n xs ∨
        ∃ xs₀ x, xs = xs₀ ++ [x] ∧ s.Seen n xs₀ ∧ x.Answers e t := by
  obtain ⟨s', hrun, hcase, hmeans⟩ := h.means.step hev
  refine ⟨s', hrun, ⟨hmeans, lt_of_lt_of_le h.begun hcase.clock_le, fun r hr hid => ?_⟩, ?_⟩
  · rcases hcase.readers hr with hr | ⟨r₀, hr₀, pc, -, rfl⟩ | ⟨ip', rfl⟩
    · exact h.own r hr hid
    · exact h.own r₀ hr₀ hid
    · exact absurd hid (ne_of_gt h.begun)
  · rintro xs ⟨r, hr, hid, rfl⟩
    rcases hcase.readers hr with hr | ⟨r₀, hr₀, pc, hnext, rfl⟩ | ⟨ip', rfl⟩
    · exact Or.inl ⟨r, hr, hid, rfl⟩
    · rcases hnext with ⟨hnone, rfl⟩ | ⟨hsame, -⟩
      · exact Or.inr ⟨[], s.bg, rfl, ⟨r₀, hr₀, hid, by rw [hnone]; rfl⟩, h.means.lookup⟩
      · exact Or.inl ⟨r₀, hr₀, hid, by rw [hsame]⟩
    · exact absurd hid (ne_of_gt h.begun)

/-- **Lookups are linearizable.** In every run without overlong prefixes,
whatever happens between the first step of a lookup and its last, it finds the
address blocked exactly if the list in force at some moment in between has a
prefix that contains it; a load counts from its swap on, as a whole. -/
theorem lfwBgLookup_linearizable (e : Endian) (A : Supply) (pre mid : List LfwBgEvent) (ip : U32)
    (hpre : ∀ ev ∈ pre, ev.Short) (hmid : ∀ ev ∈ mid, ev.Short) :
    ∃ s₀ s₁ s₂, lfwBgSysInit A.toAllocator = .ok s₀ ∧ run (lfwBgSysStep e) s₀ pre = .ok s₁ ∧
      run (lfwBgSysStep e) s₁ (.readerEnter ip :: mid) = .ok s₂ ∧
      (∀ ip', ∃ r, lfwLookupBgTree s₁.bg ip' = .ok r ∧
        (0 < r ↔ ∃ x ∈ (pre.foldl LfwBgSpec.step LfwBgSpec.init).current, x.Contains e ip')) ∧
      ∀ r ∈ s₂.readers, r.id = s₁.clock → ∀ seen result, r.pc = .done seen result →
        ∃ t ∈ met LfwBgSpec.step (pre.foldl LfwBgSpec.step LfwBgSpec.init) mid,
          (0 < result ↔ ∃ x ∈ t.current, x.Contains e ip) := by
  obtain ⟨s₀, hinit, hmeans₀, -⟩ := lfwBgSysInit_means e A
  obtain ⟨s₁, hrun₁, hmeans₁⟩ := lfwBgSysRun_means hmeans₀ hpre
  -- the call begins: its number is new, so it is the only one with it
  have hold : ∀ r ∈ s₁.readers, r.id < s₁.clock := fun r hr =>
    hmeans₁.safe.rcu.begun ⟨r.id, r.pc.tree?⟩ (List.mem_map.2 ⟨r, hr, rfl⟩)
  have hnew : ∀ r ∈ (lfwBgReaderEnter ip s₁).readers, r.id = s₁.clock →
      r = ⟨s₁.clock, ip, .entered⟩ := by
    intro r hr hid
    rcases List.mem_append.1 hr with hr | hr
    · exact absurd hid (ne_of_lt (hold r hr))
    · exact List.mem_singleton.1 hr
  have hcall : LfwBgCalling e s₁.clock ip (lfwBgReaderEnter ip s₁)
      (pre.foldl LfwBgSpec.step LfwBgSpec.init) := by
    refine ⟨⟨hmeans₁.safe.enter ip, hmeans₁.current, hmeans₁.drafts⟩, Nat.lt_succ_self _,
      fun r hr hid => ?_⟩
    rw [hnew r hr hid]
  have hstep := fun s t ev (h : LfwBgCalling e s₁.clock ip s t) (hev : LfwBgEvent.Short ev) =>
    h.step hev
  obtain ⟨s₂, hrun₂, hcall₂, hseen⟩ := run_observes hstep hcall hmid
  refine ⟨s₀, s₁, s₂, hinit, hrun₁, ?_, hmeans₁.lookup, fun r hr hid seen result hpc => ?_⟩
  · rw [run_cons]
    exact hrun₂
  · obtain ⟨xs₀, ys, hsplit, ⟨r₀, hr₀, hid₀, rfl⟩, hmet⟩ :=
      hseen [seen] ⟨r, hr, hid, by rw [hpc]; rfl⟩
    rw [hnew r₀ hr₀ hid₀] at hsplit
    obtain rfl : [seen] = ys := hsplit
    obtain ⟨t, ht, hans⟩ := sublistForall₂_singleton hmet
    have hgood := hcall₂.means.safe.readers r hr
    rw [hpc, hcall₂.own r hr hid] at hgood
    obtain ⟨res, hres, hiff⟩ := hans ip
    obtain rfl := Except.ok.inj (hres.symm.trans hgood)
    exact ⟨t, ht, hiff⟩

/-- The list `10.0.0.0/8`, put into force between the first step of a lookup and
its second. -/
theorem lfwBgLookup_linearizable_sample :
    ∃ s₀ s₁ s₂, lfwBgSysInit Supply.next.toAllocator = .ok s₀ ∧
      run (lfwBgSysStep .little) s₀
        [.loadStart .next [⟨0x0000000A#32, 8⟩], .loadPrefix .next 0] = .ok s₁ ∧
      run (lfwBgSysStep .little) s₁ (.readerEnter 0x0A000001#32 ::
        [.readerStep 0, .loadSwap 0, .callRcu 0, .callback 0, .readerStep 0]) = .ok s₂ ∧
      ∀ r ∈ s₂.readers, r.id = s₁.clock → ∀ seen result, r.pc = .done seen result →
        ∃ prefixes ∈ [[], [⟨0x0000000A#32, 8⟩]],
          (0 < result ↔ ∃ x ∈ prefixes, LfwIpPrefix.Contains .little x 0x0A000001#32) := by
  obtain ⟨s₀, s₁, s₂, hinit, hrun₁, hrun₂, -, hanswer⟩ := lfwBgLookup_linearizable .little .next
    [.loadStart .next [⟨0x0000000A#32, 8⟩], .loadPrefix .next 0]
    [.readerStep 0, .loadSwap 0, .callRcu 0, .callback 0, .readerStep 0] 0x0A000001#32
    (by simp [LfwBgEvent.Short]) (by simp [LfwBgEvent.Short])
  refine ⟨s₀, s₁, s₂, hinit, hrun₁, hrun₂, fun r hr hid seen result hpc => ?_⟩
  obtain ⟨t, ht, hiff⟩ := hanswer r hr hid seen result hpc
  refine ⟨t.current, ?_, hiff⟩
  simp only [met, List.foldl_cons, List.foldl_nil, List.mem_cons, List.not_mem_nil, or_false] at ht
  rcases ht with rfl | rfl | rfl | rfl | rfl <;> decide +kernel

/-! ## What is allocated -/

/-- **Reclamation is exact.** In every state a run without overlong prefixes
reaches, the headers allocated are the published one, those replaced and not
yet queued, those queued and those of loads, each once, and the nodes allocated
are those of their trees, each once; what a lookup holds is among the ones
that may be read, so it is not freed under it; and when no load is under way
and nothing waits, the published tree is all that is left. That the run does
not fault says that nothing was freed twice. -/
theorem lfwBgTrees_reclaimed (e : Endian) (A : Supply) (evs : List LfwBgEvent)
    (hshort : ∀ ev ∈ evs, ev.Short) :
    ∃ s₀ s, lfwBgSysInit A.toAllocator = .ok s₀ ∧ run (lfwBgSysStep e) s₀ evs = .ok s ∧
      s.bg.trees.allocated.map some = s.shared + s.building ∧ (s.shared + s.building).Nodup ∧
      (∀ p ∈ s.shared + s.building, IsTrie s.bg.nodes (lfwRootAt s.bg.trees p)) ∧
      s.bg.nodes.allocated = (s.shared + s.building).bind
        (fun p => footprint s.bg.nodes (lfwRootAt s.bg.trees p)) ∧ s.bg.nodes.allocated.Nodup ∧
      (∀ r ∈ s.readers, ∀ p, r.pc.tree? = some p → p ∈ s.shared) ∧
      (s.builds = [] → s.swapped = [] → s.bg.rcu = [] →
        s.bg.trees.allocated.map some = {s.bg.tree} ∧
          s.bg.nodes.allocated = footprint s.bg.nodes (lfwRootAt s.bg.trees s.bg.tree)) := by
  obtain ⟨s₀, hinit, hsafe₀, -⟩ := lfwBgSysInit_safe A
  obtain ⟨s, hrun, hsafe⟩ := lfwBgSysRun_safe (e := e) hsafe₀ hshort
  refine ⟨s₀, s, hinit, hrun, hsafe.store.trees_eq.symm, hsafe.store.nodup, hsafe.store.stored,
    hsafe.store.nodes_eq, s.bg.nodes.nodup_allocated, fun r hr p hp => hsafe.mem_shared hr hp,
    fun hbuilds hswapped hrcu => ?_⟩
  have hone : s.shared + s.building = {s.bg.tree} := by
    rw [LfwBgSys.shared, LfwBgSys.building, hbuilds, hswapped, hrcu]
    rfl
  refine ⟨by rw [← hsafe.store.trees_eq, hone], ?_⟩
  rw [hsafe.store.nodes_eq, hone, Multiset.singleton_bind]

/-- A load around a lookup that holds the first tree. -/
theorem lfwBgTrees_reclaimed_sample :
    ∃ s₀ s, lfwBgSysInit Supply.next.toAllocator = .ok s₀ ∧
      run (lfwBgSysStep .little) s₀ [.readerEnter 0x0A000001#32, .readerStep 0,
        .loadStart .next [⟨0x0000000A#32, 8⟩], .loadPrefix .next 0, .loadSwap 0, .callRcu 0,
        .callback 0] = .ok s ∧
      s.bg.trees.allocated.map some = s.shared + s.building ∧ (s.shared + s.building).Nodup := by
  obtain ⟨s₀, s, hinit, hrun, htrees, hnd, -⟩ := lfwBgTrees_reclaimed .little .next
    [.readerEnter 0x0A000001#32, .readerStep 0, .loadStart .next [⟨0x0000000A#32, 8⟩],
      .loadPrefix .next 0, .loadSwap 0, .callRcu 0, .callback 0] (by simp [LfwBgEvent.Short])
  exact ⟨s₀, s, hinit, hrun, htrees, hnd⟩

/-! ## A load that nobody interrupts -/

/-- The loop of the last load, turn by turn, is the loop of the function. -/
theorem lfwInsertPrefixes_run {A : Supply} {prefixes rest : List LfwIpPrefix} {i : ℕ} {r : Ptr}
    {l : List LfwBgBuild} {log log' : List LfwBgLog}
    (htree : s.bg.trees.load p = .ok ⟨r⟩) (hrest : prefixes.drop i = rest)
    (hrun : lfwInsertPrefixes e A.toAllocator r prefixes rest.length i log nodes =
      .ok (log', nodes')) :
    run (lfwBgSysStep e) { s with
        bg := { s.bg with nodes := nodes, log := log }, builds := l ++ [⟨p, rest⟩] }
      (List.replicate rest.length (.loadPrefix A l.length)) =
      .ok { s with
        bg := { s.bg with nodes := nodes', log := log' }, builds := l ++ [⟨p, []⟩] } := by
  induction rest generalizing i log nodes with
  | nil =>
    obtain ⟨rfl, rfl⟩ := Prod.mk.inj (Except.ok.inj hrun)
    rfl
  | cons x rest ih =>
    obtain ⟨-, hi, line, m₁, hone, hrun'⟩ := lfwInsertPrefixes_cases hrun
    have hsplit := List.drop_eq_getElem_cons hi
    rw [hrest] at hsplit
    obtain ⟨rfl, hdrop⟩ := List.cons.inj hsplit
    have hget : (l ++ [(⟨p, prefixes[i] :: rest⟩ : LfwBgBuild)])[l.length]? =
        some ⟨p, prefixes[i] :: rest⟩ := by simp
    have hset : (l ++ [(⟨p, prefixes[i] :: rest⟩ : LfwBgBuild)]).set l.length ⟨p, rest⟩ =
        l ++ [⟨p, rest⟩] := by simp
    rw [List.length_cons, List.replicate_succ, run_cons]
    simp only [lfwBgSysStep, lfwLoadPrefix, hget, htree, hone, hset, ok_bind, pure_eq_ok]
    exact ih hdrop.symm hrun'

/-- **`lfw_load_bg_tree` is a run**: its steps, taken without any other in
between, lead where the function leads. -/
theorem lfwLoadBgTree_run (e : Endian) (A : Supply) (s : LfwBgSys) {prefixes : List LfwIpPrefix}
    (hlen : ∀ x ∈ prefixes, x.ipPrefixLen.toNat ≤ 32) (hmax : prefixes.length ≤ 2 ^ 31) :
    ∃ bg, lfwLoadBgTree e A.toAllocator prefixes prefixes.length s.bg = .ok bg ∧
      run (lfwBgSysStep e) s (.loadStart A prefixes ::
        (List.replicate prefixes.length (.loadPrefix A s.builds.length) ++
          [.loadSwap s.builds.length, .callRcu s.swapped.length])) =
        .ok { s with bg := bg, stamps := s.stamps ++ [s.clock] } := by
  obtain ⟨bg, a', t', hload, -⟩ := lfwLoadBgTree_spec e A s.bg hlen hmax
  refine ⟨bg, hload, ?_⟩
  obtain ⟨a, trees, htree, hexta⟩ := Mem.zalloc_supply A s.bg.trees ⟨none⟩
  obtain ⟨c, nodes, hnode, hextc⟩ := Mem.zalloc_supply A s.bg.nodes (Cell.zero false)
  simp only [lfwLoadBgTree, htree, lfwCreateNode, hnode, Mem.store_of_mem hexta.mem_self,
    ok_bind] at hload
  obtain ⟨⟨log, nodes'⟩, hloop, hload⟩ := bind_eq_ok.1 hload
  obtain rfl := Except.ok.inj hload
  have hstart : lfwBgSysStep e s (.loadStart A prefixes) = .ok { s with
      bg := { s.bg with trees := trees.set a ⟨some c⟩, nodes := nodes }
      builds := s.builds ++ [⟨some a, prefixes⟩] } := by
    simp only [lfwBgSysStep, lfwLoadStart, htree, lfwCreateNode, hnode,
      Mem.store_of_mem hexta.mem_self, ok_bind, pure_eq_ok]
  have hhead : (trees.set a ⟨some c⟩).load (some a) = .ok ⟨some c⟩ :=
    Mem.load_of_lookup (Mem.lookup_set_self trees a _)
  have hrun := lfwInsertPrefixes_run (s := { s with bg := { s.bg with trees := trees.set a ⟨some c⟩ } })
    (l := s.builds) (p := some a) hhead (List.drop_zero ..) hloop
  rw [run_cons, hstart, ok_bind, run_append]
  simp only at hrun
  rw [hrun, ok_bind, run_cons]
  simp [lfwBgSysStep, lfwLoadSwap, run, lfwLoadCallRcu, List.eraseIdx_append_of_length_le]

end Librefw
