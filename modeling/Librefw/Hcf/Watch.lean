import Librefw.Hcf.Model.Watch
import Librefw.Hcf.Readers

/-!
# What the watch says

`HcfWatch.Sound` ties the watch to the component: its lists are the
component's, and a leaf that is not freed is intact and held by who the
watch says holds it (`HcfWatch.Holds`): the published tree, a replaced
tree, or the work that copied it, as its last node. What an event does not
free it leaves alone (`HcfStepCase.lookup_eq`), so a leaf stays where it is
under any event that does not move it (`HcfWatch.Leaf.kept`).
-/

namespace Librefw

open PtrTrie

/-! ## What holds between two events -/

variable {s s' : HcfSys} {ev : HcfEvent} {g : HcfWatch} {x y : HcfWatched} {a : Addr} {id : ℕ}

/-- A node as a work has written it, in no tree under construction. -/
def HcfSys.Intact (s : HcfSys) (task : HcfAddNodeTask) (a : Addr) : Prop :=
  ∃ n, s.mem.lookup a = some n ∧ n.data = hcfMetaOf task.ttl ∧ a ∉ s.building

/-- The node is the last one of the work `id`, which has yet to hand it to `call_rcu` or whose
callback waits. -/
structure HcfCopied (works : List HcfWatched) (rcu : List HcfWatchedCallback) (id : ℕ) (a : Addr) :
    Prop where
  node_eq : ∀ y ∈ works, y.id = id → ∀ b, y.work.nodes_to_free.getLast? = some b → b = a
  callback_eq : ∀ c ∈ rcu, c.id = id → c.last = true → c.callback.node = a
  held : (∃ y ∈ works, y.id = id ∧ y.work.nodes_to_free.getLast? = some a) ∨
    ∃ c ∈ rcu, c.id = id ∧ c.last = true

namespace HcfWatch

/-- Who holds the node of a leaf. -/
def Holds (g : HcfWatch) (source_ip : U32) (a : Addr) : HcfLeaf → Prop
  | .published => ∃ t, root t = g.sys.tree ∧ Stored g.sys.mem t ∧
      root (t.descend (ipPath source_ip 24)) = some a
  | .copied id => id < g.now ∧ HcfCopied g.works g.rcu id a
  | .replaced id => id < g.now ∧ (∃ o ∈ g.syncs, o.id = id) ∧
      ∀ o ∈ g.syncs, o.id = id → a ∈ footprint g.sys.mem o.sync.old_root
  | .freed => False

/-- The leaf of a work: freed and gone, or intact and held. -/
def Leaf (g : HcfWatch) (x : HcfWatched) : Prop :=
  ∃ a, x.work.pub.new_runner = some a ∧
    ((x.leaf = .freed ∧ x.gone = true) ∨
      (x.gone = false ∧ g.sys.Intact x.work.task a ∧ g.Holds x.work.task.source_ip a x.leaf))

/-- **The watch sees what happens.** -/
structure Sound (g : HcfWatch) : Prop where
  safe : HcfSafe g.sys
  works : g.works.map HcfWatched.work = g.sys.works
  rcu : g.rcu.map HcfWatchedCallback.callback = g.sys.rcu
  syncs : g.syncs.map HcfWatchedSync.sync = g.sys.syncs
  log : g.log.map HcfAnnounced.logged = g.sys.log
  works_id : ∀ x ∈ g.works, x.id < g.now
  rcu_id : ∀ c ∈ g.rcu, c.id < g.now
  syncs_id : ∀ o ∈ g.syncs, o.id < g.now
  announces : ∀ x ∈ g.works, x.announces = true ↔ 0 < x.work.pub.nodes_created
  leaves : ∀ x ∈ g.works, x.announces = true → g.Leaf x

end HcfWatch

/-! ## Accounts -/

theorem HcfLedger.live_apart (h : HcfLedger s) (ha : a ∈ s.live) :
    a ∉ s.building ∧ a ∉ s.replaced ∧ a ∉ s.retained ∧ a ∉ s.queued := by
  have hone := h.count_le_one a
  have hpos := Multiset.count_pos.2 ha
  simp only [← Multiset.count_eq_zero]
  omega

theorem HcfLedger.queued_apart (h : HcfLedger s) (ha : a ∈ s.queued) :
    a ∉ s.live ∧ a ∉ s.replaced ∧ a ∉ s.retained := by
  have hone := h.count_le_one a
  have hpos := Multiset.count_pos.2 ha
  simp only [← Multiset.count_eq_zero]
  omega

theorem HcfLedger.replaced_apart (h : HcfLedger s) (ha : a ∈ s.replaced) :
    a ∉ s.live ∧ a ∉ s.building ∧ a ∉ s.retained ∧ a ∉ s.queued := by
  have hone := h.count_le_one a
  have hpos := Multiset.count_pos.2 ha
  simp only [← Multiset.count_eq_zero]
  omega

/-- What an event frees is queued or replaced. -/
theorem HcfSys.Frees.held (h : s.Frees ev a) (hled : HcfLedger s) :
    a ∈ s.queued ∨ a ∈ s.replaced := by
  cases ev with
  | callback i =>
    obtain ⟨c, hc, -, rfl⟩ := h
    exact Or.inl (HcfLedger.mem_queued (List.mem_of_getElem? hc))
  | syncDone i =>
    obtain ⟨o, ho, -, hreach⟩ := h
    have hmem := List.mem_of_getElem? ho
    exact Or.inr (HcfLedger.mem_replaced hmem ((hled.syncs o hmem).mem_footprint.2 hreach))
  | _ => exact h.elim

/-- What a callback frees once its grace period is over. -/
theorem HcfSys.frees_callback {i : ℕ} {c : HcfCallback} (hc : s.rcu[i]? = some c)
    (hgrace : s.graceOver c.stamp) : s.Frees (.callback i) a ↔ c.node = a := by
  constructor
  · rintro ⟨c', hc', -, hnode⟩
    obtain rfl := Option.some.inj (hc'.symm.trans hc)
    exact hnode
  · intro hnode
    exact ⟨c, hc, hgrace, hnode⟩

/-- And what the end of a swap's grace period frees. -/
theorem HcfLedger.frees_syncDone {i : ℕ} {o : HcfSync} (h : HcfLedger s)
    (ho : s.syncs[i]? = some o) (hgrace : s.graceOver o.stamp) :
    s.Frees (.syncDone i) a ↔ a ∈ footprint s.mem o.old_root := by
  rw [(h.syncs o (List.mem_of_getElem? ho)).mem_footprint]
  constructor
  · rintro ⟨o', ho', -, hreach⟩
    obtain rfl := Option.some.inj (ho'.symm.trans ho)
    exact hreach
  · intro hreach
    exact ⟨o, ho, hgrace, hreach⟩

/-! ## What an event leaves alone -/

/-- A node outside the trees under construction that an event does not free is there after it. -/
theorem HcfStepCase.mem_of_not_frees (hcase : HcfStepCase s ev s') (h : HcfLedger s)
    (ha : a ∈ s.mem) (hnot : a ∉ s.building) (hfree : ¬ s.Frees ev a) : a ∈ s'.mem := by
  obtain ⟨n, hn⟩ := Mem.mem_iff_lookup.1 ha
  cases hcase with
  | idle _ hidle => exact ha
  | register hroot hs hreg => exact Mem.mem_of_lookup ((hreg.lookup_eq a ha).trans hn)
  | announce hw hlog => exact ha
  | retire hw hlog hnodes => exact ha
  | finish hw hlog hnodes => exact ha
  | callback hc hgrace =>
    exact Mem.mem_erase.2 ⟨fun heq => hfree ((HcfSys.frees_callback hc hgrace).2 heq.symm), ha⟩
  | historyStart hext => exact hext.mem_of_mem ha
  | historyEntry hb hx hroot hs hg =>
    -- an insertion writes the tree under construction alone
    refine Mem.mem_of_lookup ((hg.lookup_eq a ha fun hin => hnot ?_).trans hn)
    refine HcfLedger.mem_building (List.mem_of_getElem? hb) ?_
    rw [hs.footprint_eq hroot]
    exact hin
  | historySwap hb hx =>
    obtain ⟨-, -, -, hmem, -⟩ := hcfSwap_readers _ { s with builds := _ }
    rw [hmem]
    exact ha
  | swapNull =>
    obtain ⟨-, -, -, hmem, -⟩ := hcfSwap_readers none s
    rw [hmem]
    exact ha
  | syncDone ho hgrace hacc hkeep =>
    refine Mem.mem_of_lookup ((hkeep a fun hin => hfree ?_).trans hn)
    exact (h.frees_syncDone ho hgrace).2 hin
  | reader _ hev readers clock answers => exact ha

/-- And as it was. -/
theorem HcfStepCase.lookup_eq (hcase : HcfStepCase s ev s') (h : HcfLedger s) (ha : a ∈ s.mem)
    (hnot : a ∉ s.building) (hfree : ¬ s.Frees ev a) :
    s'.mem.lookup a = s.mem.lookup a ∧ a ∉ s'.building :=
  hcase.published h ha hnot (hcase.mem_of_not_frees h ha hnot hfree)

/-- What an event frees is gone after it. -/
theorem HcfStepCase.gone (hcase : HcfStepCase s ev s') (h : HcfLedger s) (hfree : s.Frees ev a) :
    a ∉ s'.mem := by
  cases hcase with
  | callback hc hgrace =>
    obtain rfl := (HcfSys.frees_callback hc hgrace).1 hfree
    exact fun hin => (Mem.mem_erase.1 hin).1 rfl
  | @syncDone i o m' ho hgrace hacc hkeep =>
    intro hmem
    have h1 := Multiset.count_pos.2 ((h.frees_syncDone ho hgrace).1 hfree)
    have h2 := congrArg (Multiset.count a) hacc
    have h3 := Multiset.nodup_iff_count_le_one.1 s.mem.nodup_allocated a
    have h4 : 0 < m'.allocated.count a := Multiset.count_pos.2 (Mem.mem_allocated.2 hmem)
    simp only [Multiset.count_add] at h2
    omega
  | idle _ hidle => exact absurd hfree (hidle a)
  | reader _ hev readers clock answers => cases ev <;> first | exact hfree.elim | exact hev.elim
  | _ => exact hfree.elim

theorem HcfStepCase.intact {task : HcfAddNodeTask} (hcase : HcfStepCase s ev s')
    (h : HcfLedger s) (hi : s.Intact task a) (hfree : ¬ s.Frees ev a) : s'.Intact task a := by
  obtain ⟨n, hn, hdata, hnot⟩ := hi
  obtain ⟨hsame, hnot'⟩ := hcase.lookup_eq h (Mem.mem_of_lookup hn) hnot hfree
  exact ⟨n, hsame.trans hn, hdata, hnot'⟩

/-- The published tree is stored after any event. -/
theorem HcfStepCase.stored {t : PtrTrie HcfMeta} (hcase : HcfStepCase s ev s') (h : HcfLedger s)
    (hroot : root t = s.tree) (hs : Stored s.mem t) : Stored s'.mem t := by
  refine hs.congr fun c hc => ?_
  have hlive : c ∈ s.live := by
    rw [HcfSys.live, hs.footprint_eq hroot]
    exact hc
  obtain ⟨hbuilding, hreplaced, -, hqueued⟩ := h.live_apart hlive
  exact (hcase.lookup_eq h (h.mem_of_live hlive) hbuilding
    fun hfree => (hfree.held h).elim hqueued hreplaced).1

/-- So is a replaced tree that the event does not free. -/
theorem HcfStepCase.footprint_eq {o : HcfSync} (hcase : HcfStepCase s ev s') (h : HcfLedger s)
    (ho : o ∈ s.syncs) (hfree : ∀ c ∈ footprint s.mem o.old_root, ¬ s.Frees ev c) :
    footprint s'.mem o.old_root = footprint s.mem o.old_root := by
  refine ((h.syncs o ho).frame fun c hc => ?_).2
  have hrep := HcfLedger.mem_replaced ho hc
  exact (hcase.lookup_eq h (h.mem_of_replaced hrep) (h.replaced_apart hrep).2.1 (hfree c hc)).1

/-! ## Leaves -/

namespace HcfWatched

/-- What an event sees of a work says only where its leaf is. -/
structure Moves (f : HcfWatched → HcfWatched) : Prop where
  id : ∀ y, (f y).id = y.id
  work : ∀ y, (f y).work = y.work
  announces : ∀ y, (f y).announces = y.announces

theorem moves_look (m : Mem HcfNode) : Moves (look m) := by
  have h : ∀ y : HcfWatched, y.look m = y ∨ y.look m = { y with gone := true } := by
    intro y
    unfold look
    split
    · exact Or.inl rfl
    · split
      · exact Or.inl rfl
      · exact Or.inr rfl
  constructor <;> intro y <;> rcases h y with hy | hy <;> rw [hy]

theorem moves_callback (c : HcfWatchedCallback) : Moves (callback c) := by
  constructor <;> intro y <;> unfold callback <;> split <;> rfl

theorem moves_sync (o : HcfWatchedSync) : Moves (sync o) := by
  constructor <;> intro y <;> unfold sync <;> split <;> rfl

theorem moves_replace (now : ℕ) : Moves (replace now) := by
  constructor <;> intro y <;> unfold replace <;> split <;> rfl

theorem moves_copy (now : ℕ) (task : HcfAddNodeTask) : Moves (copy now task) := by
  constructor <;> intro y <;> unfold copy <;> split <;> rfl

end HcfWatched

namespace HcfWatch

/-- A leaf that is intact is seen to be. -/
theorem Leaf.of_intact (hrunner : x.work.pub.new_runner = some a) (hgone : x.gone = false)
    (hi : g.sys.Intact x.work.task a) (hh : g.Holds x.work.task.source_ip a x.leaf) :
    g.Leaf (x.look g.sys.mem) := by
  have hlook : x.look g.sys.mem = x := by
    obtain ⟨n, hn, -⟩ := hi
    rw [HcfWatched.look, hrunner]
    exact if_pos (Mem.mem_of_lookup hn)
  rw [hlook]
  exact ⟨a, hrunner, Or.inr ⟨hgone, hi, hh⟩⟩

/-- And one whose node is gone. -/
theorem Leaf.of_gone (hrunner : x.work.pub.new_runner = some a) (hleaf : x.leaf = .freed)
    (hgone : x.gone = true ∨ a ∉ g.sys.mem) : g.Leaf (x.look g.sys.mem) := by
  have hlook : x.look g.sys.mem = if a ∈ g.sys.mem then x else { x with gone := true } := by
    rw [HcfWatched.look, hrunner]
  rw [hlook]
  split
  · next hin => exact ⟨a, hrunner, Or.inl ⟨hleaf, hgone.resolve_right fun hnot => hnot hin⟩⟩
  · exact ⟨a, hrunner, Or.inl ⟨hleaf, rfl⟩⟩

/-- A leaf that is not freed is there, and held. -/
theorem Leaf.held {l : HcfLeaf} (hl : g.Leaf x) (hleaf : x.leaf = l) (hne : l ≠ .freed) :
    ∃ a, x.work.pub.new_runner = some a ∧ x.gone = false ∧ g.sys.Intact x.work.task a ∧
      g.Holds x.work.task.source_ip a l := by
  subst hleaf
  obtain ⟨a, hrunner, ⟨hfreed, -⟩ | ⟨hgone, hi, hh⟩⟩ := hl
  · exact absurd hfreed hne
  · exact ⟨a, hrunner, hgone, hi, hh⟩

/-- A leaf that the event leaves where it is. -/
theorem Leaf.kept {k : HcfWatch} {x' : HcfWatched} (hl : g.Leaf x)
    (hcase : HcfStepCase g.sys ev k.sys) (hled : HcfLedger g.sys)
    (hpub : x'.work.pub = x.work.pub) (htask : x'.work.task = x.work.task)
    (hgone : x'.gone = x.gone) (hleaf : x'.leaf = x.leaf)
    (hkept : ∀ a, g.Holds x.work.task.source_ip a x.leaf →
      ¬ g.sys.Frees ev a ∧ k.Holds x.work.task.source_ip a x.leaf) :
    k.Leaf (x'.look k.sys.mem) := by
  obtain ⟨a, hrunner, ⟨hfreed, hg⟩ | ⟨hg, hi, hh⟩⟩ := hl
  · exact Leaf.of_gone (hpub ▸ hrunner) (hleaf.trans hfreed) (Or.inl (hgone.trans hg))
  · obtain ⟨hfree, hh'⟩ := hkept a hh
    exact Leaf.of_intact (hpub ▸ hrunner) (hgone.trans hg) (htask ▸ hcase.intact hled hi hfree)
      (htask ▸ hleaf ▸ hh')

/-- **What holds the node of a leaf holds it still**, kind by kind: what is to be shown of an
event is that the published leaf stays published, the last node of a work its last, and a
replaced tree there. -/
theorem Holds.kept_of {g' : HcfWatch} {source_ip : U32} {l : HcfLeaf} (h : g.Sound)
    (hcase : HcfStepCase g.sys ev g'.sys) (hnow : g.now ≤ g'.now)
    (hpublished : l = .published → g.Holds source_ip a .published →
      g'.Holds source_ip a .published)
    (hcopied : ∀ id, l = .copied id → id < g.now → HcfCopied g.works g.rcu id a →
      HcfCopied g'.works g'.rcu id a)
    (hin : ∀ id, l = .replaced id → ∀ o ∈ g.syncs, o.id = id → o ∈ g'.syncs)
    (hsub : ∀ id, l = .replaced id → id < g.now → ∀ o ∈ g'.syncs, o.id = id →
      o ∈ g.syncs ∧ ∀ c ∈ footprint g.sys.mem o.sync.old_root, ¬ g.sys.Frees ev c)
    (hh : g.Holds source_ip a l) : g'.Holds source_ip a l := by
  cases l with
  | published => exact hpublished rfl hh
  | copied id =>
    obtain ⟨hid, hc⟩ := hh
    exact ⟨by omega, hcopied id rfl hid hc⟩
  | replaced id =>
    obtain ⟨hid, ⟨o, ho, hoid⟩, hall⟩ := hh
    refine ⟨by omega, ⟨o, hin id rfl o ho hoid, hoid⟩, fun o ho hoid => ?_⟩
    obtain ⟨hold, hfree⟩ := hsub id rfl hid o ho hoid
    have hsync : o.sync ∈ g.sys.syncs := h.syncs ▸ List.mem_map_of_mem hold
    rw [hcase.footprint_eq h.safe.ledger hsync hfree]
    exact hall o hold hoid
  | freed => exact hh

/-- A published leaf stays one as long as the tree does. -/
theorem Holds.published_kept {g' : HcfWatch} {source_ip : U32} (h : g.Sound)
    (hcase : HcfStepCase g.sys ev g'.sys) (htree : g'.sys.tree = g.sys.tree)
    (hh : g.Holds source_ip a .published) : g'.Holds source_ip a .published := by
  obtain ⟨t, hroot, hs, hleaf⟩ := hh
  exact ⟨t, hroot.trans htree.symm, hcase.stored h.safe.ledger hroot hs, hleaf⟩

/-- An event that leaves tree and swaps as they were, and frees no replaced tree. -/
theorem Holds.kept {g' : HcfWatch} {source_ip : U32} {l : HcfLeaf} (h : g.Sound)
    (hcase : HcfStepCase g.sys ev g'.sys) (hnow : g.now ≤ g'.now)
    (htree : g'.sys.tree = g.sys.tree) (hsyncs : g'.syncs = g.syncs)
    (hfree : ∀ c ∈ g.sys.replaced, ¬ g.sys.Frees ev c)
    (hcopied : ∀ id, l = .copied id → HcfCopied g.works g.rcu id a →
      HcfCopied g'.works g'.rcu id a)
    (hh : g.Holds source_ip a l) : g'.Holds source_ip a l := by
  refine hh.kept_of h hcase hnow (fun _ => Holds.published_kept h hcase htree)
    (fun id hl _ => hcopied id hl) (fun _ _ o ho _ => hsyncs ▸ ho) fun _ _ _ o ho _ => ?_
  rw [hsyncs] at ho
  refine ⟨ho, fun c hc => hfree c (HcfLedger.mem_replaced ?_ hc)⟩
  exact h.syncs ▸ List.mem_map_of_mem ho

end HcfWatch

/-- Works that come and go, but for the nodes of the work `id`. -/
theorem HcfCopied.of_works {works works' : List HcfWatched} {rcu : List HcfWatchedCallback}
    (h : HcfCopied works rcu id a)
    (hsub : ∀ y' ∈ works', y'.id = id →
      ∃ y ∈ works, y.id = id ∧ y.work.nodes_to_free = y'.work.nodes_to_free)
    (hsup : ∀ y ∈ works, y.id = id → y.work.nodes_to_free ≠ [] →
      ∃ y' ∈ works', y'.id = id ∧ y'.work.nodes_to_free = y.work.nodes_to_free) :
    HcfCopied works' rcu id a where
  node_eq y' hy' hid b hb := by
    obtain ⟨y, hy, hyid, hnodes⟩ := hsub y' hy' hid
    exact h.node_eq y hy hyid b (hnodes ▸ hb)
  callback_eq := h.callback_eq
  held := by
    refine h.held.imp_left fun ⟨y, hy, hyid, hlast⟩ => ?_
    have hne : y.work.nodes_to_free ≠ [] := by
      intro hnil
      rw [hnil] at hlast
      cases hlast
    obtain ⟨y', hy', hyid', hnodes⟩ := hsup y hy hyid hne
    exact ⟨y', hy', hyid', hnodes ▸ hlast⟩

/-- The same works, seen otherwise. -/
theorem HcfCopied.map {works : List HcfWatched} {rcu : List HcfWatchedCallback}
    {f : HcfWatched → HcfWatched} (hf : HcfWatched.Moves f) (h : HcfCopied works rcu id a) :
    HcfCopied (works.map f) rcu id a := by
  refine h.of_works (fun y' hy' hid => ?_) fun y hy hid _ => ?_
  · obtain ⟨y, hy, rfl⟩ := List.mem_map.1 hy'
    exact ⟨y, hy, (hf.id y).symm.trans hid, by rw [hf.work]⟩
  · exact ⟨f y, List.mem_map_of_mem hy, (hf.id y).trans hid, by rw [hf.work]⟩

theorem HcfCopied.look {works : List HcfWatched} {rcu : List HcfWatchedCallback}
    (m : Mem HcfNode) (h : HcfCopied works rcu id a) :
    HcfCopied (works.map (HcfWatched.look m)) rcu id a :=
  h.map (HcfWatched.moves_look m)

/-- A work that comes leaves what the others copied. -/
theorem HcfCopied.append {works : List HcfWatched} {rcu : List HcfWatchedCallback}
    (h : HcfCopied works rcu id a) (hid : x.id ≠ id) : HcfCopied (works ++ [x]) rcu id a := by
  refine h.of_works (fun z hz hzid => ?_) fun z hz hzid _ =>
    ⟨z, List.mem_append_left _ hz, hzid, rfl⟩
  rcases List.mem_append.1 hz with hz | hz
  · exact ⟨z, hz, hzid, rfl⟩
  · obtain rfl := List.mem_singleton.1 hz
    exact absurd hzid hid

/-- And has copied the last of its own nodes. -/
theorem HcfCopied.of_new {works : List HcfWatched} {rcu : List HcfWatchedCallback}
    (hworks : ∀ y ∈ works, y.id ≠ x.id) (hrcu : ∀ c ∈ rcu, c.id ≠ x.id)
    (hlast : x.work.nodes_to_free.getLast? = some a) : HcfCopied (works ++ [x]) rcu x.id a where
  node_eq y hy hid b hb := by
    rcases List.mem_append.1 hy with hy | hy
    · exact absurd hid (hworks y hy)
    · obtain rfl := List.mem_singleton.1 hy
      exact Option.some.inj (hb.symm.trans hlast)
  callback_eq c hc hid := absurd hid (hrcu c hc)
  held := Or.inl ⟨x, List.mem_append_right _ (List.mem_singleton_self x), rfl, hlast⟩

/-- The node a work hands to `call_rcu` is its last one if there is none after it. -/
theorem HcfCopied.retire {i : ℕ} {works : List HcfWatched} {rcu : List HcfWatchedCallback}
    {node : Addr} {rest : List Addr} {clock : ℕ} (h : HcfCopied works rcu id a)
    (hx : works[i]? = some x) (hnodes : x.work.nodes_to_free = node :: rest) :
    HcfCopied (works.set i { x with work := { x.work with nodes_to_free := rest } })
      (rcu ++ [⟨x.id, rest.isEmpty, ⟨node, clock⟩⟩]) id a := by
  have hmem := List.mem_of_getElem? hx
  have hset := List.mem_set (List.getElem?_eq_some_iff.1 hx).1
    { x with work := { x.work with nodes_to_free := rest } }
  have hlast : ∀ b, rest.getLast? = some b → x.work.nodes_to_free.getLast? = some b := by
    intro b hb
    rw [hnodes, List.getLast?_cons, hb]
    rfl
  have hone : rest.isEmpty = true → x.work.nodes_to_free.getLast? = some node := by
    intro hnil
    rw [hnodes, List.isEmpty_iff.1 hnil]
    rfl
  refine ⟨fun y hy hid b hb => ?_, fun c hc hid hclast => ?_, ?_⟩
  · rcases List.mem_or_eq_of_mem_set hy with hy | rfl
    · exact h.node_eq y hy hid b hb
    · exact h.node_eq x hmem hid b (hlast b hb)
  · rcases List.mem_append.1 hc with hc | hc
    · exact h.callback_eq c hc hid hclast
    · obtain rfl := List.mem_singleton.1 hc
      exact h.node_eq x hmem hid node (hone hclast)
  · rcases h.held with ⟨y, hy, hid, hb⟩ | ⟨c, hc, hid, hclast⟩
    · by_cases hyx : y = x
      · subst hyx
        cases rest with
        | nil =>
          exact Or.inr ⟨_, List.mem_append_right _ (List.mem_singleton_self _), hid, rfl⟩
        | cons d rest =>
          rw [hnodes, List.getLast?_cons_cons] at hb
          exact Or.inl ⟨_, hset, hid, hb⟩
      · exact Or.inl ⟨y, mem_set_of_ne hx hy hyx, hid, hb⟩
    · exact Or.inr ⟨c, List.mem_append_left _ hc, hid, hclast⟩

/-- A work that has nothing more to hand over. -/
theorem HcfCopied.finish {i : ℕ} {works : List HcfWatched} {rcu : List HcfWatchedCallback}
    (h : HcfCopied works rcu id a) (hx : works[i]? = some x)
    (hnodes : x.work.nodes_to_free = []) : HcfCopied (works.eraseIdx i) rcu id a := by
  refine h.of_works (fun y hy hid => ⟨y, List.mem_of_mem_eraseIdx hy, hid, rfl⟩) fun y hy hid hne => ?_
  have hyx : y ≠ x := by
    rintro rfl
    exact hne hnodes
  exact ⟨y, mem_eraseIdx_of_ne hx hy hyx, hid, rfl⟩

end Librefw
