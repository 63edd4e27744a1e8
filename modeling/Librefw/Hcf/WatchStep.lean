import Librefw.Hcf.Watch

/-!
# The watch in step

Each event keeps the watch sound (`HcfWatch.Sound.step`), one lemma for each
kind of event. The two that free are the point: a callback frees a leaf
exactly if it is the last of the work that copied it
(`HcfWatch.Holds.of_queued`), and the end of a swap's grace period exactly
if the swap replaced it (`HcfWatch.Holds.of_replaced`).
-/

namespace Librefw

open PtrTrie

variable {s s' : HcfSys} {ev : HcfEvent} {g : HcfWatch} {x y : HcfWatched} {a : Addr} {id : ℕ}

namespace HcfWatch

/-! ## Events -/

/-- What is to be seen of an event. -/
theorem Sound.settle {g₁ : HcfWatch} (hsafe : HcfSafe s')
    (hworks : g₁.works.map HcfWatched.work = s'.works)
    (hrcu : g₁.rcu.map HcfWatchedCallback.callback = s'.rcu)
    (hsyncs : g₁.syncs.map HcfWatchedSync.sync = s'.syncs)
    (hlog : g₁.log.map HcfAnnounced.logged = s'.log)
    (hworks_id : ∀ x ∈ g₁.works, x.id < g₁.now + 1) (hrcu_id : ∀ c ∈ g₁.rcu, c.id < g₁.now + 1)
    (hsyncs_id : ∀ o ∈ g₁.syncs, o.id < g₁.now + 1)
    (hann : ∀ x ∈ g₁.works, x.announces = true ↔ 0 < x.work.pub.nodes_created)
    (hleaves : ∀ x ∈ g₁.works, x.announces = true → (g₁.settle s').Leaf (x.look s'.mem)) :
    (g₁.settle s').Sound where
  safe := hsafe
  works := by
    have heq : (g₁.works.map (HcfWatched.look s'.mem)).map HcfWatched.work =
        g₁.works.map HcfWatched.work := by
      rw [List.map_map]
      exact List.map_congr_left fun x _ => (HcfWatched.moves_look s'.mem).work x
    exact heq.trans hworks
  rcu := hrcu
  syncs := hsyncs
  log := hlog
  works_id := by
    refine List.forall_mem_map.2 fun x hx => ?_
    rw [(HcfWatched.moves_look s'.mem).id]
    exact hworks_id x hx
  rcu_id := hrcu_id
  syncs_id := hsyncs_id
  announces := by
    refine List.forall_mem_map.2 fun x hx => ?_
    rw [(HcfWatched.moves_look s'.mem).announces, (HcfWatched.moves_look s'.mem).work]
    exact hann x hx
  leaves := by
    refine List.forall_mem_map.2 fun x hx hx' => ?_
    rw [(HcfWatched.moves_look s'.mem).announces] at hx'
    exact hleaves x hx hx'

/-- An event that touches none of the lists, nor the published tree, and frees nothing. -/
theorem Sound.same (h : g.Sound) (hsafe : HcfSafe s') (hcase : HcfStepCase g.sys ev s')
    (hworks : s'.works = g.sys.works) (hrcu : s'.rcu = g.sys.rcu) (hsyncs : s'.syncs = g.sys.syncs)
    (hlog : s'.log = g.sys.log) (htree : s'.tree = g.sys.tree)
    (hfree : ∀ a, ¬ g.sys.Frees ev a) : (g.settle s').Sound := by
  refine Sound.settle hsafe (h.works.trans hworks.symm) (h.rcu.trans hrcu.symm)
    (h.syncs.trans hsyncs.symm) (h.log.trans hlog.symm) (fun x hx => Nat.lt_succ_of_lt (h.works_id x hx))
    (fun c hc => Nat.lt_succ_of_lt (h.rcu_id c hc)) (fun o ho => Nat.lt_succ_of_lt (h.syncs_id o ho))
    h.announces fun x hx hann => ?_
  refine (h.leaves x hx hann).kept (k := g.settle s') hcase h.safe.ledger rfl rfl rfl rfl
    fun a hh => ⟨hfree a, ?_⟩
  exact hh.kept h hcase (Nat.le_succ _) htree rfl (fun c _ => hfree c) fun id _ hc => hc.look _

/-- An event whose turn has not come. -/
theorem Sound.idle (h : g.Sound) (hcase : HcfStepCase g.sys ev g.sys)
    (hfree : ∀ a, ¬ g.sys.Frees ev a) : (g.settle g.sys).Sound :=
  h.same h.safe hcase rfl rfl rfl rfl rfl hfree

theorem Sound.works_get (h : g.Sound) (i : ℕ) :
    g.sys.works[i]? = g.works[i]?.map HcfWatched.work := by
  rw [← h.works, List.getElem?_map]

theorem Sound.rcu_get (h : g.Sound) (i : ℕ) :
    g.sys.rcu[i]? = g.rcu[i]?.map HcfWatchedCallback.callback := by
  rw [← h.rcu, List.getElem?_map]

theorem Sound.syncs_get (h : g.Sound) (i : ℕ) :
    g.sys.syncs[i]? = g.syncs[i]?.map HcfWatchedSync.sync := by
  rw [← h.syncs, List.getElem?_map]

/-- A work that goes on, its leaf as it was. -/
theorem Sound.set {i : ℕ} {x' : HcfWatched} {rcu : List HcfWatchedCallback}
    {log : List HcfAnnounced} (h : g.Sound) (hsafe : HcfSafe s') (hcase : HcfStepCase g.sys ev s')
    (hfree : ∀ a, ¬ g.sys.Frees ev a) (hx : g.works[i]? = some x) (hid : x'.id = x.id)
    (hpub : x'.work.pub = x.work.pub) (htask : x'.work.task = x.work.task)
    (hann : x'.announces = x.announces) (hgone : x'.gone = x.gone) (hleaf : x'.leaf = x.leaf)
    (hworks : s'.works = g.sys.works.set i x'.work) (hsyncs : s'.syncs = g.sys.syncs)
    (htree : s'.tree = g.sys.tree) (hrcu : rcu.map HcfWatchedCallback.callback = s'.rcu)
    (hrcu_id : ∀ c ∈ rcu, c.id < g.now + 1) (hlog : log.map HcfAnnounced.logged = s'.log)
    (hcopied : ∀ id a, HcfCopied g.works g.rcu id a → HcfCopied (g.works.set i x') rcu id a) :
    (({ g with works := g.works.set i x', rcu := rcu, log := log } : HcfWatch).settle s').Sound := by
  have hmem := List.mem_of_getElem? hx
  have hold : ∀ y ∈ g.works.set i x', y.id < g.now + 1 ∧
      (y.announces = true ↔ 0 < y.work.pub.nodes_created) := by
    intro y hy
    rcases List.mem_or_eq_of_mem_set hy with hy | rfl
    · exact ⟨Nat.lt_succ_of_lt (h.works_id y hy), h.announces y hy⟩
    · rw [hid, hann, hpub]
      exact ⟨Nat.lt_succ_of_lt (h.works_id x hmem), h.announces x hmem⟩
  have hkept : ∀ {source_ip a l}, g.Holds source_ip a l → ¬ g.sys.Frees ev a ∧
      (({ g with works := g.works.set i x', rcu := rcu, log := log } : HcfWatch).settle s').Holds
        source_ip a l := fun {_ a _} hh =>
    ⟨hfree a, hh.kept h hcase (Nat.le_succ _) htree rfl (fun c _ => hfree c)
      fun id _ hc => (hcopied id a hc).look _⟩
  refine Sound.settle hsafe ?_ hrcu (h.syncs.trans hsyncs.symm) hlog (fun y hy => (hold y hy).1)
    hrcu_id (fun o ho => Nat.lt_succ_of_lt (h.syncs_id o ho)) (fun y hy => (hold y hy).2) ?_
  · rw [List.map_set, h.works, hworks]
  · intro y hy hy'
    rcases List.mem_or_eq_of_mem_set hy with hy | rfl
    · exact (h.leaves y hy hy').kept hcase h.safe.ledger rfl rfl rfl rfl fun _ hh => hkept hh
    · exact (h.leaves x hmem (hann ▸ hy')).kept hcase h.safe.ledger hpub htask hgone hleaf
        fun _ hh => hkept hh

/-- **An announcement.** -/
theorem Sound.announce {i : ℕ} (h : g.Sound) (hrun : hcfAnnounce i g.sys = s') (hsafe : HcfSafe s')
    (hcase : HcfStepCase g.sys (.announce i) s') : ((g.announce i).settle s').Sound := by
  have hnone : ∀ a, ¬ g.sys.Frees (.announce i) a := fun _ h => h
  unfold hcfAnnounce at hrun
  rw [h.works_get] at hrun
  unfold HcfWatch.announce
  cases hx : g.works[i]? with
  | none =>
    rw [hx] at hrun
    obtain rfl := hrun
    exact h.idle hcase hnone
  | some x =>
    rw [hx] at hrun
    simp only [Option.map_some] at hrun ⊢
    by_cases hlogged : x.work.logged = true
    · rw [if_pos hlogged] at hrun ⊢
      obtain rfl := hrun
      exact h.idle hcase hnone
    · rw [if_neg hlogged] at hrun ⊢
      subst hrun
      refine h.set hsafe hcase hnone hx rfl rfl rfl rfl rfl rfl rfl rfl rfl h.rcu
        (fun c hc => Nat.lt_succ_of_lt (h.rcu_id c hc)) ?_ fun id a hc => ?_
      · split
        · rw [List.map_append, h.log, List.map_singleton]
        · exact h.log
      · refine hc.of_works (fun z hz hzid => ?_) fun z hz hzid _ => ?_
        · rcases List.mem_or_eq_of_mem_set hz with hz | rfl
          · exact ⟨z, hz, hzid, rfl⟩
          · exact ⟨x, List.mem_of_getElem? hx, hzid, rfl⟩
        · by_cases hzx : z = x
          · subst hzx
            exact ⟨_, List.mem_set (List.getElem?_eq_some_iff.1 hx).1 _, hzid, rfl⟩
          · exact ⟨z, mem_set_of_ne hx hz hzx, hzid, rfl⟩

/-- **A turn of the loop that retires the nodes of a work.** -/
theorem Sound.callRcu {i : ℕ} (h : g.Sound) (hrun : hcfCallRcu i g.sys = s') (hsafe : HcfSafe s')
    (hcase : HcfStepCase g.sys (.callRcu i) s') : ((g.callRcu i).settle s').Sound := by
  have hnone : ∀ a, ¬ g.sys.Frees (.callRcu i) a := fun _ h => h
  unfold hcfCallRcu at hrun
  rw [h.works_get] at hrun
  unfold HcfWatch.callRcu
  cases hx : g.works[i]? with
  | none =>
    rw [hx] at hrun
    obtain rfl := hrun
    exact h.idle hcase hnone
  | some x =>
    have hmem := List.mem_of_getElem? hx
    rw [hx] at hrun
    simp only [Option.map_some] at hrun ⊢
    by_cases hlogged : x.work.logged = true
    · rw [if_pos hlogged] at hrun ⊢
      cases hnodes : x.work.nodes_to_free with
      | nil =>
        simp only [hnodes] at hrun ⊢
        subst hrun
        refine Sound.settle hsafe ?_ h.rcu h.syncs h.log
          (fun y hy => Nat.lt_succ_of_lt (h.works_id y (List.mem_of_mem_eraseIdx hy)))
          (fun c hc => Nat.lt_succ_of_lt (h.rcu_id c hc))
          (fun o ho => Nat.lt_succ_of_lt (h.syncs_id o ho))
          (fun y hy => h.announces y (List.mem_of_mem_eraseIdx hy)) fun y hy hann => ?_
        · rw [← List.eraseIdx_map, h.works]
        · refine (h.leaves y (List.mem_of_mem_eraseIdx hy) hann).kept (k := HcfWatch.settle _ _) hcase
            h.safe.ledger rfl rfl rfl rfl fun a hh => ⟨hnone a, ?_⟩
          exact hh.kept h hcase (Nat.le_succ _) rfl rfl (fun c _ => hnone c)
            fun id _ hc => (hc.finish hx hnodes).look _
      | cons node rest =>
        simp only [hnodes] at hrun ⊢
        subst hrun
        refine h.set hsafe hcase hnone hx rfl rfl rfl rfl rfl rfl rfl rfl rfl ?_ (fun c hc => ?_) h.log
          fun id a hc => hc.retire hx hnodes
        · rw [List.map_append, h.rcu, List.map_singleton]
        · rcases List.mem_append.1 hc with hc | hc
          · exact Nat.lt_succ_of_lt (h.rcu_id c hc)
          · obtain rfl := List.mem_singleton.1 hc
            exact Nat.lt_succ_of_lt (h.works_id x hmem)
    · rw [if_neg hlogged] at hrun ⊢
      obtain rfl := hrun
      exact h.idle hcase hnone

theorem Sound.queued_eq (h : g.Sound) :
    held (fun c : HcfWatchedCallback => {c.callback.node}) g.rcu = g.sys.queued := by
  rw [HcfSys.queued, ← h.rcu, held, held, List.map_map]
  rfl

theorem Sound.replaced_eq (h : g.Sound) :
    held (fun o : HcfWatchedSync => footprint g.sys.mem o.sync.old_root) g.syncs =
      g.sys.replaced := by
  rw [HcfSys.replaced, ← h.syncs, held, held, List.map_map]
  rfl

theorem Sound.mem_retained (h : g.Sound) (hy : y ∈ g.works) (ha : a ∈ y.work.nodes_to_free) :
    a ∈ g.sys.retained :=
  mem_held.2 ⟨y.work, h.works ▸ List.mem_map_of_mem hy, Multiset.mem_coe.2 ha⟩

/-- A published leaf is live. -/
theorem Holds.live {source_ip : U32} (hh : g.Holds source_ip a .published) : a ∈ g.sys.live := by
  obtain ⟨t, hroot, hs, hleaf⟩ := hh
  rw [HcfSys.live, hs.footprint_eq hroot]
  exact Multiset.mem_of_le (addrs_descend_le t _) (root_mem_addrs hleaf)

/-- **The leaf a callback frees** is one that its work copied last. -/
theorem Holds.of_queued {source_ip : U32} {l : HcfLeaf} {c : HcfWatchedCallback} (h : g.Sound)
    (hc : c ∈ g.rcu) (hh : g.Holds source_ip c.callback.node l) :
    c.last = true ∧ l = .copied c.id := by
  have hmem : c.callback ∈ g.sys.rcu := h.rcu ▸ List.mem_map_of_mem hc
  obtain ⟨hlive, hreplaced, hretained⟩ := h.safe.ledger.queued_apart (HcfLedger.mem_queued hmem)
  cases l with
  | published => exact absurd hh.live hlive
  | copied id =>
    obtain ⟨-, hcopied⟩ := hh
    rcases hcopied.held with ⟨y, hy, -, hlast⟩ | ⟨c', hc', hid, hlast⟩
    · exact absurd (h.mem_retained hy (List.mem_of_getLast? hlast)) hretained
    · have hnd : (held (fun c : HcfWatchedCallback => {c.callback.node}) g.rcu).Nodup := by
        rw [h.queued_eq]
        exact Multiset.nodup_of_le (Multiset.le_add_left _ _)
          (h.safe.ledger.account ▸ g.sys.mem.nodup_allocated)
      have hnode := hcopied.callback_eq c' hc' hid hlast
      obtain rfl := eq_of_held hnd hc hc' (Multiset.mem_singleton_self _)
        (Multiset.mem_singleton.2 hnode.symm)
      exact ⟨hlast, by rw [hid]⟩
  | replaced id =>
    obtain ⟨-, ⟨o, ho, hoid⟩, hall⟩ := hh
    have hsync : o.sync ∈ g.sys.syncs := h.syncs ▸ List.mem_map_of_mem ho
    exact absurd (HcfLedger.mem_replaced hsync (hall o ho hoid)) hreplaced
  | freed => exact hh.elim

/-- **The leaf a swap's grace period frees** is one that the swap replaced. -/
theorem Holds.of_replaced {source_ip : U32} {l : HcfLeaf} {o : HcfWatchedSync} (h : g.Sound)
    (ho : o ∈ g.syncs) (ha : a ∈ footprint g.sys.mem o.sync.old_root)
    (hh : g.Holds source_ip a l) : l = .replaced o.id := by
  have hmem : o.sync ∈ g.sys.syncs := h.syncs ▸ List.mem_map_of_mem ho
  obtain ⟨hlive, -, hretained, hqueued⟩ :=
    h.safe.ledger.replaced_apart (HcfLedger.mem_replaced hmem ha)
  cases l with
  | published => exact absurd hh.live hlive
  | copied id =>
    obtain ⟨-, hcopied⟩ := hh
    rcases hcopied.held with ⟨y, hy, -, hlast⟩ | ⟨c, hc, hid, hlast⟩
    · exact absurd (h.mem_retained hy (List.mem_of_getLast? hlast)) hretained
    · have hin : c.callback ∈ g.sys.rcu := h.rcu ▸ List.mem_map_of_mem hc
      rw [← hcopied.callback_eq c hc hid hlast] at hqueued
      exact absurd (HcfLedger.mem_queued hin) hqueued
  | replaced id =>
    obtain ⟨-, ⟨o', ho', hid⟩, hall⟩ := hh
    have hnd := h.safe.ledger.nodup_replaced
    rw [← h.replaced_eq] at hnd
    obtain rfl := eq_of_held hnd ho ho' ha (hall o' ho' hid)
    rw [hid]
  | freed => exact hh.elim

/-- An event that moves leaves and nothing else of the works. -/
theorem Sound.mapped {f : HcfWatched → HcfWatched} {rcu : List HcfWatchedCallback}
    {syncs : List HcfWatchedSync} (h : g.Sound) (hsafe : HcfSafe s') (hf : HcfWatched.Moves f)
    (hworks : s'.works = g.sys.works) (hrcu : rcu.map HcfWatchedCallback.callback = s'.rcu)
    (hsyncs : syncs.map HcfWatchedSync.sync = s'.syncs) (hlog : s'.log = g.sys.log)
    (hrcu_id : ∀ c ∈ rcu, c.id < g.now + 1) (hsyncs_id : ∀ o ∈ syncs, o.id < g.now + 1)
    (hleaves : ∀ y ∈ g.works, y.announces = true →
      (({ g with works := g.works.map f, rcu := rcu, syncs := syncs } : HcfWatch).settle s').Leaf
        ((f y).look s'.mem)) :
    (({ g with works := g.works.map f, rcu := rcu, syncs := syncs } : HcfWatch).settle s').Sound := by
  refine Sound.settle hsafe ?_ hrcu hsyncs (h.log.trans hlog.symm) ?_ hrcu_id hsyncs_id ?_ ?_
  · rw [List.map_map, hworks, ← h.works]
    exact List.map_congr_left fun y _ => hf.work y
  · refine List.forall_mem_map.2 fun y hy => ?_
    rw [hf.id]
    exact Nat.lt_succ_of_lt (h.works_id y hy)
  · refine List.forall_mem_map.2 fun y hy => ?_
    rw [hf.work, hf.announces]
    exact h.announces y hy
  · refine List.forall_mem_map.2 fun y hy hann => ?_
    rw [hf.announces] at hann
    exact hleaves y hy hann

/-- **A callback.** -/
theorem Sound.callback {i : ℕ} (h : g.Sound) (hrun : hcfCallback i g.sys = .ok s')
    (hsafe : HcfSafe s') (hcase : HcfStepCase g.sys (.callback i) s') :
    ((g.callback i).settle s').Sound := by
  unfold hcfCallback at hrun
  rw [h.rcu_get] at hrun
  unfold HcfWatch.callback
  cases hc : g.rcu[i]? with
  | none =>
    rw [hc] at hrun
    obtain rfl := Except.ok.inj hrun
    have hnone := h.rcu_get i
    rw [hc] at hnone
    exact h.idle hcase fun a ⟨c, hc, _⟩ => nomatch hnone.symm.trans hc
  | some c =>
    have hget := h.rcu_get i
    rw [hc] at hrun hget
    simp only [Option.map_some] at hrun hget ⊢
    have hmem := List.mem_of_getElem? hc
    by_cases hgrace : g.sys.graceOver c.callback.stamp
    · rw [if_pos hgrace] at hrun ⊢
      have hin : c.callback.node ∈ g.sys.mem :=
        h.safe.ledger.mem_iff.2 (Or.inr (Or.inr (Or.inr (Or.inr
          (HcfLedger.mem_queued (List.mem_of_getElem? hget))))))
      rw [Mem.free_of_mem hin] at hrun
      obtain rfl := Except.ok.inj hrun
      have hfrees : ∀ a, g.sys.Frees (.callback i) a ↔ c.callback.node = a := fun a =>
        HcfSys.frees_callback hget hgrace
      refine h.mapped hsafe (HcfWatched.moves_callback c) rfl (by rw [← List.eraseIdx_map, h.rcu])
        h.syncs rfl (fun d hd => Nat.lt_succ_of_lt (h.rcu_id d (List.mem_of_mem_eraseIdx hd)))
        (fun o ho => Nat.lt_succ_of_lt (h.syncs_id o ho)) fun y hy hann => ?_
      have hleaf := h.leaves y hy hann
      unfold HcfWatched.callback
      split
      · next hlast =>
        -- the leaf is the node that is freed
        obtain ⟨a, hrunner, -, -, hh⟩ := hleaf.held hlast.2 (by simp)
        have hnode := hh.2.callback_eq c hmem rfl hlast.1
        exact Leaf.of_gone (g := HcfWatch.settle _ _) hrunner rfl
          (Or.inr (hcase.gone h.safe.ledger ((hfrees a).2 hnode)))
      · next hlast =>
        refine hleaf.kept (k := HcfWatch.settle _ _) hcase h.safe.ledger rfl rfl rfl rfl
          fun a hh => ⟨fun hfree => ?_, ?_⟩
        · obtain rfl := (hfrees a).1 hfree
          exact hlast (hh.of_queued h hmem)
        · refine hh.kept h hcase (Nat.le_succ _) rfl rfl (fun d hd hfree => ?_) fun id hl hcopied => ?_
          · obtain rfl := (hfrees d).1 hfree
            exact (h.safe.ledger.replaced_apart hd).2.2.2
              (HcfLedger.mem_queued (List.mem_of_getElem? hget))
          · refine HcfCopied.look _ (HcfCopied.map (HcfWatched.moves_callback c) ?_)
            refine ⟨hcopied.node_eq, fun d hd => hcopied.callback_eq d (List.mem_of_mem_eraseIdx hd), ?_⟩
            refine hcopied.held.imp_right fun ⟨d, hd, hid, hdlast⟩ => ⟨d, ?_, hid, hdlast⟩
            refine mem_eraseIdx_of_ne hc hd ?_
            rintro rfl
            exact hlast ⟨hdlast, by rw [hl, hid]⟩
    · rw [if_neg hgrace] at hrun ⊢
      obtain rfl := Except.ok.inj hrun
      refine h.idle hcase fun a ⟨c', hc', hgrace', _⟩ => ?_
      obtain rfl := Option.some.inj (hc'.symm.trans hget)
      exact hgrace hgrace'

/-- **The end of a swap's grace period.** -/
theorem Sound.syncDone {i : ℕ} (h : g.Sound) (hrun : hcfSyncDone i g.sys = .ok s')
    (hsafe : HcfSafe s') (hcase : HcfStepCase g.sys (.syncDone i) s') :
    ((g.syncDone i).settle s').Sound := by
  unfold hcfSyncDone at hrun
  rw [h.syncs_get] at hrun
  unfold HcfWatch.syncDone
  cases ho : g.syncs[i]? with
  | none =>
    rw [ho] at hrun
    obtain rfl := Except.ok.inj hrun
    have hnone := h.syncs_get i
    rw [ho] at hnone
    exact h.idle hcase fun a ⟨o, ho, _⟩ => nomatch hnone.symm.trans ho
  | some o =>
    have hget := h.syncs_get i
    rw [ho] at hrun hget
    simp only [Option.map_some] at hrun hget ⊢
    have hmem := List.mem_of_getElem? ho
    by_cases hgrace : g.sys.graceOver o.sync.stamp
    · rw [if_pos hgrace] at hrun ⊢
      obtain ⟨m, hfreed, hrun⟩ := bind_eq_ok.1 hrun
      obtain rfl := Except.ok.inj hrun
      have hfrees : ∀ a, g.sys.Frees (.syncDone i) a ↔ a ∈ footprint g.sys.mem o.sync.old_root :=
        fun a => h.safe.ledger.frees_syncDone hget hgrace
      refine h.mapped hsafe (HcfWatched.moves_sync o) rfl h.rcu (by rw [← List.eraseIdx_map, h.syncs])
        rfl (fun c hc => Nat.lt_succ_of_lt (h.rcu_id c hc))
        (fun d hd => Nat.lt_succ_of_lt (h.syncs_id d (List.mem_of_mem_eraseIdx hd)))
        fun y hy hann => ?_
      have hleaf := h.leaves y hy hann
      unfold HcfWatched.sync
      split
      · next hrep =>
        -- the leaf is in the tree that is freed
        obtain ⟨a, hrunner, -, -, hh⟩ := hleaf.held hrep (by simp)
        exact Leaf.of_gone (g := HcfWatch.settle _ _) hrunner rfl
          (Or.inr (hcase.gone h.safe.ledger ((hfrees a).2 (hh.2.2 o hmem rfl))))
      · next hrep =>
        have hother : ∀ {source_ip a l}, l = y.leaf → g.Holds source_ip a l →
            ¬ g.sys.Frees (.syncDone i) a := fun hl hh hfree =>
          hrep (hl ▸ hh.of_replaced h hmem ((hfrees _).1 hfree))
        refine hleaf.kept (k := HcfWatch.settle _ _) hcase h.safe.ledger rfl rfl rfl rfl
          fun a hh => ⟨hother rfl hh, ?_⟩
        have hne : ∀ id, y.leaf = .replaced id → o.id ≠ id := fun id hl heq =>
          hrep (by rw [hl, heq])
        refine hh.kept_of h hcase (Nat.le_succ _) (fun _ => Holds.published_kept h hcase rfl)
          (fun id _ _ hc => (hc.map (HcfWatched.moves_sync o)).look _)
          (fun id hl d hd hid => ?_) fun id hl _ d hd hid => ?_
        · refine mem_eraseIdx_of_ne ho hd ?_
          rintro rfl
          exact hne id hl hid
        · refine ⟨List.mem_of_mem_eraseIdx hd, fun c hc hfree => ?_⟩
          have hnd := h.safe.ledger.nodup_replaced
          rw [← h.replaced_eq] at hnd
          exact disjoint_of_eraseIdx ho hnd hd hc ((hfrees c).1 hfree)
    · rw [if_neg hgrace] at hrun ⊢
      obtain rfl := Except.ok.inj hrun
      refine h.idle hcase fun a ⟨o', ho', hgrace', _⟩ => ?_
      obtain rfl := Option.some.inj (ho'.symm.trans hget)
      exact hgrace hgrace'

/-- **A swap**, of a message or of `hcf_free_state`. -/
theorem Sound.swap {p : Ptr} {builds : List HcfBuild} (h : g.Sound)
    (hrun : hcfSwap p { g.sys with builds := builds } = s') (hsafe : HcfSafe s')
    (hcase : HcfStepCase g.sys ev s') (hfree : ∀ a, ¬ g.sys.Frees ev a) :
    (g.swap.settle s').Sound := by
  unfold hcfSwap at hrun
  unfold HcfWatch.swap
  cases htree : g.sys.tree with
  | none =>
    simp only [htree] at hrun ⊢
    subst hrun
    -- there was no tree, so no leaf was in it
    refine Sound.settle hsafe h.works h.rcu h.syncs h.log
      (fun y hy => Nat.lt_succ_of_lt (h.works_id y hy))
      (fun c hc => Nat.lt_succ_of_lt (h.rcu_id c hc))
      (fun o ho => Nat.lt_succ_of_lt (h.syncs_id o ho)) h.announces fun y hy hann => ?_
    refine (h.leaves y hy hann).kept (k := HcfWatch.settle _ _) hcase h.safe.ledger rfl rfl rfl rfl
      fun a hh => ⟨hfree a, hh.kept_of h hcase (Nat.le_succ _) (fun _ hpub => ?_)
        (fun id _ _ hc => hc.look _) (fun _ _ _ ho _ => ho)
        fun _ _ _ _ ho _ => ⟨ho, fun c _ => hfree c⟩⟩
    have hlive := hpub.live
    rw [HcfSys.live, htree, footprint_none] at hlive
    exact absurd hlive (Multiset.notMem_zero a)
  | some r =>
    simp only [htree] at hrun ⊢
    subst hrun
    have hnew : ∀ o ∈ g.syncs ++ [⟨g.now, ⟨some r, g.sys.clock⟩⟩],
        o ∈ g.syncs ∨ o = ⟨g.now, ⟨some r, g.sys.clock⟩⟩ := fun o ho =>
      (List.mem_append.1 ho).imp_right List.mem_singleton.1
    refine h.mapped hsafe (HcfWatched.moves_replace g.now) rfl h.rcu
      (by rw [List.map_append, h.syncs, List.map_singleton]) rfl
      (fun c hc => Nat.lt_succ_of_lt (h.rcu_id c hc)) (fun o ho => ?_) fun y hy hann => ?_
    · rcases hnew o ho with ho | rfl
      · exact Nat.lt_succ_of_lt (h.syncs_id o ho)
      · exact Nat.lt_succ_self _
    have hleaf := h.leaves y hy hann
    unfold HcfWatched.replace
    split
    · next hpub =>
      -- a published leaf waits with the tree it is in
      obtain ⟨a, hrunner, hgone, hi, hh⟩ := hleaf.held hpub (by simp)
      have hlive := hh.live
      refine Leaf.of_intact (g := HcfWatch.settle _ _) hrunner hgone
        (hcase.intact h.safe.ledger hi (hfree a)) ⟨Nat.lt_succ_self _, ⟨⟨g.now, ⟨some r, g.sys.clock⟩⟩,
          List.mem_append_right _ (List.mem_singleton_self _), rfl⟩, fun o ho hid => ?_⟩
      rcases hnew o ho with ho | rfl
      · exact absurd hid (Nat.ne_of_lt (h.syncs_id o ho))
      · rw [HcfSys.live, htree] at hlive
        exact hlive
    · next hpub =>
      refine hleaf.kept (k := HcfWatch.settle _ _) hcase h.safe.ledger rfl rfl rfl rfl
        fun a hh => ⟨hfree a, ?_⟩
      refine hh.kept_of h hcase (Nat.le_succ _) (fun hl => absurd hl hpub)
        (fun id _ _ hc => (hc.map (HcfWatched.moves_replace g.now)).look _)
        (fun _ _ o ho _ => List.mem_append_left _ ho) fun id _ hlt o ho hid => ?_
      rcases hnew o ho with ho | rfl
      · exact ⟨ho, fun c _ => hfree c⟩
      · exact absurd hid (Nat.ne_of_gt hlt)

end HcfWatch

/-- A lookup misses where there is no leaf. -/
theorem hcfMisses_iff {task : HcfAddNodeTask} {t : PtrTrie HcfMeta} (hroot : root t = s.tree)
    (hs : Stored s.mem t) :
    hcfMisses s task = true ↔ (vals t).find (ipPath task.source_ip 24) = none := by
  unfold hcfMisses
  rw [← hroot, hcfLookupTree_spec hs, hcfVerdict]
  cases (vals t).find (ipPath task.source_ip 24) with
  | none => simp [hcfAnswer]
  | some leaf =>
    simp only [hcfAnswer, hcfCompare]
    split <;> simp

namespace HcfWatch

/-- The leaf of a work that has just published it. -/
theorem Leaf.of_register {task : HcfAddNodeTask} {pub : HcfPublished} {m' : Mem HcfNode}
    {t t' : PtrTrie HcfMeta} {announces : Bool}
    (hreg : HcfRegistered task s.mem t pub.new_root pub.new_runner pub.nodes_created
      pub.nodes_to_free m' t') (hmem : g.sys.mem = m') (htree : g.sys.tree = pub.new_root)
    (hled : HcfLedger g.sys) :
    g.Leaf (HcfWatched.look g.sys.mem
      ⟨id, ⟨task, pub, false, pub.nodes_to_free⟩, announces, .published, false⟩) := by
  subst hmem
  have hfind : (vals t').find (ipPath task.source_ip 24) = some (hcfMetaOf task.ttl) := by
    rw [hreg.vals_eq, BitTrie.find_put_self]
  obtain ⟨a, n, hroot, hn, hdata⟩ := Stored.lookup_of_find hreg.stored hfind
  have hpub : g.Holds task.source_ip a .published :=
    ⟨t', hreg.root_eq.trans htree.symm, hreg.stored, hroot⟩
  exact Leaf.of_intact (hreg.last_eq.trans hroot) rfl
    ⟨n, hn, hdata, (hled.live_apart hpub.live).1⟩ hpub

/-- **The critical section of a work.** -/
theorem Sound.register {A : Supply} {task : HcfAddNodeTask} (h : g.Sound)
    (hrun : hcfRegister A.toAllocator task g.sys = .ok s') (hsafe : HcfSafe s')
    (hcase : HcfStepCase g.sys (.register A task) s') : ((g.register s' task).settle s').Sound := by
  have hnone : ∀ a, ¬ g.sys.Frees (.register A task) a := fun _ h => h
  obtain ⟨t, hroot, hs, hlive, hnd⟩ := h.safe.ledger.exists_live
  unfold HcfWatch.register
  cases htree : g.sys.tree with
  | none =>
    have hlocked : hcfRegisterIpLocked A.toAllocator task g.sys.tree g.sys.mem =
        .ok (none, g.sys.mem) := by
      rw [htree]
      rfl
    rw [hcfRegister, hlocked, ok_bind] at hrun
    obtain rfl : g.sys = s' := Except.ok.inj hrun
    exact h.idle hcase hnone
  | some r =>
    have hne : t ≠ .nil := by
      rintro rfl
      rw [root_nil, htree] at hroot
      cases hroot
    obtain ⟨pub, m', t', hlocked, hreg⟩ := hcfRegisterIpLocked_spec A task hs hne hnd
    rw [hcfRegister, ← hroot, hlocked, ok_bind] at hrun
    obtain rfl := Except.ok.inj hrun
    simp only [List.getLast?_append, List.getLast?_singleton, Option.some_or]
    have hnew : ∀ {l : List HcfWatched} {x y : HcfWatched}, y ∈ l ++ [x] → y ∈ l ∨ y = x :=
      fun hy => (List.mem_append.1 hy).imp_right List.mem_singleton.1
    have hmoves := HcfWatched.moves_copy g.now task
    have hid : ∀ y ∈ g.works.map (HcfWatched.copy g.now task), y.id < g.now :=
      List.forall_mem_map.2 fun y hy => by
        rw [hmoves.id]
        exact h.works_id y hy
    refine Sound.settle hsafe ?_ h.rcu h.syncs h.log (fun y hy => ?_)
      (fun c hc => Nat.lt_succ_of_lt (h.rcu_id c hc))
      (fun o ho => Nat.lt_succ_of_lt (h.syncs_id o ho)) (fun y hy => ?_) fun y hy hann => ?_
    · rw [List.map_append, List.map_map, List.map_singleton, ← h.works]
      exact congrArg (· ++ [_]) (List.map_congr_left fun y _ => hmoves.work y)
    · rcases hnew hy with hy | rfl
      · exact Nat.lt_succ_of_lt (hid y hy)
      · exact Nat.lt_succ_self _
    · rcases hnew hy with hy | rfl
      · obtain ⟨x, hx, rfl⟩ := List.mem_map.1 hy
        rw [hmoves.announces, hmoves.work]
        exact h.announces x hx
      · show hcfMisses g.sys task = true ↔ 0 < pub.nodes_created
        rw [hcfMisses_iff hroot hs, Nat.pos_iff_ne_zero, Ne, hreg.created_eq_zero]
        cases (vals t).find (ipPath task.source_ip 24) <;> simp
    rcases hnew hy with hy | rfl
    · obtain ⟨x, hx, rfl⟩ := List.mem_map.1 hy
      rw [hmoves.announces] at hann
      have hleaf := h.leaves x hx hann
      unfold HcfWatched.copy
      split
      · next hcopy =>
        obtain ⟨a, hrunner, hgone, hi, u, hu, hus, hpath⟩ := hleaf.held hcopy.1 (by simp)
        obtain rfl := Stored.unique hs hus (hroot.trans hu.symm)
        -- the leaf is the last node of the path that was copied
        have hlast : pub.nodes_to_free.getLast? = some a := by
          rw [hreg.olds_eq]
          rw [ipPath_24.2 hcopy.2] at hpath
          exact getLast?_pathAddrs hpath
        have hcopied := HcfCopied.of_new
          (x := ⟨g.now, ⟨task, pub, false, pub.nodes_to_free⟩, hcfMisses g.sys task, .published,
            false⟩) (fun z hz => Nat.ne_of_lt (hid z hz)) (fun c hc => Nat.ne_of_lt (h.rcu_id c hc))
          hlast
        exact Leaf.of_intact (g := HcfWatch.settle _ _) hrunner hgone
          (hcase.intact h.safe.ledger hi (hnone a)) ⟨Nat.lt_succ_self _, hcopied.look _⟩
      · next hcopy =>
        refine hleaf.kept (k := HcfWatch.settle _ _) hcase h.safe.ledger rfl rfl rfl rfl
          fun a hh => ⟨hnone a, ?_⟩
        refine hh.kept_of h hcase (Nat.le_succ _) (fun hl hpub => ?_)
          (fun id _ hlt hc => ((hc.map hmoves).append (Nat.ne_of_gt hlt)).look _)
          (fun _ _ _ ho _ => ho)
          fun _ _ _ _ ho _ => ⟨ho, fun c _ => hnone c⟩
        obtain ⟨u, hu, hus, hpath⟩ := hpub
        obtain rfl := Stored.unique hs hus (hroot.trans hu.symm)
        -- another prefix: the new tree shares what is below its key
        refine ⟨t', hreg.root_eq, hreg.stored, ?_⟩
        rw [hreg.descend_eq _ fun hpre => hcopy ⟨hl, ipPath_24.1 (hpre.eq_of_length (by simp))⟩]
        exact hpath
    · exact Leaf.of_register (g := HcfWatch.settle _ _) hreg rfl rfl hsafe.ledger

/-- **The watch sees what happens**, in any order. -/
theorem Sound.step (h : g.Sound) (ev : HcfEvent) :
    ∃ s', hcfSysStep g.sys ev = .ok s' ∧ hcfWatchStep g ev = .ok ((g.follow s' ev).settle s') ∧
      ((g.follow s' ev).settle s').Sound := by
  obtain ⟨s', hrun, hsafe, hcase⟩ := hcfSysStep_safe h.safe ev
  refine ⟨s', hrun, by rw [hcfWatchStep, hrun, ok_bind, pure_eq_ok], ?_⟩
  have hcase' := hcase
  cases ev with
  | register A task => exact h.register hrun hsafe hcase
  | announce i => exact h.announce (Except.ok.inj hrun) hsafe hcase
  | callRcu i => exact h.callRcu (Except.ok.inj hrun) hsafe hcase
  | callback i => exact h.callback hrun hsafe hcase
  | historyStart A entries =>
    cases hcase with
    | idle _ hidle => exact h.idle hcase' hidle
    | historyStart hext => exact h.same hsafe hcase' rfl rfl rfl rfl rfl fun _ h => h
    | reader _ hev => exact hev.elim
  | historyEntry A i =>
    cases hcase with
    | idle _ hidle => exact h.idle hcase' hidle
    | historyEntry hb hx hroot hs hg =>
      exact h.same hsafe hcase' rfl rfl rfl rfl rfl fun _ h => h
    | reader _ hev => exact hev.elim
  | historySwap i =>
    have hnone : ∀ a, ¬ g.sys.Frees (.historySwap i) a := fun _ h => h
    have hs' : hcfHistorySwap i g.sys = s' := Except.ok.inj hrun
    unfold hcfHistorySwap at hs'
    show ((g.historySwap i).settle s').Sound
    unfold HcfWatch.historySwap
    cases hb : g.sys.builds[i]? with
    | none =>
      rw [hb] at hs'
      obtain rfl := hs'
      exact h.idle hcase hnone
    | some b =>
      cases hx : b.entries with
      | nil =>
        simp only [hb, hx] at hs' ⊢
        exact h.swap hs' hsafe hcase hnone
      | cons x rest =>
        simp only [hb, hx] at hs' ⊢
        obtain rfl := hs'
        exact h.idle hcase hnone
  | swapNull =>
    have hs' : hcfSwap none { g.sys with builds := g.sys.builds } = s' := Except.ok.inj hrun
    exact h.swap hs' hsafe hcase fun _ h => h
  | syncDone i => exact h.syncDone hrun hsafe hcase
  | readerEnter source_ip ttl =>
    cases hcase with
    | idle _ hidle => exact h.idle hcase' hidle
    | reader _ hev readers clock answers =>
      exact h.same hsafe hcase' rfl rfl rfl rfl rfl fun _ h => h
  | readerStep i =>
    cases hcase with
    | idle _ hidle => exact h.idle hcase' hidle
    | reader _ hev readers clock answers =>
      exact h.same hsafe hcase' rfl rfl rfl rfl rfl fun _ h => h

end HcfWatch

end Librefw
