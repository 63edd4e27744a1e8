import Librefw.Client.Hcf
import Librefw.Hcf.History

/-!
# What a restored history is

The database keeps one row of each address announced (`hcfReceive_nodup`),
and announcements are of distinct prefixes, since the kernel announces a
prefix when it creates its leaf and at no other time (`mem_hcfAnnouncedBy_iff`).
So a restored tree holds of each prefix what was announced of it, in
whatever order the rows come back (`hcfRestore_spec`): the round trip of
the codec (`hcfHistory_round_trip`).

What was announced of a prefix is what its first register work wrote. The
live tree holds what the last one wrote, so the two answer alike exactly
where these are at the same distance (`hcfHistory_restores_first`).
-/

namespace Librefw

variable {e : Endian} {s : HcfState} {M : HcfMap} {announced : List HcfIpCtx}

/-! ## From the announcements to the tree -/

/-- An announcement as the entry of a history. -/
def HcfIpCtx.entry (ctx : HcfIpCtx) : HcfHistoryEntry := ⟨ctx.source_ip, ctx.ttl, ctx.hc⟩

/-- **What is recorded of an announcement is read back.** -/
theorem history_row (e : Endian) (ctx : HcfIpCtx) : (ctx.row e).history e = ctx.entry := by
  have hbyte : ∀ v : U8, BitVec.ofInt 8 (v.toNat : ℤ) = v := by
    intro v
    apply BitVec.eq_of_toNat_eq
    have hlt := v.isLt
    simp only [BitVec.toNat_ofInt]
    omega
  unfold HcfIpv4Row.history HcfIpCtx.row HcfIpCtx.entry
  simp only [Endian.word_ofWord e (w := 4), hbyte]

/-- Announcements of distinct addresses are all recorded. -/
theorem hcfReceive_nodup (rest : List U8) (hnd : (announced.map HcfIpCtx.source_ip).Nodup) :
    hcfReceive e rest announced [] = .ok (announced.map (HcfIpCtx.row e)) := by
  have hfold : ∀ done : List HcfIpCtx, ((done ++ announced).map HcfIpCtx.source_ip).Nodup →
      announced.foldl (fun tab ctx => insertOrIgnore (ctx.row e) tab) (done.map (HcfIpCtx.row e)) =
        (done ++ announced).map (HcfIpCtx.row e) := by
    clear hnd
    induction announced with
    | nil => simp
    | cons ctx announced ih =>
      intro done hnd
      -- a row is ignored if its address is in the table, so the addresses have to differ
      have hnew : (ctx.row e).ip_addr ∉ (done.map (HcfIpCtx.row e)).map HcfIpv4Row.ip_addr := by
        rw [List.map_map]
        intro hmem
        obtain ⟨ctx', hctx', heq⟩ := List.mem_map.1 hmem
        have hip : ctx'.source_ip = ctx.source_ip := by
          have hword := congrArg (e.word 4) heq
          simpa only [Function.comp, HcfIpCtx.row, Endian.word_ofWord e (w := 4)] using hword
        rw [List.map_append, List.nodup_append] at hnd
        exact hnd.2.2 _ (List.mem_map_of_mem hctx') _ (by simp) hip
      have hlen : (ctx.row e).ip_addr.length = 4 := Endian.length_ofWord e (w := 4) _
      have hsplit : done ++ ctx :: announced = done ++ [ctx] ++ announced := by simp
      rw [hsplit] at hnd ⊢
      rw [List.foldl_cons, insertOrIgnore, if_pos ⟨hlen, hnew⟩, ← ih _ hnd]
      simp
  rw [hcfReceive_eq]
  exact congrArg Except.ok (hfold [] hnd)

/-- **From the announcements of distinct prefixes back to a tree.** -/
theorem hcfRestore_spec {t : PtrTrie HcfMeta} (A : Supply) {rows : HcfIpv4History} {room : ℕ}
    (hnd : (announced.map fun x => top24 x.source_ip).Nodup)
    (hperm : rows.Perm (announced.map (HcfIpCtx.row e)))
    (hfit : GENL_HDRLEN + 28 * rows.length ≤ room) (hinv : HcfInv s t) :
    ∃ msg, setIpHistory e room rows = .ok (some msg) ∧ ∀ rest, ∃ s',
      hcfRegisterIpHistory e A.toAllocator (genlAttrs msg rest) s = .ok (0, s') ∧
      HcfRefines s' (HcfMap.restore (announced.map HcfIpCtx.entry)) := by
  have hlen : ∀ row ∈ rows, row.ip_addr.length = 4 := by
    intro row hrow
    obtain ⟨ctx, -, rfl⟩ := List.mem_map.1 (hperm.mem_iff.1 hrow)
    exact Endian.length_ofWord e (w := 4) _
  refine ⟨_, setIpHistory_eq hlen hfit, fun rest => ?_⟩
  obtain ⟨s', hrun, hs'⟩ := hinv.history e A (genlAttrs
    ((genlmsgPut room LFW_NL_CMD_SET_HCF_HISTORY).bytes ++
      streamBytes e (rows.map (HcfIpv4Row.entry e))) rest)
  refine ⟨s', hrun, ?_⟩
  -- what the rows are decoded to, in whatever order they are packed
  have hentries : (rows.map (HcfIpv4Row.history e)).Perm (announced.map HcfIpCtx.entry) := by
    have hmap := hperm.map (HcfIpv4Row.history e)
    rw [List.map_map] at hmap
    exact hmap.trans (List.Perm.of_eq (List.map_congr_left fun ctx _ => history_row e ctx))
  have hnd' : ((announced.map HcfIpCtx.entry).map fun x => top24 x.ip_addr).Nodup := by
    rw [List.map_map]
    exact hnd
  rw [hcfHistoryEntries_rows hlen, HcfMap.restore_perm hnd' hentries] at hs'
  exact hs'

/-- Distinct prefixes are of distinct addresses. -/
theorem nodup_source_ip (hnd : (announced.map fun x => top24 x.source_ip).Nodup) :
    (announced.map HcfIpCtx.source_ip).Nodup := by
  refine List.Nodup.of_map top24 ?_
  rw [List.map_map]
  exact hnd

/-- **The round trip of the hop-count history.** Announced, recorded, packed in
any order of the rows and decoded, addresses of distinct prefixes come back as
the leaves of the tree, each with its time-to-live and hop count, and there are
no others; the text recorded is the dotted quad, and the blob spells the
address. -/
theorem hcfHistory_round_trip {A₀ : Supply} {s₀ : HcfState} {ops : List HcfOp} {xs : List HcfIpCtx}
    {room : ℕ} (A : Supply) (rest rest' : List U8) (hinit : hcfInitState A₀.toAllocator = .ok s₀)
    (hreach : run (hcfStep e) s₀ ops = .ok s)
    (hdistinct : (xs.map fun x => top24 x.source_ip).Nodup)
    (hfit : GENL_HDRLEN + 28 * xs.length ≤ room) :
    ∃ tab, hcfReceive e rest xs [] = .ok tab ∧
      List.Forall₂ (fun row x => row.ip_addr_str = dottedQuad x.source_ip ∧
        e.word 4 row.ip_addr = x.source_ip) tab xs ∧
      ∀ rows : HcfIpv4History, rows.Perm tab → ∃ msg s',
        setIpHistory e room rows = .ok (some msg) ∧
        hcfRegisterIpHistory e A.toAllocator (genlAttrs msg rest') s = .ok (0, s') ∧
        (∀ x ∈ xs, hcfLeaf s' x.source_ip = .ok (some ⟨x.hc, x.ttl⟩)) ∧
        ∀ ip, (∀ x ∈ xs, top24 x.source_ip ≠ top24 ip) → hcfLeaf s' ip = .ok none := by
  refine ⟨_, hcfReceive_nodup rest (nodup_source_ip hdistinct), ?_, fun rows hperm => ?_⟩
  · rw [List.forall₂_map_left_iff]
    exact List.forall₂_same.2 fun x _ => ⟨rfl, Endian.word_ofWord e (w := 4) _⟩
  · -- the tree the history replaces is any that a run reaches
    obtain ⟨t, hinv⟩ := hcfRun_inv hinit hreach
    have hlen := hperm.length_eq
    rw [List.length_map] at hlen
    have hfit' : GENL_HDRLEN + 28 * rows.length ≤ room := by omega
    obtain ⟨msg, hset, hrestore⟩ := hcfRestore_spec A hdistinct hperm hfit' hinv
    obtain ⟨s', hrun, hs'⟩ := hrestore rest'
    have hnd : ((xs.map HcfIpCtx.entry).map fun x => top24 x.ip_addr).Nodup := by
      rw [List.map_map]
      exact hdistinct
    refine ⟨msg, s', hset, hrun, fun x hx => ?_, fun ip hip => ?_⟩
    · obtain ⟨leaf, hleaf, hentry⟩ := hs'.leaf x.source_ip
      have hmem := HcfMap.restore_of_mem hnd (List.mem_map_of_mem (f := HcfIpCtx.entry) hx)
      have hentry' := hentry.trans hmem
      rw [Option.map_eq_some_iff] at hentry'
      obtain ⟨y, rfl, hy⟩ := hentry'
      obtain rfl : y = ⟨x.hc, x.ttl⟩ := HcfMeta.entry_inj hy
      exact hleaf
    · obtain ⟨leaf, hleaf, hentry⟩ := hs'.leaf ip
      rw [HcfMap.restore_of_notMem, Option.map_eq_none_iff] at hentry
      · rw [hleaf, hentry]
      · intro y hy
        obtain ⟨x, hx, rfl⟩ := List.mem_map.1 hy
        exact hip x hx

/-- Two addresses of distinct prefixes. -/
def hcfSampleAnnounced : List HcfIpCtx := [⟨0x0A000001#32, 60, 4⟩, ⟨0xC0000201#32, 128, 0⟩]

/-- On a big-endian host, restored in the other order. -/
theorem hcfHistory_round_trip_sample :
    ∃ s₀ tab msg s', hcfInitState Supply.next.toAllocator = .ok s₀ ∧
      hcfReceive .big [] hcfSampleAnnounced [] = .ok tab ∧
      setIpHistory .big 4076 tab.reverse = .ok (some msg) ∧
      hcfRegisterIpHistory .big Supply.next.toAllocator (genlAttrs msg []) s₀ = .ok (0, s') ∧
      hcfLeaf s' 0xC0000201#32 = .ok (some ⟨0, 128⟩) := by
  obtain ⟨a, s₀, hinit, -⟩ := hcfInitState_spec Supply.next
  have hnil : run (hcfStep .big) s₀ [] = .ok s₀ := rfl
  have hdistinct : (hcfSampleAnnounced.map fun x => top24 x.source_ip).Nodup := by decide
  have hfit : GENL_HDRLEN + 28 * hcfSampleAnnounced.length ≤ 4076 := by decide
  have hmem : (⟨0xC0000201#32, 128, 0⟩ : HcfIpCtx) ∈ hcfSampleAnnounced := by decide
  obtain ⟨tab, htab, -, hback⟩ :=
    hcfHistory_round_trip Supply.next [] [] hinit hnil hdistinct hfit
  obtain ⟨msg, s', hset, hrun, hleaf, -⟩ := hback tab.reverse (List.reverse_perm tab)
  have hfound := hleaf _ hmem
  exact ⟨s₀, tab, msg, s', hinit, htab, hset, hrun, hfound⟩

/-! ## What was announced -/

/-- What a register work announces when it does. -/
def HcfAddNodeTask.ctx (task : HcfAddNodeTask) : HcfIpCtx :=
  ⟨task.source_ip, task.ttl, (hcfMetaOf task.ttl).hc⟩

/-- The distance a register work learns. -/
def HcfAddNodeTask.hop (task : HcfAddNodeTask) : ℤ := hcfGetInitialTtl task.ttl - task.ttl.toNat

/-- The first register work of a prefix. -/
def hcfFirst (tasks : List HcfAddNodeTask) (k : BitVec 24) : Option HcfAddNodeTask :=
  tasks.find? fun task => top24 task.source_ip = k

/-- The last register work of a prefix. -/
def hcfLast (tasks : List HcfAddNodeTask) (k : BitVec 24) : Option HcfAddNodeTask :=
  tasks.reverse.find? fun task => top24 task.source_ip = k

/-- The announcements of a sequence of works on a map. -/
def hcfAnnouncedBy : HcfMap → List HcfAddNodeTask → List HcfIpCtx
  | _, [] => []
  | M, task :: tasks =>
    (if (M (top24 task.source_ip)).isSome then [] else [task.ctx]) ++
      hcfAnnouncedBy (M.register task) tasks

/-- **A sequence of works** is a sequence of writes to the map, and announces
what is new. -/
theorem HcfRefines.learn (tasks : List (Supply × HcfAddNodeTask)) (h : HcfRefines s M) :
    ∃ s', hcfLearn tasks s = .ok (hcfAnnouncedBy M (tasks.map Prod.snd), s') ∧
      HcfRefines s' ((tasks.map Prod.snd).foldl HcfMap.register M) := by
  induction tasks generalizing s M with
  | nil => exact ⟨s, rfl, h⟩
  | cons x tasks ih =>
    obtain ⟨A, task⟩ := x
    obtain ⟨s₁, hwork, h₁⟩ := h.work A task
    obtain ⟨s', hlearn, hs'⟩ := ih h₁
    refine ⟨s', ?_, hs'⟩
    simp only [hcfLearn, hwork, ok_bind, hlearn, pure_eq_ok, List.map_cons, hcfAnnouncedBy]
    split <;> rfl

/-- The live map holds what the last work of a prefix wrote. -/
theorem foldl_register_eq (tasks : List HcfAddNodeTask) (k : BitVec 24) :
    tasks.foldl HcfMap.register HcfMap.empty k =
      (hcfLast tasks k).map fun task => ⟨task.hop, task.ttl⟩ := by
  unfold hcfLast
  induction tasks using List.reverseRecOn with
  | nil => rfl
  | append_singleton tasks task ih =>
    rw [List.foldl_append, List.foldl_cons, List.foldl_nil, List.reverse_append,
      List.reverse_singleton, List.singleton_append, List.find?_cons, HcfMap.register, HcfMap.write]
    by_cases hk : top24 task.source_ip = k
    · subst hk
      simp [HcfAddNodeTask.hop]
    · rw [Function.update_of_ne (Ne.symm hk), ih]
      simp [hk]

/-- **What is announced of a prefix** that is not mapped yet is what its first
work wrote. -/
theorem mem_hcfAnnouncedBy_iff {tasks : List HcfAddNodeTask} {ctx : HcfIpCtx} :
    ctx ∈ hcfAnnouncedBy M tasks ↔ M (top24 ctx.source_ip) = none ∧
      ∃ task, hcfFirst tasks (top24 ctx.source_ip) = some task ∧ ctx = task.ctx := by
  unfold hcfFirst
  induction tasks generalizing M with
  | nil => simp [hcfAnnouncedBy]
  | cons task tasks ih =>
    rw [hcfAnnouncedBy, List.mem_append, ih, HcfMap.register, HcfMap.write, List.find?_cons]
    by_cases hk : top24 task.source_ip = top24 ctx.source_ip
    · -- this is the first one: it alone can be announced
      simp only [hk, Function.update_self, reduceCtorEq, false_and, or_false, decide_true,
        Option.some.injEq, exists_eq_left']
      cases hM : M (top24 ctx.source_ip) with
      | none => simp
      | some x => simp
    · have hne : ctx ≠ task.ctx := by
        rintro rfl
        exact hk rfl
      rw [Function.update_of_ne (Ne.symm hk)]
      simp only [hk, decide_false]
      split <;> simp [hne]

theorem hcfAnnouncedBy_nodup (tasks : List HcfAddNodeTask) (M : HcfMap) :
    ((hcfAnnouncedBy M tasks).map fun x => top24 x.source_ip).Nodup := by
  induction tasks generalizing M with
  | nil => exact List.nodup_nil
  | cons task tasks ih =>
    rw [hcfAnnouncedBy]
    split
    · exact ih _
    · rw [List.singleton_append, List.map_cons, List.nodup_cons]
      refine ⟨fun hmem => ?_, ih _⟩
      obtain ⟨ctx, hctx, heq⟩ := List.mem_map.1 hmem
      have hnone := (mem_hcfAnnouncedBy_iff.1 hctx).1
      rw [heq, HcfMap.register, HcfMap.write] at hnone
      simp [HcfAddNodeTask.ctx] at hnone

/-- What a restored history holds of a prefix is what its first work wrote. -/
theorem restore_hcfAnnouncedBy (tasks : List HcfAddNodeTask) (k : BitVec 24) :
    HcfMap.restore ((hcfAnnouncedBy HcfMap.empty tasks).map HcfIpCtx.entry) k =
      (hcfFirst tasks k).map fun task => ⟨task.hop, task.ttl⟩ := by
  have hnd := hcfAnnouncedBy_nodup tasks HcfMap.empty
  cases hfirst : hcfFirst tasks k with
  | none =>
    refine HcfMap.restore_of_notMem fun x hx heq => ?_
    obtain ⟨ctx, hctx, rfl⟩ := List.mem_map.1 hx
    obtain ⟨-, task, htask, -⟩ := mem_hcfAnnouncedBy_iff.1 hctx
    have heq' : top24 ctx.source_ip = k := heq
    rw [heq', hfirst] at htask
    cases htask
  | some task =>
    have hk : top24 task.source_ip = k := by
      have hfound := List.find?_some hfirst
      exact of_decide_eq_true hfound
    subst hk
    -- the first work of a prefix finds no leaf, so it is announced
    have hmem : task.ctx ∈ hcfAnnouncedBy HcfMap.empty tasks :=
      mem_hcfAnnouncedBy_iff.2 ⟨rfl, task, hfirst, rfl⟩
    have hnd' : (((hcfAnnouncedBy HcfMap.empty tasks).map HcfIpCtx.entry).map
        fun x => top24 x.ip_addr).Nodup := by
      rw [List.map_map]
      exact hnd
    refine (HcfMap.restore_of_mem hnd' (List.mem_map_of_mem hmem)).trans ?_
    have hhop : ((hcfMetaOf task.ttl).hc.toNat : ℤ) = task.hop := hcfMetaOf_hc task.ttl
    simp only [HcfIpCtx.entry, HcfAddNodeTask.ctx, Option.map_some, hhop]

/-- **Learn, announce, record, restore.** The live tree answers by the last work
of a prefix, the restored one by its first. -/
theorem hcfRelearn_spec (e : Endian) (A₀ A : Supply) (tasks : List (Supply × HcfAddNodeTask))
    (rest rest' : List U8) :
    ∃ s₀ announced s tab, hcfInitState A₀.toAllocator = .ok s₀ ∧
      hcfLearn tasks s₀ = .ok (announced, s) ∧ hcfReceive e rest announced [] = .ok tab ∧
      ∀ (rows : HcfIpv4History) (room : ℕ), rows.Perm tab →
        GENL_HDRLEN + 28 * rows.length ≤ room → ∃ msg s',
          setIpHistory e room rows = .ok (some msg) ∧
          hcfRegisterIpHistory e A.toAllocator (genlAttrs msg rest') s = .ok (0, s') ∧
          ∀ source_ip ttl,
            hcfLookupTree s'.tree s'.mem source_ip ttl = .ok (HcfMap.answer ttl
              ((hcfFirst (tasks.map Prod.snd) (top24 source_ip)).map fun x => ⟨x.hop, x.ttl⟩)) ∧
            hcfLookupTree s.tree s.mem source_ip ttl = .ok (HcfMap.answer ttl
              ((hcfLast (tasks.map Prod.snd) (top24 source_ip)).map fun x => ⟨x.hop, x.ttl⟩)) := by
  obtain ⟨s₀, hinit, hs₀⟩ := hcfInitState_refines A₀
  obtain ⟨s, hlearn, hs⟩ := hs₀.learn tasks
  have hnd := hcfAnnouncedBy_nodup (tasks.map Prod.snd) HcfMap.empty
  refine ⟨s₀, _, s, _, hinit, hlearn, hcfReceive_nodup rest (nodup_source_ip hnd),
    fun rows room hperm hfit => ?_⟩
  obtain ⟨t, hinv, -⟩ := id hs
  obtain ⟨msg, hset, hrestore⟩ := hcfRestore_spec A hnd hperm hfit hinv
  obtain ⟨s', hrun, hs'⟩ := hrestore rest'
  refine ⟨msg, s', hset, hrun, fun source_ip ttl => ⟨?_, ?_⟩⟩
  · rw [hs'.lookup, HcfMap.lookup, restore_hcfAnnouncedBy]
  · rw [hs.lookup, HcfMap.lookup, foldl_register_eq]

/-! ## The distances a lookup tells apart -/

/-- Every distance up to 126 is that of some time-to-live. -/
theorem exists_ttl {c : ℤ} (h0 : 0 ≤ c) (h : c ≤ 126) :
    ∃ ttl : U8, hcfGetInitialTtl ttl - ttl.toNat = c := by
  have hnat : (BitVec.ofNat 8 (255 - c.toNat)).toNat = 255 - c.toNat := by
    rw [BitVec.toNat_ofNat, Nat.mod_eq_of_lt (by omega)]
  refine ⟨BitVec.ofNat 8 (255 - c.toNat), ?_⟩
  unfold hcfGetInitialTtl
  rw [if_neg, if_neg, hnat]
  · omega
  · rw [BitVec.le_def, hnat, BitVec.toNat_ofNat]
    omega
  · rw [BitVec.le_def, hnat, BitVec.toNat_ofNat]
    omega

/-- Two distances within two of the same distances are the same, or out of the
reach of all. -/
theorem min_eq_of_within {a b : ℤ} (ha : 0 ≤ a) (hb : 0 ≤ b)
    (h : ∀ c, 0 ≤ c → c ≤ 126 → ((c - a).natAbs ≤ 2 ↔ (c - b).natAbs ≤ 2)) :
    min a 129 = min b 129 := by
  have hlt : ∀ {a b : ℤ}, 0 ≤ a →
      (∀ c, 0 ≤ c → c ≤ 126 → ((c - a).natAbs ≤ 2 ↔ (c - b).natAbs ≤ 2)) → a < b → 129 ≤ a := by
    intro a b ha h hab
    by_contra hnear
    by_cases h2 : 2 ≤ a
    · have hlow := h (a - 2) (by omega) (by omega)
      omega
    · by_cases h124 : b ≤ 124
      · have hhigh := h (b + 2) (by omega) (by omega)
        omega
      · have hself := h a ha (by omega)
        omega
  rcases lt_trichotomy a b with hab | hab | hab
  · have := hlt ha h hab
    omega
  · rw [hab]
  · have := hlt hb (fun c h0 hc => (h c h0 hc).symm) hab
    omega

namespace HcfMap

theorem answer_eq_neg_one {ttl : U8} {x : Option HcfEntry} : answer ttl x = -1 ↔ x = none := by
  cases x with
  | none => simp [answer]
  | some x =>
    simp only [answer, reduceCtorEq, iff_false]
    split <;> omega

/-- **Two entries answer alike** for every time-to-live exactly if both are
missing, at the same distance, or out of reach. -/
theorem answer_eq_iff {x y : Option HcfEntry} (hx : ∀ a ∈ x, 0 ≤ a.hc) (hy : ∀ b ∈ y, 0 ≤ b.hc) :
    (∀ ttl, answer ttl x = answer ttl y) ↔
      x.map (fun a => min a.hc 129) = y.map fun b => min b.hc 129 := by
  cases x with
  | none =>
    refine ⟨fun h => ?_, fun h ttl => ?_⟩
    · rw [answer_eq_neg_one.1 (h 0).symm]
    · rw [Option.map_eq_none_iff.1 h.symm]
  | some a =>
    cases y with
    | none =>
      refine ⟨fun h => ?_, fun h => nomatch h⟩
      exact absurd (answer_eq_neg_one.1 (h 0)) (Option.some_ne_none a)
    | some b =>
      rw [Option.map_some, Option.map_some, Option.some.injEq]
      constructor
      · intro h
        -- a packet can be at any distance from 0 to 126, which is enough to tell them apart
        refine min_eq_of_within (hx a rfl) (hy b rfl) fun c h0 h126 => ?_
        obtain ⟨ttl, rfl⟩ := exists_ttl h0 h126
        have hans := h ttl
        simp only [answer] at hans
        split at hans <;> split at hans <;> omega
      · intro hmin ttl
        have hrange := hcfGetInitialTtl_bounds ttl
        have hwithin : ((hcfGetInitialTtl ttl - ttl.toNat) - a.hc).natAbs ≤ 2 ↔
            ((hcfGetInitialTtl ttl - ttl.toNat) - b.hc).natAbs ≤ 2 := by omega
        simp only [answer, hwithin]

end HcfMap

/-! ## When a restored tree answers as the live one -/

theorem HcfAddNodeTask.hop_range (task : HcfAddNodeTask) : 0 ≤ task.hop ∧ task.hop ≤ 126 :=
  hcfGetInitialTtl_bounds task.ttl

/-- A prefix without a first work has no last one. -/
theorem hcfFirst_eq_none_iff {tasks : List HcfAddNodeTask} {k : BitVec 24} :
    hcfFirst tasks k = none ↔ hcfLast tasks k = none := by
  simp [hcfFirst, hcfLast, List.find?_eq_none]

/-- Two works of a prefix answer alike for every time-to-live exactly if they are
at the same distance. -/
theorem answer_eq_iff {x y : Option HcfAddNodeTask} :
    (∀ ttl, HcfMap.answer ttl (x.map fun task => ⟨task.hop, task.ttl⟩) =
        HcfMap.answer ttl (y.map fun task => ⟨task.hop, task.ttl⟩)) ↔
      x.map HcfAddNodeTask.hop = y.map HcfAddNodeTask.hop := by
  have hmin : ∀ task : HcfAddNodeTask, min task.hop 129 = task.hop := fun task => by
    have := task.hop_range
    omega
  rw [HcfMap.answer_eq_iff]
  · simp only [Option.map_map, Function.comp_def, hmin]
  · intro a ha
    obtain ⟨task, -, rfl⟩ := Option.mem_map.1 ha
    exact task.hop_range.1
  · intro a ha
    obtain ⟨task, -, rfl⟩ := Option.mem_map.1 ha
    exact task.hop_range.1

/-- **A restored tree holds what was first learned.** After any sequence of works
from an empty tree, its announcements recorded in order and restored from the
rows in any order, the restored tree answers for every source by the first work
of its prefix, where the live tree answers by the last: for the same sources as
unknown, and for all times-to-live alike exactly if the two are at the same
distance. -/
theorem hcfHistory_restores_first (e : Endian) (A₀ A : Supply)
    (tasks : List (Supply × HcfAddNodeTask)) (rest rest' : List U8) :
    ∃ s₀ announced s tab, hcfInitState A₀.toAllocator = .ok s₀ ∧
      hcfLearn tasks s₀ = .ok (announced, s) ∧ hcfReceive e rest announced [] = .ok tab ∧
      ∀ (rows : HcfIpv4History) (room : ℕ), rows.Perm tab →
        GENL_HDRLEN + 28 * rows.length ≤ room → ∃ msg s',
          setIpHistory e room rows = .ok (some msg) ∧
          hcfRegisterIpHistory e A.toAllocator (genlAttrs msg rest') s = .ok (0, s') ∧
          ∀ source_ip,
            (∀ ttl, hcfLookupTree s'.tree s'.mem source_ip ttl = .ok (HcfMap.answer ttl
              ((hcfFirst (tasks.map Prod.snd) (top24 source_ip)).map fun x => ⟨x.hop, x.ttl⟩))) ∧
            (∀ ttl, hcfLookupTree s'.tree s'.mem source_ip ttl = .ok (-1) ↔
              hcfLookupTree s.tree s.mem source_ip ttl = .ok (-1)) ∧
            ((∀ ttl, hcfLookupTree s'.tree s'.mem source_ip ttl =
                hcfLookupTree s.tree s.mem source_ip ttl) ↔
              (hcfFirst (tasks.map Prod.snd) (top24 source_ip)).map HcfAddNodeTask.hop =
                (hcfLast (tasks.map Prod.snd) (top24 source_ip)).map HcfAddNodeTask.hop) := by
  obtain ⟨s₀, announced, s, tab, hinit, hlearn, hreceive, hback⟩ :=
    hcfRelearn_spec e A₀ A tasks rest rest'
  refine ⟨s₀, announced, s, tab, hinit, hlearn, hreceive, fun rows room hperm hfit => ?_⟩
  obtain ⟨msg, s', hset, hrun, hlookup⟩ := hback rows room hperm hfit
  refine ⟨msg, s', hset, hrun, fun source_ip => ⟨fun ttl => (hlookup source_ip ttl).1,
    fun ttl => ?_, ?_⟩⟩
  · rw [(hlookup source_ip ttl).1, (hlookup source_ip ttl).2, Except.ok.injEq, Except.ok.injEq,
      HcfMap.answer_eq_neg_one, HcfMap.answer_eq_neg_one, Option.map_eq_none_iff,
      Option.map_eq_none_iff, hcfFirst_eq_none_iff]
  · rw [← answer_eq_iff]
    refine forall_congr' fun ttl => ?_
    rw [(hlookup source_ip ttl).1, (hlookup source_ip ttl).2, Except.ok.injEq]

/-- Two packets of one address, the second from further away: restored, the tree
takes the second for spoofed. -/
theorem hcfHistory_restores_stale :
    ¬ ∀ (e : Endian) (A₀ A : Supply) (tasks : List (Supply × HcfAddNodeTask)) (rest rest' : List U8)
      (s₀ s s' : HcfState) (announced : List HcfIpCtx) (tab rows : HcfIpv4History) (room : ℕ)
      (msg : List U8), hcfInitState A₀.toAllocator = .ok s₀ →
      hcfLearn tasks s₀ = .ok (announced, s) → hcfReceive e rest announced [] = .ok tab →
      rows.Perm tab → GENL_HDRLEN + 28 * rows.length ≤ room →
      setIpHistory e room rows = .ok (some msg) →
      hcfRegisterIpHistory e A.toAllocator (genlAttrs msg rest') s = .ok (0, s') →
      ∀ source_ip ttl, hcfLookupTree s'.tree s'.mem source_ip ttl =
        hcfLookupTree s.tree s.mem source_ip ttl := by
  intro h
  obtain ⟨s₀, announced, s, tab, hinit, hlearn, hreceive, hback⟩ :=
    hcfRelearn_spec .little Supply.next Supply.next
      [(.next, ⟨0x01020304#32, 64⟩), (.next, ⟨0x01020304#32, 50⟩)] [] []
  obtain ⟨msg, s', hset, hrun, hlookup⟩ := hback tab _ (List.Perm.refl tab) (le_refl _)
  have hclaim := h .little _ _ _ _ _ _ _ _ _ _ _ _ _ hinit hlearn hreceive (List.Perm.refl tab)
    (le_refl _) hset hrun 0x01020304#32 50
  rw [(hlookup _ _).1, (hlookup _ _).2, Except.ok.injEq] at hclaim
  revert hclaim
  decide +kernel

end Librefw
