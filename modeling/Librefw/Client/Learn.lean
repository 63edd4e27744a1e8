import Librefw.Client.History

/-!
# What a run of tasks announces

A work announces if it created a node, and it creates one where its leaf
was missing; so of a run of works it is the first of each prefix that the
tree lacked (`hcfNewcomers`), once, in order (`hcfLearn_announces`).
-/

namespace Librefw

variable {s : HcfState} {M : HcfMap} {tasks : List HcfAddNodeTask} {task : HcfAddNodeTask}

/-- There is no leaf at the address's path. -/
def hcfAbsent (s : HcfState) (source_ip : U32) : Bool :=
  match hcfLeaf s source_ip with
  | .ok none => true
  | _ => false

/-- The `i`-th task is the first of its prefix, and the prefix is not in the tree. -/
def hcfNewcomer (s : HcfState) (tasks : List HcfAddNodeTask) (i : ℕ) : Bool :=
  tasks[i]?.any fun task => hcfAbsent s task.source_ip &&
    (tasks.take i).all fun before => top24 before.source_ip ≠ top24 task.source_ip

/-- The entries of these tasks, in order. -/
def hcfNewcomers (s : HcfState) (tasks : List HcfAddNodeTask) : List HcfIpCtx :=
  ((List.range tasks.length).filter (hcfNewcomer s tasks)).filterMap fun i =>
    tasks[i]?.map HcfAddNodeTask.ctx

/-- The multicasts of a list of announcements. -/
def hcfMulticasts (e : Endian) (announced : List HcfIpCtx) : Except ℤ (List (List U8)) :=
  announced.mapM (hcfLogNewIpMsg e)

theorem HcfRefines.absent_iff (h : HcfRefines s M) (ip : U32) :
    hcfAbsent s ip = (M (top24 ip)).isNone := by
  obtain ⟨x, hx, hmap⟩ := h.leaf ip
  rw [hcfAbsent, hx, ← hmap]
  cases x <;> rfl

/-- One more task at the end. -/
theorem hcfNewcomers_append (s : HcfState) (tasks : List HcfAddNodeTask) (task : HcfAddNodeTask) :
    hcfNewcomers s (tasks ++ [task]) = hcfNewcomers s tasks ++
      if hcfAbsent s task.source_ip ∧
          ∀ before ∈ tasks, top24 before.source_ip ≠ top24 task.source_ip then [task.ctx] else [] := by
  -- the tasks before it are judged as they were
  have hold : ∀ i ∈ List.range tasks.length,
      hcfNewcomer s (tasks ++ [task]) i = hcfNewcomer s tasks i := by
    intro i hi
    have hlt := List.mem_range.1 hi
    rw [hcfNewcomer, hcfNewcomer, List.getElem?_append_left hlt,
      List.take_append_of_le_length (le_of_lt hlt)]
  have hget : ∀ i ∈ (List.range tasks.length).filter (hcfNewcomer s tasks),
      (tasks ++ [task])[i]?.map HcfAddNodeTask.ctx = tasks[i]?.map HcfAddNodeTask.ctx := by
    intro i hi
    rw [List.getElem?_append_left (List.mem_range.1 (List.mem_filter.1 hi).1)]
  have hnew : hcfNewcomer s (tasks ++ [task]) tasks.length = true ↔
      hcfAbsent s task.source_ip ∧
        ∀ before ∈ tasks, top24 before.source_ip ≠ top24 task.source_ip := by
    simp [hcfNewcomer]
  rw [hcfNewcomers, List.length_append, List.length_singleton, List.range_succ, List.filter_append,
    List.filterMap_append, List.filter_congr hold, List.filterMap_congr hget]
  congr 1
  by_cases h : hcfNewcomer s (tasks ++ [task]) tasks.length = true
  · rw [if_pos (hnew.1 h)]
    simp [h]
  · rw [if_neg (mt hnew.2 h)]
    simp [h]

/-- And in terms of the map. -/
theorem hcfAnnouncedBy_append (M : HcfMap) (tasks : List HcfAddNodeTask) (task : HcfAddNodeTask) :
    hcfAnnouncedBy M (tasks ++ [task]) = hcfAnnouncedBy M tasks ++
      if M (top24 task.source_ip) = none ∧
          ∀ before ∈ tasks, top24 before.source_ip ≠ top24 task.source_ip then [task.ctx] else [] := by
  induction tasks generalizing M with
  | nil =>
    cases hM : M (top24 task.source_ip) <;> simp [hcfAnnouncedBy, hM]
  | cons first tasks ih =>
    rw [List.cons_append, hcfAnnouncedBy, hcfAnnouncedBy, ih, List.append_assoc]
    congr 2
    by_cases hk : top24 first.source_ip = top24 task.source_ip
    · simp [HcfMap.register, HcfMap.write, hk]
    · simp [HcfMap.register, HcfMap.write, Function.update_of_ne (Ne.symm hk), hk]

/-- **The announcements of a run of works** are the newcomers. -/
theorem HcfRefines.announcedBy_eq (h : HcfRefines s M) (tasks : List HcfAddNodeTask) :
    hcfAnnouncedBy M tasks = hcfNewcomers s tasks := by
  induction tasks using List.reverseRecOn with
  | nil => rfl
  | append_singleton tasks task ih =>
    simp only [hcfAnnouncedBy_append, hcfNewcomers_append, ih, h.absent_iff,
      Option.isNone_iff_eq_none]

/-- Every announcement is multicast. -/
theorem hcfMulticasts_eq (e : Endian) (announced : List HcfIpCtx) :
    hcfMulticasts e announced = .ok (announced.map fun ctx =>
      (genlmsgPut (GENL_HDRLEN + NLMSG_GOODSIZE) LFW_NL_CMD_HCF).bytes ++
        streamBytes e (ctx.fields e)) := by
  induction announced with
  | nil => rfl
  | cons ctx announced ih =>
    rw [hcfMulticasts] at ih ⊢
    rw [List.mapM_cons, hcfLogNewIpMsg_eq, ok_bind, ih]
    rfl

theorem mem_hcfNewcomers {ctx : HcfIpCtx} (h : ctx ∈ hcfNewcomers s tasks) :
    ∃ task ∈ tasks, ctx = task.ctx := by
  obtain ⟨i, -, hi⟩ := List.mem_filterMap.1 h
  obtain ⟨task, htask, rfl⟩ := Option.map_eq_some_iff.1 hi
  exact ⟨task, List.mem_of_getElem? htask, rfl⟩

/-- **Each learned prefix is announced exactly once.** From every state the tree can reach,
a run of tasks multicasts the address, the TTL and the hop count of the first task of each
prefix that was absent, in order, and nothing else. -/
theorem hcfLearn_announces (e : Endian) {A₀ : Supply} {s₀ : HcfState} {ops : List HcfOp}
    (hinit : hcfInitState A₀.toAllocator = .ok s₀) (hrun : run (hcfStep e) s₀ ops = .ok s)
    (tasks : List (Supply × HcfAddNodeTask)) :
    ∃ s', hcfLearn tasks s = .ok (hcfNewcomers s (tasks.map Prod.snd), s') ∧
      hcfMulticasts e (hcfNewcomers s (tasks.map Prod.snd)) =
        .ok ((hcfNewcomers s (tasks.map Prod.snd)).map fun ctx =>
          (genlmsgPut (GENL_HDRLEN + NLMSG_GOODSIZE) LFW_NL_CMD_HCF).bytes ++
            streamBytes e [⟨LFW_NLA_HCF_IP, e.ofWord (w := 4) ctx.source_ip⟩,
              ⟨LFW_NLA_HCF_TTL, [ctx.ttl]⟩, ⟨LFW_NLA_HCF_HC, [ctx.hc]⟩]) ∧
      ∀ ctx ∈ hcfNewcomers s (tasks.map Prod.snd),
        (ctx.hc.toNat : ℤ) = hcfGetInitialTtl ctx.ttl - ctx.ttl.toNat := by
  obtain ⟨M, h⟩ := hcfRun_maps hinit hrun
  obtain ⟨s', hlearn, -⟩ := h.learn tasks
  rw [h.announcedBy_eq] at hlearn
  refine ⟨s', hlearn, hcfMulticasts_eq e _, fun ctx hctx => ?_⟩
  obtain ⟨task, -, rfl⟩ := mem_hcfNewcomers hctx
  exact hcfMetaOf_hc task.ttl

/-- Of three tasks the second has the prefix of the first, and is silent. -/
theorem hcfLearn_announces_sample :
    ∃ s', hcfLearn [(Supply.next, ⟨0x0A000001#32, 60⟩), (Supply.next, ⟨0x0A0000FF#32, 100⟩),
        (Supply.next, ⟨0xC0000201#32, 128⟩)] hcfFirstState =
      .ok ([⟨0x0A000001#32, 60, 4⟩, ⟨0xC0000201#32, 128, 0⟩], s') := by
  have hnil : run (hcfStep .little) hcfFirstState [] = .ok hcfFirstState := rfl
  obtain ⟨s', hlearn, -⟩ := hcfLearn_announces .little hcfInitState_first hnil
    [(Supply.next, ⟨0x0A000001#32, 60⟩), (Supply.next, ⟨0x0A0000FF#32, 100⟩),
      (Supply.next, ⟨0xC0000201#32, 128⟩)]
  exact ⟨s', hlearn⟩

end Librefw
