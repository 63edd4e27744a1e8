import Librefw.Deployment.Messages
import Librefw.Filter.Verdict

/-!
# What a host drops

The host in its own terms is the firewall and what the listener recorded
(`LfwHostSpec`): the lines of a file, the flag the administrator chose and
the records of the database, without messages, attributes or memory. Every
event of the host is a step of it, whatever fits into a message and
whatever does not (`lfwHostStep_means`), so the hook drops what the
firewall drops (`lfwHost_drop_iff`).
-/

namespace Librefw

variable {e : Endian} {capacity : U32}

/-! ## The host in its own terms -/

/-- The prefix a line blocks. -/
def BogonLine.blocked (l : BogonLine) : U32 × U8 := (l.address, BitVec.ofNat 8 (digitsVal l.decimal))

/-- The lines of a file that the module comes to load: all if their number fits after them; those
that fit, if there is room for their number but not for the next line; else none. -/
def bogonLoaded (capacity : ℕ) (lines : List BogonLine) : List BogonLine :=
  if 28 + 20 * lines.length ≤ capacity then lines
  else if 20 ≤ capacity ∧ capacity < 20 + 20 * lines.length ∧ 8 ≤ (capacity - 20) % 20 then
    lines.take ((capacity - 20) / 20)
  else []

/-- A list takes the place of the one there was, unless it is empty. -/
def Firewall.load (fw : Firewall) (lines : List BogonLine) : Firewall :=
  if lines = [] then fw else { fw with bogon := lines.map BogonLine.blocked }

/-- An announcement is recorded unless its address is. -/
def hcfRecord (records : List HcfIpCtx) (ctx : HcfIpCtx) : List HcfIpCtx :=
  if ctx.source_ip ∈ records.map HcfIpCtx.source_ip then records else records ++ [ctx]

/-- The firewall, and what the listener recorded. -/
structure LfwHostSpec where
  fw : Firewall
  records : List HcfIpCtx

namespace LfwHostSpec

def init : LfwHostSpec := ⟨.init, []⟩

/-- The `i`-th work runs. What it writes is recorded if the prefix is new to the firewall and the
listener is there. -/
def work (t : LfwHostSpec) (i : ℕ) (listening : Bool) : LfwHostSpec where
  fw := t.fw.work i
  records :=
    match t.fw.pending[i]? with
    | none => t.records
    | some task =>
      if listening = true ∧ t.fw.hops (top24 task.source_ip) = none then hcfRecord t.records task.ctx
      else t.records

/-- A list is set from a file. -/
def setBogon (t : LfwHostSpec) (capacity : ℕ) (file : BogonFile) : LfwHostSpec :=
  { t with fw := t.fw.load (bogonLoaded capacity file.lines) }

/-- The map that the records give in the order of a query. -/
def restored (e : Endian) (records : List HcfIpCtx) (order : RowOrder) : HcfMap :=
  HcfMap.restore ((order.arrange (records.map (HcfIpCtx.row e))).map (HcfIpv4Row.history e))

/-- The history is restored from the records, if they fit. -/
def setHcf (e : Endian) (t : LfwHostSpec) (capacity : ℕ) (order : RowOrder) : LfwHostSpec :=
  if 20 + 28 * t.records.length ≤ capacity then
    { t with fw := { t.fw with hops := restored e t.records order } }
  else t

/-- What an event does. -/
def step (e : Endian) (capacity : U32) (t : LfwHostSpec) : LfwHostEvent → LfwHostSpec
  | .learn skb => { t with fw := t.fw.learn (Ipv4.parse (skb.data.drop skb.network_offset)) }
  | .work _ i listening _ => t.work i listening
  | .setBogon _ _ file _ => t.setBogon capacity.toNat file
  | .underAttack _ set _ =>
    if (if set then 24 else 20) ≤ capacity.toNat then { t with fw := { t.fw with underAttack := set } }
    else t
  | .setHcf _ order _ => t.setHcf e capacity.toNat order
  | .boot _ => { t with fw := .init }
  | .bogonCallback _ | .hcfCallback _ | .stateCallback _ => t

end LfwHostSpec

/-- **The host stands for `t`.** -/
structure LfwHostMeans (e : Endian) (s : LfwHost) (t : LfwHostSpec) : Prop where
  kernel : FwRefines s.kernel t.fw
  tab : s.tab = t.records.map (HcfIpCtx.row e)
  nodup : (t.records.map HcfIpCtx.source_ip).Nodup

variable {s s' : LfwHost} {t : LfwHostSpec}

theorem row_ip_addr_inj {ctx ctx' : HcfIpCtx} (h : (ctx.row e).ip_addr = (ctx'.row e).ip_addr) :
    ctx.source_ip = ctx'.source_ip := by
  have hword := congrArg (e.word 4) h
  simpa only [HcfIpCtx.row, Endian.word_ofWord e (w := 4)] using hword

/-- A record is a row of the table. -/
theorem insertOrIgnore_row (records : List HcfIpCtx) (ctx : HcfIpCtx) :
    insertOrIgnore (ctx.row e) (records.map (HcfIpCtx.row e)) =
      (hcfRecord records ctx).map (HcfIpCtx.row e) := by
  have hlen : (ctx.row e).ip_addr.length = 4 := Endian.length_ofWord e (w := 4) _
  have hmem : (ctx.row e).ip_addr ∈ (records.map (HcfIpCtx.row e)).map HcfIpv4Row.ip_addr ↔
      ctx.source_ip ∈ records.map HcfIpCtx.source_ip := by
    rw [List.map_map, List.mem_map, List.mem_map]
    constructor
    · rintro ⟨x, hx, heq⟩
      exact ⟨x, hx, row_ip_addr_inj heq⟩
    · rintro ⟨x, hx, heq⟩
      exact ⟨x, hx, by simp only [Function.comp, HcfIpCtx.row, heq]⟩
  unfold insertOrIgnore hcfRecord
  by_cases hin : ctx.source_ip ∈ records.map HcfIpCtx.source_ip
  · rw [if_neg (fun h => h.2 (hmem.2 hin)), if_pos hin]
  · rw [if_pos ⟨hlen, fun h => hin (hmem.1 h)⟩, if_neg hin, List.map_append]
    rfl

theorem nodup_hcfRecord {records : List HcfIpCtx} (h : (records.map HcfIpCtx.source_ip).Nodup)
    (ctx : HcfIpCtx) : ((hcfRecord records ctx).map HcfIpCtx.source_ip).Nodup := by
  unfold hcfRecord
  split
  · exact h
  · next hnew =>
    rw [List.map_append, List.nodup_append]
    refine ⟨h, List.nodup_singleton _, fun x hx y hy => ?_⟩
    rintro rfl
    obtain rfl := List.mem_singleton.1 hy
    exact hnew hx

/-! ## Commands -/

/-- The rows of the table in any order meet the checks of the schema. -/
theorem LfwHostMeans.table (h : LfwHostMeans e s t) (order : RowOrder) :
    ∃ tab : HcfIpv4Table, tab.rows = order.arrange s.tab := by
  have hperm := order.perm s.tab
  refine ⟨⟨order.arrange s.tab, fun row hrow => ?_, ?_⟩, rfl⟩
  · have hin := hperm.mem_iff.1 hrow
    rw [h.tab, List.mem_map] at hin
    obtain ⟨ctx, -, rfl⟩ := hin
    exact Endian.length_ofWord e (w := 4) _
  · rw [(hperm.map _).nodup_iff, h.tab, List.map_map]
    refine List.Nodup.of_map (e.word 4) ?_
    rw [List.map_map]
    have hword : (e.word 4 ∘ HcfIpv4Row.ip_addr ∘ HcfIpCtx.row e) = HcfIpCtx.source_ip := by
      funext ctx
      exact Endian.word_ofWord e (w := 4) _
    rw [hword]
    exact h.nodup

/-- A message with a list and its number loads it. -/
theorem FwRefines.load {k : LfwSystem} {fw : Firewall} (h : FwRefines k fw) (A : Supply)
    (lines : List BogonLine) (rest : List U8) (hlen : lines.length < 2 ^ 29) :
    ∃ ret k', lfwBogonSetDoit e A.toAllocator (genlAttrs (bogonMessage e lines true) rest) k =
        .ok (ret, k') ∧
      FwRefines k' (fw.load lines) := by
  have hcarried : BogonCarried e lines (bogonMessage e lines true) :=
    bogonCarried_message e (by omega)
  obtain ⟨⟨a, ha, hnum⟩, hslots⟩ := hcarried rest
  rw [← lfwNumPrefix_of_attrs ha] at hnum
  generalize genlAttrs (bogonMessage e lines true) rest = info at hnum hslots
  have hcount : lfwNumPrefix e info = (lfwPrefixAttrs e info).length := by
    rw [hnum, ← List.length_map (BogonLine.entry e), ← hslots, List.length_map]
  -- what the slots hold is what the lines say
  have hslot : ∀ pos ∈ lfwPrefixAttrs e info, ∃ l ∈ lines, lfwSlot e pos = l.entry e := by
    intro pos hpos
    have hin : lfwSlot e pos ∈ lines.map (BogonLine.entry e) := hslots ▸ List.mem_map_of_mem hpos
    obtain ⟨l, hl, heq⟩ := List.mem_map.1 hin
    exact ⟨l, hl, heq.symm⟩
  have hle : ∀ pos ∈ lfwPrefixAttrs e info, ((lfwLenOf e pos).getD 0).toNat ≤ 32 := by
    intro pos hpos
    obtain ⟨l, -, heq⟩ := hslot pos hpos
    rw [lfwSlot_eq] at heq
    have hdec := (l.entry_host (e := e)).2
    rw [← heq] at hdec
    rw [hdec]
    exact l.le_32
  have hlisted : Firewall.listed e info = lines.map BogonLine.blocked := by
    have hhost := congrArg (List.map fun p : LfwIpPrefix =>
      (getUnalignedBe32 e p.ipPrefix, p.ipPrefixLen)) hslots
    rw [List.map_map, List.map_map] at hhost
    unfold Firewall.listed
    refine Eq.trans (List.map_congr_left fun pos _ => ?_)
      (hhost.trans (List.map_congr_left fun l _ => Prod.ext (l.entry_host (e := e)).1 rfl))
    rw [Function.comp, lfwSlot_eq]
  obtain ⟨ret, bg, hrun, hs⟩ := h.setBogon A (hnum.trans_lt hlen) hcount hle
  refine ⟨ret, _, by unfold lfwBogonSetDoit; rw [hrun]; rfl, ?_⟩
  simp only [Firewall.step, hlisted] at hs
  have hnil : lfwPrefixAttrs e info = [] ↔ lines = [] := by
    rw [← List.length_eq_zero_iff, ← hcount, hnum, List.length_eq_zero_iff]
  simp only [hnil] at hs
  exact hs

namespace LfwHostMeans

/-- A step of the module that is one of the firewall. -/
theorem kernelStep (h : LfwHostMeans e s t) {ev : LfwEvent} (hwf : ev.WellFormed e) :
    ∃ s', lfwHostKernel e ev s = .ok s' ∧
      LfwHostMeans e s' { t with fw := t.fw.step e ev } := by
  obtain ⟨kernel, hrun, hkernel⟩ := lfwStep_refines ev h.kernel hwf
  refine ⟨{ s with kernel := kernel }, ?_, hkernel, h.tab, h.nodup⟩
  unfold lfwHostKernel
  rw [hrun]
  rfl

/-- A message that is received. -/
theorem deliver (h : LfwHostMeans e s t) {A : Supply} {msg rest : List U8} {fw : Firewall}
    (hrecv : ∃ ret k, lfwNlReceive e A.toAllocator msg rest s.kernel = .ok (ret, k) ∧
      FwRefines k fw) :
    ∃ s', lfwDeliver e A.toAllocator rest (.ok (some msg)) s = .ok s' ∧
      LfwHostMeans e s' { t with fw := fw } := by
  obtain ⟨ret, k, hrun, hk⟩ := hrecv
  refine ⟨{ s with kernel := k }, ?_, hk, h.tab, h.nodup⟩
  unfold lfwDeliver
  simp only [hrun, ok_bind, pure_eq_ok]

theorem work (h : LfwHostMeans e s t) (A : Supply) (i : ℕ) (listening : Bool) (rest : List U8) :
    ∃ s', lfwHostWork e A.toAllocator i listening rest s = .ok s' ∧
      LfwHostMeans e s' (t.work i listening) := by
  have hkernel := h.kernel.work A i
  unfold lfwRunWork at hkernel
  unfold lfwHostWork LfwHostSpec.work
  rw [h.kernel.pending] at hkernel ⊢
  cases htask : t.fw.pending[i]? with
  | none =>
    rw [htask] at hkernel
    obtain ⟨s', hrun, hs'⟩ := hkernel
    obtain rfl := Except.ok.inj hrun
    exact ⟨s, rfl, hs', h.tab, h.nodup⟩
  | some task =>
    obtain ⟨hcf, hrun, -⟩ := h.kernel.hops.work A task
    rw [htask] at hkernel
    simp only [hrun, ok_bind, pure_eq_ok, Except.ok.injEq, exists_eq_left'] at hkernel ⊢
    cases listening with
    | false => exact ⟨_, rfl, hkernel, h.tab, h.nodup⟩
    | true =>
      simp only [if_true, hcfReceive_eq, ok_bind, true_and]
      cases hknown : t.fw.hops (top24 task.source_ip) with
      | some x => exact ⟨_, rfl, hkernel, h.tab, h.nodup⟩
      | none =>
        refine ⟨_, rfl, hkernel, ?_, nodup_hcfRecord h.nodup task.ctx⟩
        simp only [Option.isSome_none, Bool.false_eq_true, if_false, Option.toList_some,
          List.foldl_cons, List.foldl_nil, h.tab, if_true]
        exact insertOrIgnore_row t.records task.ctx

theorem setBogon (h : LfwHostMeans e s t) (A : Supply) (capacity : U32) (uninit : ℕ → U32)
    (file : BogonFile) (rest : List U8) :
    ∃ s', lfwDeliver e A.toAllocator rest
        (sendBogonList e uninit capacity (some file.content)) s = .ok s' ∧
      LfwHostMeans e s' (t.setBogon capacity.toNat file) := by
  have hlt := capacity.isLt
  have hidle : t.fw.load [] = t.fw := if_pos rfl
  -- a list without its number is refused
  have huncounted : ∀ lines, ∃ ret k, lfwNlReceive e A.toAllocator (bogonMessage e lines false) rest
      s.kernel = .ok (ret, k) ∧ FwRefines k t.fw := by
    intro lines
    have hnum : lfwNumPrefix e (genlAttrs (bogonMessage e lines false) rest) = 0 := by
      unfold lfwNumPrefix
      rw [attrs_bogonMessage]
      rfl
    refine ⟨-EINVAL, s.kernel, ?_, h.kernel⟩
    rw [lfwNlReceive_bogon, lfwBogonSetDoit, lfwBogonSet]
    simp only [hnum, if_true, pure_eq_ok, ok_bind]
  have hcounted : ∀ lines : List BogonLine, lines.length < 2 ^ 29 → ∃ ret k,
      lfwNlReceive e A.toAllocator (bogonMessage e lines true) rest s.kernel = .ok (ret, k) ∧
        FwRefines k (t.fw.load lines) := by
    intro lines hlen
    rw [lfwNlReceive_bogon]
    exact h.kernel.load A lines rest hlen
  unfold LfwHostSpec.setBogon bogonLoaded
  rw [sendBogonList_eq]
  by_cases hhdr : capacity.toNat < 20
  · rw [if_pos hhdr, if_neg (by omega), if_neg (by omega), hidle]
    exact ⟨s, rfl, h⟩
  rw [if_neg hhdr]
  by_cases hall : 20 + 20 * file.lines.length ≤ capacity.toNat
  · rw [if_pos hall]
    by_cases hcount : 28 + 20 * file.lines.length ≤ capacity.toNat
    · rw [if_pos hcount, decide_eq_true hcount]
      exact h.deliver (hcounted file.lines (by omega))
    · rw [if_neg hcount, decide_eq_false hcount, if_neg (by omega), hidle]
      exact h.deliver (huncounted file.lines)
  · have hmore : ¬ 28 + 20 * file.lines.length ≤ capacity.toNat := by omega
    rw [if_neg hall, if_neg hmore]
    by_cases hopen : (capacity.toNat - 20) % 20 < 4
    · rw [if_pos hopen, if_neg (by omega), hidle]
      exact ⟨s, rfl, h⟩
    · rw [if_neg hopen]
      by_cases hcount : 8 ≤ (capacity.toNat - 20) % 20
      · rw [if_pos ⟨by omega, by omega, hcount⟩, decide_eq_true hcount]
        refine h.deliver (hcounted _ ?_)
        have := List.length_take_le ((capacity.toNat - 20) / 20) file.lines
        omega
      · rw [if_neg (by omega), decide_eq_false hcount, hidle]
        exact h.deliver (huncounted _)

theorem underAttack (h : LfwHostMeans e s t) (A : Supply) (capacity : U32) (set : Bool)
    (rest : List U8) :
    ∃ s', lfwDeliver e A.toAllocator rest (setUnderAttack e capacity set) s = .ok s' ∧
      LfwHostMeans e s' (if (if set then 24 else 20) ≤ capacity.toNat then
        { t with fw := { t.fw with underAttack := set } } else t) := by
  rw [setUnderAttack_eq]
  by_cases hhdr : capacity.toNat < 20
  · rw [if_pos hhdr, if_neg (by split <;> omega)]
    exact ⟨s, rfl, h⟩
  rw [if_neg hhdr]
  by_cases hfull : set = true ∧ capacity.toNat < 24
  · rw [if_pos hfull, if_neg (by rw [if_pos hfull.1]; omega)]
    exact ⟨s, rfl, h⟩
  · have hroom : (if set then 24 else 20) ≤ capacity.toNat := by
      split
      · next hset =>
        have hnot : ¬ capacity.toNat < 24 := fun hlt => hfull ⟨hset, hlt⟩
        omega
      · omega
    rw [if_neg hfull, if_pos hroom]
    refine h.deliver ?_
    rw [lfwNlReceive_underAttack]
    obtain ⟨a, olds, hinv⟩ := h.kernel.state
    obtain ⟨state, b, hrun, hinv'⟩ := hinv.set A set
    refine ⟨0, { s.kernel with state := state }, ?_, h.kernel.bogon, h.kernel.blocked,
      ⟨b, _, hinv'⟩, h.kernel.hops, h.kernel.pending⟩
    unfold lfwStateSetUnderAttackDoit lfwStateSetUnderAttackNl
    simp only [nlaGetFlag_underAttackMessage, hrun, ok_bind, pure_eq_ok]

theorem setHcf (h : LfwHostMeans e s t) (A : Supply) (capacity : U32) (order : RowOrder)
    (rest : List U8) :
    ∃ s', lfwDeliver e A.toAllocator rest (sendIpHistory e capacity (order.arrange s.tab)) s =
        .ok s' ∧ LfwHostMeans e s' (t.setHcf e capacity.toNat order) := by
  obtain ⟨tab, htab⟩ := h.table order
  have hlen : tab.rows.length = t.records.length := by
    rw [htab, (order.perm s.tab).length_eq, h.tab, List.length_map]
  unfold LfwHostSpec.setHcf
  rw [← htab, sendIpHistory_eq, hlen]
  by_cases hhdr : capacity.toNat < 20
  · rw [if_pos hhdr, if_neg (by omega)]
    exact ⟨s, rfl, h⟩
  rw [if_neg hhdr]
  by_cases hfit : 20 + 28 * t.records.length ≤ capacity.toNat
  · rw [if_pos hfit, if_pos hfit]
    refine h.deliver ?_
    rw [lfwNlReceive_history tab.length_ip_addr]
    obtain ⟨u, hinv, -⟩ := id h.kernel.hops
    obtain ⟨hcf, hrun, hhops⟩ := hinv.history e A (genlAttrs (historyMessage e tab.rows) rest)
    have hentries : hcfHistoryEntries e (genlAttrs (historyMessage e tab.rows) rest) =
        tab.rows.map (HcfIpv4Row.history e) := hcfHistoryEntries_rows tab.length_ip_addr 0 _ rest
    rw [hentries, htab, h.tab] at hhops
    refine ⟨0, { s.kernel with hcf := hcf }, ?_, h.kernel.bogon, h.kernel.blocked, h.kernel.state,
      hhops, h.kernel.pending⟩
    unfold hcfRegisterIpHistoryDoit
    simp only [hrun, ok_bind, pure_eq_ok]
  · rw [if_neg hfit, if_neg hfit]
    split <;> exact ⟨s, rfl, h⟩

end LfwHostMeans

/-- **Every event of the host is a step of the firewall and the records.** -/
theorem lfwHostStep_means (h : LfwHostMeans e s t) (capacity : U32) (ev : LfwHostEvent) :
    ∃ s', lfwHostStep e capacity s ev = .ok s' ∧ LfwHostMeans e s' (t.step e capacity ev) := by
  cases ev with
  | learn skb => exact h.kernelStep trivial
  | work A i listening rest => exact h.work A i listening rest
  | setBogon A uninit file rest => exact h.setBogon A capacity uninit file rest
  | underAttack A set rest => exact h.underAttack A capacity set rest
  | setHcf A order rest => exact h.setHcf A capacity order rest
  | boot A =>
    obtain ⟨kernel, hinit, hkernel⟩ := lfwInitState_refines A
    refine ⟨{ s with kernel := kernel }, ?_, hkernel, h.tab, h.nodup⟩
    unfold lfwHostStep
    simp only [hinit, pure_eq_ok]
  | bogonCallback i => exact h.kernelStep (show LfwEvent.WellFormed e (.bogonCallback i) from trivial)
  | hcfCallback i => exact h.kernelStep (show LfwEvent.WellFormed e (.hcfCallback i) from trivial)
  | stateCallback i => exact h.kernelStep (show LfwEvent.WellFormed e (.stateCallback i) from trivial)

theorem lfwHostInit_means (e : Endian) (A : Supply) :
    ∃ s, lfwHostInit A.toAllocator = .ok s ∧ LfwHostMeans e s .init := by
  obtain ⟨kernel, hinit, hkernel⟩ := lfwInitState_refines A
  refine ⟨⟨kernel, []⟩, ?_, hkernel, rfl, List.nodup_nil⟩
  unfold lfwHostInit
  rw [hinit]
  rfl

theorem lfwHostRun_means (h : LfwHostMeans e s t) (capacity : U32) (evs : List LfwHostEvent) :
    ∃ s', run (lfwHostStep e capacity) s evs = .ok s' ∧
      LfwHostMeans e s' (evs.foldl (LfwHostSpec.step e capacity) t) :=
  run_simulation (P := fun _ => True) (fun _ _ ev hs _ => lfwHostStep_means hs capacity ev) h
    fun _ _ => trivial

/-- **What a host drops.** From the first start on, through any packets, works,
files, flags, restores and boots, in any order and whatever fits into a
message, nothing faults in the module and the hook drops exactly what the
firewall drops whose list is the lines last loaded from a file, whose flag is
the one last chosen, and whose map is what was learned or restored since the
last boot. -/
theorem lfwHost_drop_iff (e : Endian) (capacity : U32) (A : Supply) (evs : List LfwHostEvent) :
    ∃ s₀ s, lfwHostInit A.toAllocator = .ok s₀ ∧ run (lfwHostStep e capacity) s₀ evs = .ok s ∧
      s.tab = ((evs.foldl (LfwHostSpec.step e capacity) .init).records).map (HcfIpCtx.row e) ∧
      ∀ skb, ∃ v, lfwFilterIpv4HookFn e s.kernel skb = .ok v ∧
        (v = NF_DROP ↔ (evs.foldl (LfwHostSpec.step e capacity) .init).fw.Drops skb) := by
  obtain ⟨s₀, hinit, hs₀⟩ := lfwHostInit_means e A
  obtain ⟨s, hrun, hs⟩ := lfwHostRun_means hs₀ capacity evs
  exact ⟨s₀, s, hinit, hrun, hs.tab, fun skb => hs.kernel.verdict skb⟩

end Librefw
