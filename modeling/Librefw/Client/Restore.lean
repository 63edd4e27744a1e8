import Librefw.Client.History

/-!
# Restoring a history of any size

The table grows by one row for each prefix that is learned, and the
request that restores it is built in one buffer. `sendIpHistory_eq` has
what is sent by how much room there is: all the rows if they fit, else
nothing; and if the row that does not fit finds too little room even for
the header of its container, the process dies cancelling what it never
opened. So a history is restored exactly if it fits in one message
(`sendIpHistory_restores_iff`).
-/

namespace Librefw

open MsgBuf

variable {e : Endian}

/-! ## The table -/

/-- The content of `hcf_ipv4_history`: its rows meet the checks of the schema. -/
structure HcfIpv4Table where
  rows : HcfIpv4History
  length_ip_addr : ∀ row ∈ rows, row.ip_addr.length = 4
  nodup : (rows.map HcfIpv4Row.ip_addr).Nodup

namespace HcfIpv4Table

def empty : HcfIpv4Table := ⟨[], fun _ h => absurd h List.not_mem_nil, List.nodup_nil⟩

/-- An insertion keeps the checks. -/
def insert (row : HcfIpv4Row) (tab : HcfIpv4Table) : HcfIpv4Table where
  rows := insertOrIgnore row tab.rows
  length_ip_addr := by
    unfold insertOrIgnore
    split
    · next hrow =>
      intro r hr
      rcases List.mem_append.1 hr with hr | hr
      · exact tab.length_ip_addr r hr
      · exact List.mem_singleton.1 hr ▸ hrow.1
    · exact tab.length_ip_addr
  nodup := by
    unfold insertOrIgnore
    split
    · next hrow =>
      rw [List.map_append, List.map_singleton, List.nodup_append]
      refine ⟨tab.nodup, List.nodup_singleton _, fun x hx y hy => ?_⟩
      rintro rfl
      exact hrow.2 (List.mem_singleton.1 hy ▸ hx)
    · exact tab.nodup

/-- **What the listener records is a table**: so are the rows after any
announcements. -/
theorem of_hcfReceive (rest : List U8) (announced : List HcfIpCtx) (tab : HcfIpv4Table) :
    ∃ tab' : HcfIpv4Table, hcfReceive e rest announced tab.rows = .ok tab'.rows := by
  rw [hcfReceive_eq]
  induction announced generalizing tab with
  | nil => exact ⟨tab, rfl⟩
  | cons ctx announced ih => exact ih (tab.insert (ctx.row e))

end HcfIpv4Table

/-! ## What is sent -/

/-- One row, packed if it fits. -/
theorem packRows_cons {row : HcfIpv4Row} (h : row.ip_addr.length = 4) (rows : HcfIpv4History)
    (msg : MsgBuf) :
    packRows e (row :: rows) msg =
      if msg.bytes.length + 28 ≤ msg.cap then
        packRows e rows { msg with bytes := msg.bytes ++ attrBytes e (row.entry e) }
      else if msg.bytes.length + 4 ≤ msg.cap then .ok (false, msg)
      else .error .nullDeref := by
  have hsize := HcfIpv4Row.size_entry (e := e) h
  unfold HcfIpv4Row.entry at hsize
  rw [packRows]
  by_cases hfit : msg.bytes.length + 28 ≤ msg.cap
  · rw [if_pos hfit, packRow_eq h hfit]
    rfl
  · rw [if_neg hfit, packRow_eq_packNested]
    by_cases hopen : msg.bytes.length + 4 ≤ msg.cap
    · rw [if_pos hopen, packNested_of_not_fits hopen (by omega)]
      rfl
    · rw [if_neg hopen, packNested_of_full (by omega)]
      rfl

/-- **Rows that do not fit**: the first of them finds `(cap - length) % 28` bytes. -/
theorem packRows_of_not_fits {rows : HcfIpv4History} {msg : MsgBuf}
    (h : ∀ row ∈ rows, row.ip_addr.length = 4) (hcap : msg.bytes.length ≤ msg.cap)
    (hfull : ¬ msg.bytes.length + 28 * rows.length ≤ msg.cap) :
    if (msg.cap - msg.bytes.length) % 28 < 4 then packRows e rows msg = .error .nullDeref
    else ∃ msg', packRows e rows msg = .ok (false, msg') := by
  induction rows generalizing msg with
  | nil => exact absurd hcap hfull
  | cons row rows ih =>
    have hrow := h row List.mem_cons_self
    rw [List.length_cons] at hfull
    rw [packRows_cons hrow]
    by_cases hfit : msg.bytes.length + 28 ≤ msg.cap
    · have hlen : (msg.bytes ++ attrBytes e (row.entry e)).length = msg.bytes.length + 28 := by
        rw [List.length_append, length_attrBytes, HcfIpv4Row.size_entry hrow]
      -- a row that fits leaves the remainder as it was
      have hmod : (msg.cap - (msg.bytes.length + 28)) % 28 = (msg.cap - msg.bytes.length) % 28 := by
        omega
      have hrest := @ih { msg with bytes := msg.bytes ++ attrBytes e (row.entry e) }
        (fun r hr => h r (List.mem_cons_of_mem _ hr)) (by simp only [hlen]; omega)
        (by simp only [hlen]; omega)
      simp only [hlen, hmod] at hrest
      rw [if_pos hfit]
      exact hrest
    · rw [if_neg hfit]
      by_cases hopen : msg.bytes.length + 4 ≤ msg.cap
      · rw [if_neg (by omega), if_pos hopen]
        exact ⟨msg, rfl⟩
      · rw [if_pos (by omega), if_neg hopen]

/-- The request that carries a table. -/
def historyMessage (e : Endian) (rows : HcfIpv4History) : List U8 :=
  (genlmsgPut 0 LFW_NL_CMD_SET_HCF_HISTORY).bytes ++ streamBytes e (rows.map (HcfIpv4Row.entry e))

/-- **What is sent**, by how much room there is: nothing without a header; all the
rows if they fit; else nothing, unless the row that does not fit cannot even
open its container. -/
theorem sendIpHistory_eq (e : Endian) (capacity : U32) (tab : HcfIpv4Table) :
    sendIpHistory e capacity tab.rows =
      if capacity.toNat < 20 then .error (.exception .systemError)
      else if 20 + 28 * tab.rows.length ≤ capacity.toNat then .ok (some (historyMessage e tab.rows))
      else if (capacity.toNat - 20) % 28 < 4 then .error (.fault .nullDeref)
      else .ok none := by
  unfold sendIpHistory makeMessage NLMSG_HDRLEN GENL_HDRLEN
  by_cases hhdr : capacity.toNat < 20
  · rw [if_pos hhdr, if_neg (by omega)]
    rfl
  rw [if_neg hhdr, if_pos (by omega), pure_eq_ok, ok_bind]
  set msg := genlmsgPut (capacity.toNat - 16) LFW_NL_CMD_SET_HCF_HISTORY with hmsg
  have hlen : msg.bytes.length = 4 := rfl
  have hcap : msg.cap = capacity.toNat - 16 := rfl
  by_cases hall : 20 + 28 * tab.rows.length ≤ capacity.toNat
  · rw [if_pos hall, packRows_eq tab.length_ip_addr (by omega)]
    rfl
  · -- one row that does not fit ends the whole message
    have hpack : if (msg.cap - msg.bytes.length) % 28 < 4 then
        packRows e tab.rows msg = .error .nullDeref
      else ∃ msg', packRows e tab.rows msg = .ok (false, msg') :=
      packRows_of_not_fits tab.length_ip_addr (by omega) (by omega)
    have hroom : msg.cap - msg.bytes.length = capacity.toNat - 20 := by omega
    rw [hroom] at hpack
    rw [if_neg hall]
    split at hpack
    · next hopen =>
      rw [if_pos hopen, hpack]
      rfl
    · next hopen =>
      obtain ⟨msg', hpack⟩ := hpack
      rw [if_neg hopen, hpack]
      rfl

/-! ## What is restored -/

/-- What is asked of a restore: that no container is cancelled that was not
opened, and that the kernel is sent an entry for every row, after which every
address of the table has a leaf, in whatever state the tree was. -/
structure HistoryRestored (e : Endian) (capacity : U32) (tab : HcfIpv4Table) : Prop where
  opened : sendIpHistory e capacity tab.rows ≠ .error (.fault .nullDeref)
  delivered : ∃ msg, sendIpHistory e capacity tab.rows = .ok (some msg) ∧ ∀ rest,
    hcfHistoryEntries e (genlAttrs msg rest) = tab.rows.map (HcfIpv4Row.history e) ∧
    ∀ (A₀ A : Supply) (s₀ s : HcfState) (ops : List HcfOp),
      hcfInitState A₀.toAllocator = .ok s₀ → run (hcfStep e) s₀ ops = .ok s →
      ∃ s', hcfRegisterIpHistory e A.toAllocator (genlAttrs msg rest) s = .ok (0, s') ∧
        ∀ row ∈ tab.rows, ∃ leaf, hcfLeaf s' (e.word 4 row.ip_addr) = .ok (some leaf)

/-- A message that carries a table restores it. -/
theorem historyMessage_restores (tab : HcfIpv4Table) (rest : List U8) {A₀ : Supply}
    {s₀ s : HcfState} {ops : List HcfOp} (A : Supply)
    (hinit : hcfInitState A₀.toAllocator = .ok s₀) (hreach : run (hcfStep e) s₀ ops = .ok s) :
    ∃ s', hcfRegisterIpHistory e A.toAllocator (genlAttrs (historyMessage e tab.rows) rest) s =
        .ok (0, s') ∧
      ∀ row ∈ tab.rows, ∃ leaf, hcfLeaf s' (e.word 4 row.ip_addr) = .ok (some leaf) := by
  obtain ⟨t, hinv⟩ := hcfRun_inv hinit hreach
  obtain ⟨s', hrun, hs'⟩ := hinv.history e A (genlAttrs (historyMessage e tab.rows) rest)
  have hentries : hcfHistoryEntries e (genlAttrs (historyMessage e tab.rows) rest) =
      tab.rows.map (HcfIpv4Row.history e) := hcfHistoryEntries_rows tab.length_ip_addr 0 _ rest
  rw [hentries] at hs'
  refine ⟨s', hrun, fun row hrow => ?_⟩
  obtain ⟨leaf, hleaf, hentry⟩ := hs'.leaf (e.word 4 row.ip_addr)
  cases leaf with
  | some leaf => exact ⟨leaf, hleaf⟩
  | none =>
    rw [Option.map_none, eq_comm, HcfMap.restore_eq_none_iff] at hentry
    have hmem : row.history e ∈ tab.rows.map (HcfIpv4Row.history e) := List.mem_map_of_mem hrow
    have hne := hentry (row.history e) hmem
    exact absurd rfl hne

/-- **A history is restored exactly if it fits in one message.** -/
theorem sendIpHistory_restores_iff (e : Endian) (capacity : U32) (tab : HcfIpv4Table) :
    HistoryRestored e capacity tab ↔ 20 + 28 * tab.rows.length ≤ capacity.toNat := by
  have hsend := sendIpHistory_eq e capacity tab
  constructor
  · intro h
    obtain ⟨msg, hmsg, -⟩ := h.delivered
    by_contra hfull
    rw [hmsg, if_neg hfull] at hsend
    split at hsend
    · cases hsend
    · split at hsend <;> cases hsend
  · intro hfit
    rw [if_neg (by omega), if_pos hfit] at hsend
    refine ⟨?_, historyMessage e tab.rows, hsend, fun rest => ⟨?_, ?_⟩⟩
    · rw [hsend]
      exact fun h => nomatch h
    · exact hcfHistoryEntries_rows tab.length_ip_addr 0 _ rest
    · intro A₀ A s₀ s ops hinit hreach
      exact historyMessage_restores tab rest A hinit hreach

/-- The announcements of `n` addresses, each of a prefix of its own. -/
def hcfManyAnnounced (n : ℕ) : List HcfIpCtx :=
  (List.range n).map fun i => ⟨BitVec.ofNat 32 (256 * i), 64, 0⟩

/-- What 146 announcements have recorded is not restored through a message of one
page. -/
theorem sendIpHistory_restores_page :
    ¬ ∀ (e : Endian) (tab : HcfIpv4Table), HistoryRestored e 4096 tab := by
  intro hall
  have hnodup : ((hcfManyAnnounced 146).map HcfIpCtx.source_ip).Nodup := by
    have hinj : ∀ i ∈ List.range 146, ∀ j ∈ List.range 146,
        BitVec.ofNat 32 (256 * i) = BitVec.ofNat 32 (256 * j) → i = j := by
      intro i hi j hj heq
      rw [List.mem_range] at hi hj
      have hnat := congrArg BitVec.toNat heq
      rw [BitVec.toNat_ofNat, BitVec.toNat_ofNat] at hnat
      omega
    rw [hcfManyAnnounced, List.map_map]
    exact List.Nodup.map_on hinj List.nodup_range
  obtain ⟨tab, htab⟩ := HcfIpv4Table.of_hcfReceive (e := .little) [] (hcfManyAnnounced 146) .empty
  have hrows := (hcfReceive_nodup [] hnodup).symm.trans htab
  -- as many rows as were announced: none was ignored
  have hlen : 146 = tab.rows.length := by
    rw [← Except.ok.inj hrows, List.length_map, hcfManyAnnounced, List.length_map, List.length_range]
  have hfit := (sendIpHistory_restores_iff .little 4096 tab).1 (hall _ _)
  rw [← hlen] at hfit
  exact absurd hfit (by decide)

end Librefw
