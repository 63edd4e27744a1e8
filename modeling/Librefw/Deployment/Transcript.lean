import Librefw.Client.Log
import Librefw.Deployment.Messages

/-!
# What a command shows in the log

A command that reaches its handler makes it say what it does, and a listener
shows that. A list that is set from a file is shown line by line, each with
the nodes it needed beside those of the lines before it, and then counted
(`sendBogonList_shown`); the flag is shown as it is set
(`setUnderAttack_shown`).
-/

namespace Librefw

variable {e : Endian} {pad : Bool}

/-! ## The lines of a file -/

/-- The bits of the address that a line fixes. -/
def BogonLine.key (l : BogonLine) : List Bool := ipPath l.address (digitsVal l.decimal)

/-- The paths that the lines of a file need nodes for. -/
def bogonMade (lines : List BogonLine) : Finset (List Bool) :=
  insert [] (lines.flatMap fun l => l.key.inits).toFinset

/-- What is shown of a line for which `n` nodes were created. -/
def BogonLine.told (l : BogonLine) (n : ℕ) : String := bogonTold l.address l.key n

theorem BogonLine.entry_key (l : BogonLine) : (l.entry e).key e = l.key := by
  have hentry := l.entry_host (e := e)
  rw [LfwIpPrefix.key, LfwIpPrefix.host, hentry.1, hentry.2, key]

theorem BogonLine.entry_told (l : BogonLine) (n : ℕ) : (l.entry e).told e n = l.told n := by
  have hhost : (l.entry e).host e = l.address := (l.entry_host (e := e)).1
  rw [LfwIpPrefix.told, hhost, l.entry_key, told]

theorem lfwMade_entries (e : Endian) (lines : List BogonLine) :
    lfwMade e {[]} (lines.map (BogonLine.entry e)) = bogonMade lines := by
  ext q
  rw [mem_lfwMade, bogonMade, Finset.mem_insert, Finset.mem_singleton, List.mem_toFinset,
    List.mem_flatMap]
  simp only [List.mem_map, exists_exists_and_eq_and, BogonLine.entry_key, List.mem_inits]

/-! ## A list is set -/

/-- What is said of a list that a message carries. -/
theorem lfwBogonSetSays_carried {A : Supply} {info : GenlInfo} {s : LfwBgState}
    {prefixes : List LfwIpPrefix} (hnum : lfwNumPrefix e info = prefixes.length)
    (hslots : (lfwPrefixAttrs e info).map (lfwSlot e) = prefixes) (hne : prefixes ≠ [])
    (hlen : ∀ p ∈ prefixes, p.ipPrefixLen.toNat ≤ 32) (hmax : prefixes.length < 2 ^ 29) :
    lfwBogonSetSays e A.toAllocator info s =
      .ok ((lfwLines e {[]} prefixes).map (LfwBgLog.fmt e) ++ [lfwBogonSetFmt prefixes.length]) := by
  obtain ⟨buf, bufs, halloc, hext⟩ := Mem.zalloc_supply A s.bufs
    (List.replicate prefixes.length LfwIpPrefix.zero)
  have hcount : prefixes.length ≤ 2 ^ 31 := by omega
  obtain ⟨s', hload, hlog, -⟩ :=
    lfwLoadBgTree_lines e A { s with bufs := bufs.set buf prefixes } hlen hcount
  have hloaded := lfwLoadBgTree_spec e A { s with bufs := bufs.set buf prefixes } hlen hcount
  obtain ⟨s₁, a, t, hload₁, hl⟩ := hloaded
  obtain rfl := Except.ok.inj (hload.symm.trans hload₁)
  -- the buffer is still there, and is freed
  have hbuf : buf ∈ s'.bufs := by
    rw [hl.bufs_eq]
    exact Mem.mem_set.2 (Or.inl rfl)
  rw [lfwBogonSetSays, lfwBogonSet_of_carried hnum hslots hne hmax halloc, hload, ok_bind,
    Mem.free_of_mem hbuf, ok_bind, pure_eq_ok, ok_bind, hnum]
  simp only [if_true, hlog, List.drop_left, pure_eq_ok]

theorem prints_bogonSet {n : ℕ} (hn : n < 2 ^ 31) :
    Prints (lfwBogonSetFmt n) (asciiBytes ("done inserting " ++ toString n ++
      " prefixes into bogon filter list")) := by
  have hint : (BitVec.ofNat 32 n).toInt = n := by
    rw [BitVec.toInt_eq_toNat_of_lt (by rw [BitVec.toNat_ofNat]; omega), BitVec.toNat_ofNat,
      Nat.mod_eq_of_lt (by omega)]
  have htext : asciiBytes ("done inserting " ++ toString n ++ " prefixes into bogon filter list") =
      asciiBytes "done inserting " ++ (asciiBytes (toString n) ++
        (asciiBytes " prefixes into bogon filter list" ++ [])) :=
    asciiBytes_three "done inserting " (toString n) " prefixes into bogon filter list"
  have hprints := Prints.text ⟨asciiBytes "done inserting ", by decide⟩
    (Prints.dec (BitVec.ofNat 32 n).toInt
      (Prints.text ⟨asciiBytes " prefixes into bogon filter list", by decide⟩ prints_nil))
  rw [hint] at hprints
  rw [htext]
  unfold lfwBogonSetFmt
  rw [hint]
  exact hprints

/-- **A list set from a file is shown line by line.** If the file fits into the
message, the handler says a line for each of its lines and then their number.
Each is shown with the address as the file has it, the bits that are fixed and
how many nodes were created for it, which are the initial segments of its key
that no line before it has; but for a line of 32 bits the array of the path is
read past its end. -/
theorem sendBogonList_shown (e : Endian) (pad : Bool) (uninit : ℕ → U32) (capacity : U32)
    {file : BogonFile} (hne : file.lines ≠ []) (hfit : 28 + 20 * file.lines.length ≤ capacity.toNat)
    (A : Supply) (s : LfwBgState) (rest : List U8) :
    ∃ msg said, sendBogonList e uninit capacity (some file.content) = .ok (some msg) ∧
      lfwBogonSetSays e A.toAllocator (genlAttrs msg rest) s = .ok said ∧
      said.length = file.lines.length + 1 ∧
      (∀ (i : ℕ) (l : BogonLine), file.lines[i]? = some l → ∃ fmt, said[i]? = some fmt ∧
        ∀ tv_sec rest', logShown e pad true tv_sec LOGLEVEL_INFO fmt rest' =
          if digitsVal l.decimal = 32 then .error (.outOfBounds 32)
          else .ok (some (logLine "INFO" tv_sec (asciiBytes
            (l.told (l.key.inits.toFinset \ bogonMade (file.lines.take i)).card))))) ∧
      ∃ fmt, said[file.lines.length]? = some fmt ∧ ∀ tv_sec rest',
        logShown e pad true tv_sec LOGLEVEL_INFO fmt rest' =
          .ok (some (logLine "INFO" tv_sec (asciiBytes ("done inserting " ++
            toString file.lines.length ++ " prefixes into bogon filter list")))) := by
  have hlt := capacity.isLt
  have hsend : sendBogonList e uninit capacity (some file.content) =
      .ok (some (bogonMessage e file.lines true)) := by
    rw [sendBogonList_eq, if_neg (by omega), if_pos (by omega), decide_eq_true hfit]
  -- the message carries the lines, so its handler loads them
  obtain ⟨⟨a, ha, hnum⟩, hslots⟩ := bogonCarried_message e (by omega : file.lines.length < 2 ^ 32) rest
  rw [← lfwNumPrefix_of_attrs ha, ← List.length_map (BogonLine.entry e)] at hnum
  have hlen : ∀ p ∈ file.lines.map (BogonLine.entry e), p.ipPrefixLen.toNat ≤ 32 := by
    intro p hp
    obtain ⟨l, -, rfl⟩ := List.mem_map.1 hp
    rw [(l.entry_host (e := e)).2]
    exact l.le_32
  have hmax : (file.lines.map (BogonLine.entry e)).length < 2 ^ 29 := by
    rw [List.length_map]
    omega
  have hsays :=
    lfwBogonSetSays_carried (A := A) (s := s) hnum hslots (by simpa using hne) hlen hmax
  have hcount : ((lfwLines e {[]} (file.lines.map (BogonLine.entry e))).map (LfwBgLog.fmt e)).length =
      file.lines.length := by
    rw [List.length_map, length_lfwLines, List.length_map]
  rw [List.length_map] at hsays
  refine ⟨_, _, hsend, hsays, ?_, fun i l hi => ?_, ?_⟩
  · rw [List.length_append, hcount]
    rfl
  · have hi' : i < file.lines.length := (List.getElem?_eq_some_iff.1 hi).1
    have hline : (lfwLines e {[]} (file.lines.map (BogonLine.entry e)))[i]? =
        some ((l.entry e).line e (bogonMade (file.lines.take i))) := by
      rw [getElem?_lfwLines, List.getElem?_map, hi, ← List.map_take, lfwMade_entries]
      rfl
    refine ⟨((l.entry e).line e (bogonMade (file.lines.take i))).fmt e, ?_, fun tv_sec rest' => ?_⟩
    · rw [List.getElem?_append_left (by rwa [hcount]), List.getElem?_map, hline]
      rfl
    · have hshown := logShown_line e pad tv_sec (bogonMade (file.lines.take i))
        (hlen _ (List.mem_map_of_mem (List.mem_of_getElem? hi))) rest'
      rw [(l.entry_host (e := e)).2, l.entry_told, LfwIpPrefix.segments, l.entry_key] at hshown
      exact hshown
  · refine ⟨lfwBogonSetFmt file.lines.length, ?_, fun tv_sec rest' => ?_⟩
    · rw [List.getElem?_append_right hcount.le, hcount, Nat.sub_self]
      rfl
    · have hnumeral := length_numeral (by omega : 0 < 10) (by omega : file.lines.length < 10 ^ 10)
      refine logShown_short e pad tv_sec rfl (prints_bogonSet (by omega)) ?_ rest'
      have htexts : (asciiBytes "done inserting ").length = 15 ∧
          (asciiBytes " prefixes into bogon filter list").length = 32 := by decide
      have htext := asciiBytes_three "done inserting " (toString file.lines.length)
        " prefixes into bogon filter list"
      rw [htext, List.length_append, List.length_append, List.length_append, List.length_nil]
      omega

/-- A file of three lines, set right after the module is loaded: the last is a host, which is
shown past its array. -/
theorem sendBogonList_shown_sample :
    ∃ s₀ msg said, lfwInitBgState Supply.next.toAllocator = .ok s₀ ∧
      sendBogonList .little (fun _ => 0) 4096
        (some (BogonFile.ofLines bogonSampleLines).content) = .ok (some msg) ∧
      lfwBogonSetSays .little Supply.next.toAllocator (genlAttrs msg []) s₀ = .ok said ∧
      said.map (fun fmt => logShown .little false true 7 LOGLEVEL_INFO fmt []) =
        [.ok (some (logLine "INFO" 7 (asciiBytes
            "done parsing ip 10.0.0.0, used path 00001010, 8 nodes created"))),
          .ok (some (logLine "INFO" 7 (asciiBytes
            "done parsing ip 192.168.0.0, used path 1100000010101000, 16 nodes created"))),
          .error (.outOfBounds 32),
          .ok (some (logLine "INFO" 7 (asciiBytes
            "done inserting 3 prefixes into bogon filter list")))] := by
  obtain ⟨s₀, a, hinit, -⟩ := lfwInitBgState_spec Supply.next
  obtain ⟨msg, said, hsend, hsays, hlen, hlines, fmt₃, h₃, hshown₃⟩ :=
    sendBogonList_shown .little false (fun _ => 0) 4096
      (show (BogonFile.ofLines bogonSampleLines).lines ≠ [] from List.cons_ne_nil _ _)
      (by decide) .next s₀ []
  refine ⟨s₀, msg, said, hinit, hsend, hsays, ?_⟩
  obtain ⟨fmt₀, h₀, hshown₀⟩ := hlines 0 _ rfl
  obtain ⟨fmt₁, h₁, hshown₁⟩ := hlines 1 _ rfl
  obtain ⟨fmt₂, h₂, hshown₂⟩ := hlines 2 _ rfl
  have hsaid : said = [fmt₀, fmt₁, fmt₂, fmt₃] := by
    match said, hlen with
    | [f₀, f₁, f₂, f₃], _ =>
      obtain rfl := Option.some.inj h₀
      obtain rfl := Option.some.inj h₁
      obtain rfl := Option.some.inj h₂
      obtain rfl := Option.some.inj h₃
      rfl
  rw [hsaid, List.map_cons, List.map_cons, List.map_cons, List.map_cons, List.map_nil, hshown₀,
    hshown₁, hshown₂, hshown₃]
  decide +kernel

/-! ## The flag is set -/

/-- **The flag is shown as it is set**, by whatever command. -/
theorem setUnderAttack_shown (e : Endian) (pad : Bool) (capacity : U32) {set : Bool} {msg : List U8}
    (hsend : setUnderAttack e capacity set = .ok (some msg)) (tv_sec : U64) (rest rest' : List U8) :
    logShown e pad true tv_sec LOGLEVEL_INFO
        (lfwStateSetUnderAttackNlSays e (genlAttrs msg rest)) rest' =
      .ok (some (logLine "INFO" tv_sec (asciiBytes
        (if set then "setting under attack\n" else "unsetting under attack\n")))) := by
  have hmsg : msg = underAttackMessage e set := by
    rw [setUnderAttack_eq] at hsend
    split at hsend
    · cases hsend
    · split at hsend
      · cases hsend
      · exact (Option.some.inj (Except.ok.inj hsend)).symm
  subst hmsg
  rw [lfwStateSetUnderAttackNlSays, nlaGetFlag_underAttackMessage, lfwUnderAttackFmt]
  cases set with
  | true =>
    have hprints := Prints.text ⟨asciiBytes "setting under attack\n", by decide⟩ prints_nil
    rw [List.append_nil] at hprints
    exact logShown_short e pad tv_sec rfl hprints (by decide) rest'
  | false =>
    have hprints := Prints.text ⟨asciiBytes "unsetting under attack\n", by decide⟩ prints_nil
    rw [List.append_nil] at hprints
    exact logShown_short e pad tv_sec rfl hprints (by decide) rest'

end Librefw
