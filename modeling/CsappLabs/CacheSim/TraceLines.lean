import CsappLabs.CacheSim.TraceText

/-!
# The lines of a trace

A record of the trace is a line with an operation, an address and a size.
`read_trace` does not see where a line ends, so an operation letter in any
other line becomes an access as well.
-/

namespace CsappLabs.CacheSim

open CsappLabs.Foundation

variable {addr : BitVec 64} {text rest line gap digits size : List UInt8} {c flag : UInt8}
  {r : Record} {fuel : Nat}

/-! ## The form of a line -/

def isblank (c : UInt8) : Bool := c = 32 ∨ c = 9

/-- The record of a line of the form `[blanks] operation blanks address,size`. -/
def lineRecord (line : List UInt8) : Option Record :=
  match line.dropWhile isblank with
  | [] => none
  | flag :: rest =>
      let address := rest.dropWhile isblank
      let digits := address.takeWhile isxdigit
      match address.dropWhile isxdigit with
      | 44 :: size =>
          if operation flag ∧ address ≠ rest ∧ digits ≠ [] ∧ hexNumber digits ≤ uint64Max ∧
              size ≠ [] ∧ size.all isdigit then
            some ⟨Char.ofUInt8 flag, BitVec.ofNat 64 (hexNumber digits)⟩
          else none
      | _ => none

def records (text : List UInt8) : List Record := (text.splitOn 10).filterMap lineRecord

structure LineParts (lead : List UInt8) (flag : UInt8) (gap digits size : List UInt8) : Prop where
  lead_blank : ∀ c ∈ lead, isblank c = true
  flag_op : operation flag = true
  gap_blank : ∀ c ∈ gap, isblank c = true
  gap_ne : gap ≠ []
  digits_hex : ∀ c ∈ digits, isxdigit c = true
  digits_ne : digits ≠ []
  address : hexNumber digits ≤ uint64Max
  size_digits : ∀ c ∈ size, isdigit c = true
  size_ne : size ≠ []

theorem isblank_isspace (c : UInt8) : isblank c = true → isspace c = true := by
  simp only [isblank, isspace, decide_eq_true_eq, UInt8.le_iff_toNat_le,
    ← UInt8.toNat_inj, UInt8.reduceToNat]
  omega

theorem operation_not_blank (c : UInt8) : operation c = true → ¬isblank c = true := by
  simp only [operation, isblank, decide_eq_true_eq, ← UInt8.toNat_inj, UInt8.reduceToNat]
  omega

theorem isxdigit_not_space (c : UInt8) : isxdigit c = true → ¬isspace c = true := by
  simp only [isxdigit, isdigit, isspace, decide_eq_true_eq, UInt8.le_iff_toNat_le,
    ← UInt8.toNat_inj, UInt8.reduceToNat]
  omega

theorem isxdigit_not_sign (c : UInt8) : isxdigit c = true → c ≠ 45 ∧ c ≠ 43 := by
  simp only [isxdigit, isdigit, ne_eq, decide_eq_true_eq, UInt8.le_iff_toNat_le,
    ← UInt8.toNat_inj, UInt8.reduceToNat]
  omega

theorem isxdigit_not_prefix (c : UInt8) : isxdigit c = true → ¬(c = 120 ∨ c = 88) := by
  simp only [isxdigit, isdigit, decide_eq_true_eq, UInt8.le_iff_toNat_le,
    ← UInt8.toNat_inj, UInt8.reduceToNat]
  omega

theorem head_isxdigit (hne : digits ≠ []) (hd : ∀ c ∈ digits, isxdigit c = true) :
    ∃ d ds, digits = d :: ds ∧ isxdigit d = true := by
  obtain ⟨d, ds, rfl⟩ := List.exists_cons_of_ne_nil hne
  exact ⟨d, ds, rfl, hd d List.mem_cons_self⟩

theorem dropWhile_gap {p : UInt8 → Bool} (hgap : ∀ c ∈ gap, p c = true)
    (hne : digits ≠ []) (hd : ∀ c ∈ digits, isxdigit c = true)
    (hp : ∀ c, isxdigit c = true → ¬p c = true) :
    (gap ++ (digits ++ rest)).dropWhile p = digits ++ rest := by
  obtain ⟨d, ds, rfl, hhex⟩ := head_isxdigit hne hd
  rw [List.dropWhile_append_of_pos hgap]
  exact List.dropWhile_cons_of_neg (hp d hhex)

theorem takeWhile_digits (hd : ∀ c ∈ digits, isxdigit c = true) :
    (digits ++ 44 :: rest).takeWhile isxdigit = digits := by
  rw [List.takeWhile_append_of_pos hd, List.takeWhile_cons_of_neg (by decide), List.append_nil]

theorem dropWhile_digits (hd : ∀ c ∈ digits, isxdigit c = true) :
    (digits ++ 44 :: rest).dropWhile isxdigit = 44 :: rest := by
  rw [List.dropWhile_append_of_pos hd, List.dropWhile_cons_of_neg (by decide)]

theorem lineRecord_eq_some_iff :
    lineRecord line = some r ↔
      ∃ lead flag gap digits size, LineParts lead flag gap digits size ∧
        line = lead ++ flag :: (gap ++ (digits ++ 44 :: size)) ∧
        r = ⟨Char.ofUInt8 flag, BitVec.ofNat 64 (hexNumber digits)⟩ := by
  constructor
  · intro h
    unfold lineRecord at h
    split at h
    · cases h
    · rename_i flag rest hflag
      dsimp only at h
      split at h
      · rename_i size hsize
        split at h
        · rename_i hform
          obtain ⟨hop, hgap, hdigits, haddr, hne, hall⟩ := hform
          cases h
          refine ⟨line.takeWhile isblank, flag, rest.takeWhile isblank,
            (rest.dropWhile isblank).takeWhile isxdigit, size,
            ⟨fun c hc => List.mem_takeWhile_imp hc, hop, fun c hc => List.mem_takeWhile_imp hc, ?_,
              fun c hc => List.mem_takeWhile_imp hc, hdigits, haddr, by simpa using hall, hne⟩,
            ?_, rfl⟩
          · intro hnil
            have hsplit := List.takeWhile_append_dropWhile (p := isblank) (l := rest)
            rw [hnil] at hsplit
            exact hgap hsplit
          · rw [← hsize, List.takeWhile_append_dropWhile, List.takeWhile_append_dropWhile, ← hflag,
              List.takeWhile_append_dropWhile]
        · cases h
      · cases h
  · rintro ⟨lead, flag, gap, digits, size, h, rfl, rfl⟩
    have hflag : (lead ++ flag :: (gap ++ (digits ++ 44 :: size))).dropWhile isblank =
        flag :: (gap ++ (digits ++ 44 :: size)) := by
      rw [List.dropWhile_append_of_pos h.lead_blank,
        List.dropWhile_cons_of_neg (operation_not_blank flag h.flag_op)]
    have haddress : (gap ++ (digits ++ 44 :: size)).dropWhile isblank = digits ++ 44 :: size :=
      dropWhile_gap h.gap_blank h.digits_ne h.digits_hex fun c hc =>
        mt (isblank_isspace c) (isxdigit_not_space c hc)
    have hgap : digits ++ 44 :: size ≠ gap ++ (digits ++ 44 :: size) := by
      intro heq
      exact h.gap_ne (List.self_eq_append_left.mp heq)
    simp only [lineRecord, hflag, haddress, takeWhile_digits h.digits_hex,
      dropWhile_digits h.digits_hex]
    exact if_pos ⟨h.flag_op, hgap, h.digits_ne, h.address, h.size_ne,
      List.all_eq_true.mpr h.size_digits⟩

theorem lineRecord_blank (h : isblank c = true) : lineRecord (c :: line) = lineRecord line := by
  rw [lineRecord, List.dropWhile_cons_of_pos h]
  rfl

theorem takeSign_digit (h : isxdigit c = true) : takeSign (c :: text) = (false, c :: text) := by
  obtain ⟨hminus, hplus⟩ := isxdigit_not_sign c h
  exact takeSign_of_ne hminus hplus

theorem scanPrefix_digits (hd : ∀ c ∈ digits, isxdigit c = true) :
    scanPrefix (digits ++ 44 :: rest) = digits ++ 44 :: rest := by
  unfold scanPrefix
  split
  · rename_i c text heq
    rw [heq]
    refine if_neg ?_
    rcases digits with - | ⟨d, - | ⟨e, ds⟩⟩
    · cases heq
    · cases heq
      decide
    · cases heq
      exact isxdigit_not_prefix c (hd c (by simp))
  · rfl

theorem LineParts.scanned {lead : List UInt8} (h : LineParts lead flag gap digits size) (rest : List UInt8) :
    scanHex (gap ++ (digits ++ 44 :: rest)) =
      (some (BitVec.ofNat 64 (hexNumber digits)), 44 :: rest) := by
  have hspace : (gap ++ (digits ++ 44 :: rest)).dropWhile isspace = digits ++ 44 :: rest :=
    dropWhile_gap (fun c hc => isblank_isspace c (h.gap_blank c hc)) h.digits_ne h.digits_hex
      isxdigit_not_space
  have hsign : takeSign (digits ++ 44 :: rest) = (false, digits ++ 44 :: rest) := by
    obtain ⟨d, ds, rfl, hhex⟩ := head_isxdigit h.digits_ne h.digits_hex
    exact takeSign_digit hhex
  have hvalue : strtoul false digits = BitVec.ofNat 64 (hexNumber digits) := by
    rw [strtoul, if_neg (Nat.not_lt.mpr h.address)]
    rfl
  simp only [scanHex, hspace, hsign, scanPrefix_digits h.digits_hex,
    takeWhile_digits h.digits_hex, dropWhile_digits h.digits_hex, if_neg h.digits_ne, hvalue]

theorem filter_operation_eq_nil {l : List UInt8} {p : UInt8 → Bool} (hl : ∀ c ∈ l, p c = true)
    (hp : ∀ c, p c = true → operation c = false) : l.filter operation = [] := by
  rw [List.filter_eq_nil_iff]
  intro c hc
  simp [hp c (hl c hc)]

theorem LineParts.filter_tail {lead : List UInt8} (h : LineParts lead flag gap digits size) :
    (gap ++ (digits ++ 44 :: size)).filter operation = [] := by
  have hgap := filter_operation_eq_nil h.gap_blank fun c hc =>
    operation_isspace c (isblank_isspace c hc)
  have hdigits := filter_operation_eq_nil h.digits_hex operation_isxdigit
  have hsize := filter_operation_eq_nil h.size_digits operation_isdigit
  rw [List.filter_append, List.filter_append, hgap, hdigits, List.filter_cons_of_neg (by decide),
    hsize]
  rfl

theorem lineRecord_filter (h : lineRecord line = some r) : (line.filter operation).length = 1 := by
  obtain ⟨lead, flag, gap, digits, size, hparts, rfl, -⟩ := lineRecord_eq_some_iff.mp h
  have hlead := filter_operation_eq_nil hparts.lead_blank fun c hc =>
    operation_isspace c (isblank_isspace c hc)
  rw [List.filter_append, hlead, List.filter_cons_of_pos hparts.flag_op, hparts.filter_tail]
  rfl

theorem lineRecord_eq_none (h : line.filter operation = []) : lineRecord line = none := by
  refine Option.eq_none_iff_forall_ne_some.mpr fun r hr => ?_
  have hone := lineRecord_filter hr
  rw [h] at hone
  cases hone

/-! ## Lines -/

/-- A line that is no record has no operation. -/
def Plain (line : List UInt8) : Prop := lineRecord line = none → line.filter operation = []

/-- No line but a record has an operation letter. -/
def OnlyRecords (text : List UInt8) : Prop := ∀ line ∈ text.splitOn 10, Plain line

theorem splitOn_newline (text : List UInt8) : (10 :: text).splitOn 10 = [] :: text.splitOn 10 :=
  List.splitOn_cons_eq_if_modifyHead 10 text

theorem splitOn_char (hc : c ≠ 10) (text : List UInt8) :
    ∃ line lines, text.splitOn 10 = line :: lines ∧
      (c :: text).splitOn 10 = (c :: line) :: lines := by
  obtain ⟨line, lines, hlines⟩ := List.exists_cons_of_ne_nil (List.splitOn_ne_nil 10 text)
  refine ⟨line, lines, hlines, ?_⟩
  rw [List.splitOn_cons_eq_if_modifyHead, if_neg (by simpa using hc), hlines]
  rfl

theorem splitOn_prefix {lines : List (List UInt8)} (h : text.splitOn 10 = line :: lines) :
    ∃ rest, text = line ++ rest := by
  induction text generalizing line lines with
  | nil =>
      cases h
      exact ⟨[], rfl⟩
  | cons c text ih =>
      by_cases hc : c = 10
      · subst hc
        rw [splitOn_newline] at h
        cases h
        exact ⟨10 :: text, rfl⟩
      · obtain ⟨first, others, hlines, hcons⟩ := splitOn_char hc text
        rw [hcons] at h
        cases h
        obtain ⟨rest, rfl⟩ := ih hlines
        exact ⟨rest, rfl⟩

/-! ## Reading lines -/

theorem Plain.skip (hc : operation c = false) (h : Plain (c :: line)) :
    Plain line ∧ lineRecord (c :: line) = lineRecord line := by
  by_cases hblank : isblank c = true
  · have hsame : lineRecord (c :: line) = lineRecord line := lineRecord_blank hblank
    refine ⟨fun hnone => ?_, hsame⟩
    rw [← hsame] at hnone
    rw [← h hnone, List.filter_cons_of_neg (by simp [hc])]
  · have hnone : lineRecord (c :: line) = none := by
      refine Option.eq_none_iff_forall_ne_some.mpr fun r hr => ?_
      obtain ⟨lead, flag, gap, digits, size, hparts, heq, -⟩ := lineRecord_eq_some_iff.mp hr
      cases lead with
      | nil =>
          cases heq
          simp [hparts.flag_op] at hc
      | cons d lead =>
          cases heq
          exact hblank (hparts.lead_blank c List.mem_cons_self)
    have hline : line.filter operation = [] := by
      rw [← h hnone, List.filter_cons_of_neg (by simp [hc])]
    exact ⟨fun _ => hline, hnone.trans (lineRecord_eq_none hline).symm⟩

theorem Plain.take (hc : operation c = true) (h : Plain (c :: line)) :
    line.filter operation = [] ∧ ∃ addr, lineRecord (c :: line) = some ⟨Char.ofUInt8 c, addr⟩ ∧
      ∀ rest, ∃ rest', scanHex (line ++ rest) = (some addr, 44 :: rest') := by
  have hsome : lineRecord (c :: line) ≠ none := by
    intro hnone
    have hfilter := h hnone
    rw [List.filter_cons_of_pos hc] at hfilter
    cases hfilter
  obtain ⟨r, hr⟩ := Option.ne_none_iff_exists'.mp hsome
  obtain ⟨lead, flag, gap, digits, size, hparts, heq, hrecord⟩ := lineRecord_eq_some_iff.mp hr
  cases lead with
  | nil =>
      cases heq
      refine ⟨hparts.filter_tail, _, hr.trans (congrArg some hrecord), fun rest => ?_⟩
      rw [List.append_assoc, List.append_assoc, List.cons_append]
      exact ⟨_, hparts.scanned (size ++ rest)⟩
  | cons d lead =>
      cases heq
      exact absurd (hparts.lead_blank c List.mem_cons_self) (operation_not_blank c hc)

theorem OnlyRecords.skip (hc : operation c = false) (h : OnlyRecords (c :: text)) :
    OnlyRecords text ∧ records (c :: text) = records text := by
  by_cases hnl : c = 10
  · subst hnl
    rw [OnlyRecords, splitOn_newline] at h
    rw [records, splitOn_newline]
    exact ⟨fun line hline => h line (List.mem_cons_of_mem _ hline), rfl⟩
  · obtain ⟨line, lines, hlines, hcons⟩ := splitOn_char hnl text
    rw [OnlyRecords, hcons, List.forall_mem_cons] at h
    obtain ⟨hplain, hsame⟩ := h.1.skip hc
    rw [OnlyRecords, records, records, hcons, hlines]
    refine ⟨List.forall_mem_cons.mpr ⟨hplain, h.2⟩, ?_⟩
    rw [List.filterMap_cons, List.filterMap_cons, hsame]

theorem OnlyRecords.take (hc : operation c = true) (h : OnlyRecords (c :: text)) :
    OnlyRecords text ∧ ∃ addr rest, records (c :: text) = ⟨Char.ofUInt8 c, addr⟩ :: records text ∧
      scanHex text = (some addr, 44 :: rest) := by
  have hnl : c ≠ 10 := by
    rintro rfl
    cases hc
  obtain ⟨line, lines, hlines, hcons⟩ := splitOn_char hnl text
  rw [OnlyRecords, hcons, List.forall_mem_cons] at h
  obtain ⟨hfilter, addr, hrecord, hscan⟩ := h.1.take hc
  obtain ⟨rest, hrest⟩ := splitOn_prefix hlines
  obtain ⟨rest', hrest'⟩ := hscan rest
  rw [← hrest] at hrest'
  rw [OnlyRecords, records, records, hcons, hlines]
  refine ⟨List.forall_mem_cons.mpr ⟨fun _ => hfilter, h.2⟩, addr, rest', ?_, hrest'⟩
  rw [List.filterMap_cons_some hrecord, List.filterMap_cons_none (lineRecord_eq_none hfilter)]

theorem OnlyRecords.passes (hpass : Passes text rest) (h : OnlyRecords text) :
    OnlyRecords rest ∧ records text = records rest := by
  induction hpass with
  | refl => exact ⟨h, rfl⟩
  | skip hc _ ih =>
      obtain ⟨htext, hsame⟩ := h.skip hc
      obtain ⟨hrest, hrecords⟩ := ih htext
      exact ⟨hrest, hsame.trans hrecords⟩

theorem scanTrace_records {trace : List Record} (h : OnlyRecords text)
    (hscan : scanTrace fuel addr text = some trace) : accessing trace = records text := by
  induction fuel generalizing addr text trace with
  | zero => cases hscan
  | succ fuel ih =>
      unfold scanTrace at hscan
      split at hscan
      · rename_i heof
        cases hscan
        rw [(h.passes (fscanf_eof heof)).2]
        rfl
      · rename_i r rest hone
        obtain ⟨tail, htail, heq⟩ := Option.bind_eq_some_iff.mp hscan
        cases heq
        obtain ⟨flag, mid, hpass, hflag, hmid, haddr⟩ := fscanf_passes hone
        obtain ⟨hcons, hrecords⟩ := h.passes hpass
        rw [hrecords]
        by_cases hop : operation flag = true
        · obtain ⟨hok, addr', rest', htake, hhex⟩ := hcons.take hop
          obtain ⟨hrest, hsame⟩ := hok.passes hmid
          have hr : r = ⟨Char.ofUInt8 flag, addr'⟩ := by
            rw [← hflag, ← haddr _ _ hhex]
          rw [htake, hsame, ← ih hrest htail, ← hr]
          exact accessing_operation hflag hop tail
        · obtain ⟨hok, hskip⟩ := hcons.skip (by simpa using hop)
          obtain ⟨hrest, hsame⟩ := hok.passes hmid
          rw [hskip, hsame, ← ih hrest htail]
          exact accessing_other hflag hop tail

/-! ## Counting operations -/

theorem count_splitOn (text : List UInt8) :
    ((text.splitOn 10).map fun line => (line.filter operation).length).sum =
      (text.filter operation).length := by
  induction text with
  | nil => rfl
  | cons c text ih =>
      by_cases hnl : c = 10
      · subst hnl
        rw [splitOn_newline, List.map_cons, List.sum_cons, ih,
          List.filter_cons_of_neg (by decide)]
        exact Nat.zero_add _
      · obtain ⟨line, lines, hlines, hcons⟩ := splitOn_char hnl text
        rw [hlines, List.map_cons, List.sum_cons] at ih
        rw [hcons, List.map_cons, List.sum_cons]
        by_cases hop : operation c = true
        · rw [List.filter_cons_of_pos hop, List.filter_cons_of_pos hop, List.length_cons,
            List.length_cons, ← ih]
          omega
        · rw [List.filter_cons_of_neg hop, List.filter_cons_of_neg hop, ih]

/-- Lines have at least as many operations as records, and as many only when
every line without a record is plain. -/
theorem count_records (lines : List (List UInt8)) :
    (lines.filterMap lineRecord).length ≤
        (lines.map fun line => (line.filter operation).length).sum ∧
      ((lines.filterMap lineRecord).length =
        (lines.map fun line => (line.filter operation).length).sum → ∀ line ∈ lines, Plain line) := by
  induction lines with
  | nil => simp
  | cons line lines ih =>
      obtain ⟨hle, heq⟩ := ih
      rw [List.map_cons, List.sum_cons, List.forall_mem_cons]
      cases hline : lineRecord line with
      | none =>
          rw [List.filterMap_cons_none hline]
          refine ⟨by omega, fun hcount => ⟨fun _ => ?_, heq (by omega)⟩⟩
          exact List.eq_nil_of_length_eq_zero (by omega)
      | some r =>
          have hone := lineRecord_filter hline
          rw [List.filterMap_cons_some hline, List.length_cons]
          refine ⟨by omega, fun hcount => ⟨fun hnone => ?_, heq (by omega)⟩⟩
          cases hline.symm.trans hnone

/-- `read_trace` comes to the end of the file, and its accesses are the records
of the lines, if and only if no other line has an operation letter. -/
theorem accesses_are_records_iff (addr : BitVec 64) (text : List UInt8) :
    (∃ trace, scanTrace (text.length + 1) addr text = some trace ∧
      accessing trace = records text) ↔ OnlyRecords text := by
  obtain ⟨trace, htrace⟩ := scanTrace_terminates addr (Nat.lt_succ_self text.length)
  constructor
  · rintro ⟨trace', htrace', heq⟩
    have hflags := congrArg List.length (scanTrace_flags htrace')
    rw [List.length_map, List.length_map, heq, ← count_splitOn] at hflags
    exact (count_records _).2 hflags
  · exact fun h => ⟨trace, htrace, scanTrace_records h htrace⟩

/-- The banner of the trace in the handout is read as a load from address 172. -/
theorem banner_is_accessed :
    ¬∃ trace, scanTrace 44 0 (chars "==11324== Lackey, an example Valgrind tool\n") = some trace ∧
      accessing trace = records (chars "==11324== Lackey, an example Valgrind tool\n") := by
  have hscan : (scanTrace 44 0 (chars "==11324== Lackey, an example Valgrind tool\n")).map
      accessing = some [⟨'L', 172⟩] := by
    rfl
  have hrecords : records (chars "==11324== Lackey, an example Valgrind tool\n") = [] := by
    rfl
  rintro ⟨trace, htrace, heq⟩
  rw [htrace, Option.map_some, heq, hrecords] at hscan
  cases hscan

theorem readText_records {g : Geometry} {sim : Sim} (hg : g.Valid)
    (hsets : sim.cache.length = 2 ^ g.s) (addr : BitVec 64) (h : OnlyRecords text) :
    readText g sim addr text = readTrace g sim (records text) := by
  obtain ⟨trace, htrace⟩ := scanTrace_terminates addr (Nat.lt_succ_self text.length)
  rw [← scanTrace_records h htrace, readTrace_accessing hg hsets, readText, htrace]
  rfl

end CsappLabs.CacheSim
