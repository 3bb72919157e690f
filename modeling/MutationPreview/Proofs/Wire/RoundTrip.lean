import MutationPreview.Command.Session
import MutationPreview.Proofs.Standard
import MutationPreview.Proofs.Text.Basic

/-!
# Reading records back

What is written in the wire format is read back as it was. Strings come first: reading undoes each
escape (`readStringFrom_escapeChar`). Then both written forms are one form with different blanks
between the same signs (`Layout`), and since every reader passes over blanks, one proof covers both
(`read_written`).

Main statement: both forms are read back to the records, and what the command line prints in either
of them is read back to the records of the conversion, with an exit code that tells whether one of
them is an error (`Command.read_printed`).
-/

namespace MutationPreview

namespace Wire

/-! ## Strings -/

theorem hexValue?_hexDigit : ∀ n < 16, hexValue? (hexDigit n) = some n := by decide

/-- A numeric escape with four digits, of which the first two are zero, stands for its character. -/
theorem readStringFrom_numeric {c : Char} (hc : c.toNat < 32) (rest : Text) :
    readStringFrom .escape
        ('u' :: '0' :: '0' :: hexDigit (c.toNat / 16) :: hexDigit (c.toNat % 16) :: rest) =
      pushChar c (readStringFrom .plain rest) := by
  have hzero : hexValue? '0' = some 0 := by decide
  have hhigh := hexValue?_hexDigit (c.toNat / 16) (by omega)
  have hlow := hexValue?_hexDigit (c.toNat % 16) (by omega)
  have hvalue : c.toNat / 16 * 16 + c.toNat % 16 = c.toNat := by omega
  have hmeaning : unitMeaning c.toNat none = .char c := by
    rw [unitMeaning, if_neg (by omega), if_neg (by omega), Char.ofNat_toNat]
  simp [readStringFrom, hzero, hhigh, hlow, hvalue, hmeaning]

/-- Reading undoes the escape of a character. -/
theorem readStringFrom_escapeChar (c : Char) (rest : Text) :
    readStringFrom .plain (escapeChar c ++ rest) = pushChar c (readStringFrom .plain rest) := by
  by_cases hshort : c ∈ ['"', '\\', '\x08', '\t', '\n', '\x0c', '\r']
  · -- these have a letter of their own
    simp only [List.mem_cons, List.not_mem_nil, or_false] at hshort
    rcases hshort with rfl | rfl | rfl | rfl | rfl | rfl | rfl <;> rfl
  · simp only [List.mem_cons, List.not_mem_nil, or_false, not_or] at hshort
    obtain ⟨hquote, hslash, hback, htab, hfeed, hform, hreturn⟩ := hshort
    rw [escapeChar, if_neg hquote, if_neg hslash, if_neg hback, if_neg htab, if_neg hfeed,
      if_neg hform, if_neg hreturn]
    split
    · next hcontrol => exact readStringFrom_numeric hcontrol rest
    · next hcontrol =>
      rw [List.singleton_append, readStringFrom, if_neg hquote, if_neg hslash, if_neg hcontrol]

theorem readString_escaped (t rest : Text) :
    readString (t.flatMap escapeChar ++ '"' :: rest) = some (t, rest) := by
  induction t with
  | nil => rfl
  | cons c t ih =>
    rw [readString] at ih ⊢
    rw [List.flatMap_cons, List.append_assoc, readStringFrom_escapeChar, ih]
    rfl

/-! ## Blanks and values -/

section Space

variable {gap : Text} (hgap : ∀ c ∈ gap, isSpace c = true)

include hgap

/-- Readers pass over blanks. -/
theorem skipSpace_append (t : Text) : skipSpace (gap ++ t) = skipSpace t :=
  List.dropWhile_append_of_pos hgap

theorem expect_append (sign : Char) (t : Text) : expect sign (gap ++ t) = expect sign t := by
  rw [expect, expect, skipSpace_append hgap]

theorem readText_append (t : Text) : readText (gap ++ t) = readText t := by
  rw [readText, readText, expect_append hgap]

theorem readBool_append (t : Text) : readBool (gap ++ t) = readBool t := by
  rw [readBool, readBool, skipSpace_append hgap]

theorem readRecord_append (t : Text) : readRecord (gap ++ t) = readRecord t := by
  rw [readRecord, readRecord, skipSpace_append hgap]

end Space

theorem skipSpace_cons {c : Char} (hc : isSpace c = false) (t : Text) :
    skipSpace (c :: t) = c :: t :=
  List.dropWhile_cons_of_neg (by simp [hc])

theorem expect_cons {c : Char} (hc : isSpace c = false) (sign : Char) (t : Text) :
    expect sign (c :: t) = if c = sign then some t else none := by
  rw [expect, skipSpace_cons hc]

theorem readText_quote (t rest : Text) : readText (quote t ++ rest) = some (t, rest) := by
  have hquote : quote t ++ rest = '"' :: (t.flatMap escapeChar ++ '"' :: rest) := by simp [quote]
  rw [hquote, readText, expect_cons (by decide), if_pos rfl, Option.bind_some, readString_escaped]

theorem readBool_writeBool (b : Bool) (rest : Text) :
    readBool (writeBool b ++ rest) = some (b, rest) := by
  cases b <;> rfl

/-! ## Layouts -/

/-- The blanks of a written form: before a record, a member, its value, the closing brace of a
record, and the closing bracket of the whole. -/
structure Layout where
  record : Text
  member : Text
  value : Text
  brace : Text
  bracket : Text
  blank : ∀ c ∈ record ++ member ++ value ++ brace ++ bracket, isSpace c = true := by decide

namespace Layout

/-- No blanks at all. -/
def compact : Layout where
  record := []
  member := []
  value := []
  brace := []
  bracket := []

/-- One member a line. -/
def indented : Layout where
  record := "\n  ".toList
  member := "\n    ".toList
  value := [' ']
  brace := "\n  ".toList
  bracket := ['\n']

variable (l : Layout)

/-- A member with a given name and written value. -/
def writeMember (name value : Text) : Text := l.member ++ quote name ++ ':' :: (l.value ++ value)

/-- A record, from behind its opening brace on. -/
def writeMembers (r : Record) : Text :=
  List.intercalate [','] ((membersOf r).map fun m => l.writeMember m.1 m.2) ++ l.brace ++ ['\x7d']

def writeRecord (r : Record) : Text := l.record ++ '\x7b' :: l.writeMembers r

/-- Records, from behind the opening bracket on. -/
def writeRecords (records : List Record) : Text :=
  List.intercalate [','] (records.map l.writeRecord) ++ l.bracket ++ [']']

end Layout

theorem compactRecord_eq (r : Record) : compactRecord r = Layout.compact.writeRecord r := by
  simp [compactRecord, Layout.writeRecord, Layout.writeMembers, Layout.writeMember, Layout.compact]

theorem compact_eq (records : List Record) :
    compact records = '[' :: Layout.compact.writeRecords records := by
  simp [compact, Layout.writeRecords, funext compactRecord_eq, Layout.compact]

/-- The blanks behind a comma may go with the text that they stand before. -/
theorem append_intercalate (gap : Text) {ts : List Text} (hne : ts ≠ []) :
    gap ++ List.intercalate (',' :: gap) ts = List.intercalate [','] (ts.map (gap ++ ·)) := by
  induction ts with
  | nil => exact absurd rfl hne
  | cons t ts ih =>
    cases ts with
    | nil => simp
    | cons u ts => simpa using ih (by simp)

theorem indentedRecord_eq (r : Record) :
    '\n' :: indentedRecord r = Layout.indented.writeRecord r := by
  simp [indentedRecord, membersOf, Layout.writeRecord, Layout.writeMembers, Layout.writeMember,
    Layout.indented]

theorem indented_eq {records : List Record} (hne : records ≠ []) :
    indented records = '[' :: Layout.indented.writeRecords records := by
  obtain ⟨r, records, rfl⟩ := List.exists_cons_of_ne_nil hne
  have hrecords : ('\n' :: ·) ∘ indentedRecord = Layout.indented.writeRecord :=
    funext indentedRecord_eq
  have hwritten : (r :: records).map indentedRecord ≠ [] := by simp
  have hgap := append_intercalate ['\n'] hwritten
  rw [List.map_map] at hgap
  simp only [List.singleton_append] at hgap
  rw [hrecords] at hgap
  rw [indented, Layout.writeRecords, ← hgap]
  · simp [Layout.indented]
  · simp

/-! ## Reading what is written -/

section Members

variable (l : Layout) {fuel : Nat} {d : Draft} {name value rest : Text}

theorem Layout.isSpace_member {c : Char} (hc : c ∈ l.member) : isSpace c = true :=
  l.blank c (by simp [hc])

theorem Layout.isSpace_value {c : Char} (hc : c ∈ l.value) : isSpace c = true :=
  l.blank c (by simp [hc])

theorem Layout.isSpace_brace {c : Char} (hc : c ∈ l.brace) : isSpace c = true :=
  l.blank c (by simp [hc])

theorem readText_writeMember (name value rest : Text) :
    readText (l.writeMember name value ++ rest) = some (name, ':' :: (l.value ++ (value ++ rest))) := by
  have hsplit : l.writeMember name value ++ rest =
      l.member ++ (quote name ++ ':' :: (l.value ++ (value ++ rest))) := by
    simp [Layout.writeMember]
  rw [hsplit, readText_append fun c hc => l.isSpace_member hc, readText_quote]

/-- A member is read, and another one follows. -/
theorem readMembers_comma (d' : Draft)
    (hvalue : readMember d name (l.value ++ (value ++ ',' :: rest)) = some (d', ',' :: rest)) :
    readMembers (fuel + 1) d (l.writeMember name value ++ ',' :: rest) =
      readMembers fuel d' rest := by
  simp [readMembers, readText_writeMember, expect_cons, isSpace, hvalue]

/-- The last member is read, and the record is complete. -/
theorem readMembers_brace {r : Record} (d' : Draft) (hrecord : d'.record? = some r)
    (hvalue : readMember d name (l.value ++ (value ++ (l.brace ++ '\x7d' :: rest))) =
      some (d', l.brace ++ '\x7d' :: rest)) :
    readMembers (fuel + 1) d (l.writeMember name value ++ (l.brace ++ '\x7d' :: rest)) =
      some (r, rest) := by
  have hbrace : ∀ sign, expect sign (l.brace ++ '\x7d' :: rest) =
      if '\x7d' = sign then some rest else none := fun sign => by
    rw [expect_append fun c hc => l.isSpace_brace hc, expect_cons (by decide)]
  simp [readMembers, readText_writeMember, expect_cons, isSpace, hvalue, hbrace, hrecord]

theorem readMembers_writeMembers (r : Record) (rest : Text) :
    readMembers (fuel + 3) {} (l.writeMembers r ++ rest) = some (r, rest) := by
  have hsplit : l.writeMembers r ++ rest = l.writeMember "sql".toList (quote r.sql) ++ ',' ::
      (l.writeMember "isError".toList (writeBool r.isError) ++ ',' ::
        (l.writeMember "message".toList (quote r.message) ++ (l.brace ++ '\x7d' :: rest))) := by
    simp [Layout.writeMembers, membersOf]
  have htext : ∀ t rest, readText (l.value ++ (quote t ++ rest)) = some (t, rest) := fun t rest => by
    rw [readText_append fun c hc => l.isSpace_value hc, readText_quote]
  have hbool : ∀ b rest, readBool (l.value ++ (writeBool b ++ rest)) = some (b, rest) :=
    fun b rest => by
      rw [readBool_append fun c hc => l.isSpace_value hc, readBool_writeBool]
  rw [hsplit, readMembers_comma l { sql := some r.sql } (by simp [readMember, htext]),
    readMembers_comma l { sql := some r.sql, isError := some r.isError }
      (by simp [readMember, hbool]),
    readMembers_brace l ⟨some r.sql, some r.isError, some r.message⟩ rfl
      (by simp [readMember, htext])]

end Members

theorem readRecord_writeRecord (l : Layout) (r : Record) (rest : Text) :
    readRecord (l.writeRecord r ++ rest) = some (r, rest) := by
  have hspace : ∀ c ∈ l.record, isSpace c = true := fun c hc => l.blank c (by simp [hc])
  have hlength : 3 ≤ (l.writeMembers r ++ rest).length := by
    simp [Layout.writeMembers, Layout.writeMember, membersOf, quote]
    omega
  obtain ⟨fuel, hfuel⟩ := Nat.exists_eq_add_of_le' hlength
  rw [Layout.writeRecord, List.append_assoc, List.cons_append, readRecord_append hspace, readRecord,
    skipSpace_cons (by decide)]
  change readMembers (l.writeMembers r ++ rest).length {} (l.writeMembers r ++ rest) = some (r, rest)
  rw [hfuel, readMembers_writeMembers]

/-- A record and those behind it are read, with as many steps as there are records. -/
theorem readElements_written (l : Layout) (r : Record) (records : List Record) (rest : Text)
    {fuel : Nat} (hfuel : records.length < fuel) :
    readElements fuel (l.writeRecords (r :: records) ++ rest) = some (r :: records, rest) := by
  have hspace : ∀ c ∈ l.bracket, isSpace c = true := fun c hc => l.blank c (by simp [hc])
  have hbracket : ∀ sign, expect sign (l.bracket ++ ']' :: rest) =
      if ']' = sign then some rest else none := fun sign => by
    rw [expect_append hspace, expect_cons (by decide)]
  obtain ⟨fuel, rfl⟩ := Nat.exists_eq_add_of_le' (show 1 ≤ fuel by omega)
  induction records generalizing r fuel with
  | nil =>
    have hsplit : l.writeRecords [r] ++ rest = l.writeRecord r ++ (l.bracket ++ ']' :: rest) := by
      simp [Layout.writeRecords]
    simp [hsplit, readElements, readRecord_writeRecord, hbracket]
  | cons r' records ih =>
    have hsplit : l.writeRecords (r :: r' :: records) ++ rest =
        l.writeRecord r ++ ',' :: (l.writeRecords (r' :: records) ++ rest) := by
      simp [Layout.writeRecords]
    obtain ⟨fuel, rfl⟩ := Nat.exists_eq_add_of_le' (show 1 ≤ fuel by simp at hfuel; omega)
    have hrest := ih r' fuel (by simpa using hfuel)
    rw [hsplit, readElements, readRecord_writeRecord]
    simp [expect_cons, isSpace, hrest]

theorem length_lt_writeRecords (l : Layout) (r : Record) (records : List Record) (rest : Text) :
    records.length < (l.writeRecords (r :: records) ++ rest).length := by
  induction records generalizing r with
  | nil =>
    have hne : l.writeRecords [r] ++ rest ≠ [] := by simp [Layout.writeRecords]
    exact List.length_pos_iff.mpr hne
  | cons r' records ih =>
    have hlater := ih r'
    simp [Layout.writeRecords] at hlater ⊢
    omega

/-- Written records are read back, whatever the layout and with blanks behind them. -/
theorem read_written (l : Layout) (records : List Record) {tail : Text}
    (htail : ∀ c ∈ tail, isSpace c = true) :
    read ('[' :: (l.writeRecords records ++ tail)) = some records := by
  have hend : skipSpace tail = [] := by
    have hskip := skipSpace_append htail []
    rwa [List.append_nil] at hskip
  rw [read, expect_cons (by decide), if_pos rfl]
  cases records with
  | nil =>
    have hspace : ∀ c ∈ l.bracket, isSpace c = true := fun c hc => l.blank c (by simp [hc])
    have hclose : expect ']' (l.writeRecords [] ++ tail) = some tail := by
      have hsplit : l.writeRecords [] ++ tail = l.bracket ++ ']' :: tail := by
        simp [Layout.writeRecords]
      rw [hsplit, expect_append hspace, expect_cons (by decide), if_pos rfl]
    simp [hclose, hend]
  | cons r records =>
    have hspace : ∀ c ∈ l.record, isSpace c = true := fun c hc => l.blank c (by simp [hc])
    obtain ⟨more, hsplit⟩ : ∃ more, l.writeRecords (r :: records) ++ tail =
        l.record ++ '\x7b' :: more := by
      cases records <;> simp [Layout.writeRecords, Layout.writeRecord]
    have hopen : expect ']' (l.writeRecords (r :: records) ++ tail) = none := by
      rw [hsplit, expect_append hspace, expect_cons (by decide), if_neg (by decide)]
    have hread := readElements_written l r records tail (length_lt_writeRecords l r records tail)
    generalize l.writeRecords (r :: records) ++ tail = written at hopen hread ⊢
    simp [hopen, hread, hend]

/-- The compact form is read back, with blanks behind it or without. -/
theorem read_compact (records : List Record) {tail : Text} (htail : ∀ c ∈ tail, isSpace c = true) :
    read (compact records ++ tail) = some records := by
  rw [compact_eq]
  exact read_written .compact records htail

/-- The indented form is read back, with blanks behind it or without. -/
theorem read_indented (records : List Record) {tail : Text} (htail : ∀ c ∈ tail, isSpace c = true) :
    read (indented records ++ tail) = some records := by
  by_cases hnil : records = []
  · rw [hnil]
    exact read_compact [] htail
  · rw [indented_eq hnil]
    exact read_written .indented records htail

end Wire

/-! ## What the command line prints -/

namespace Command

theorem read_render {format : OutputFormat} (hformat : format ≠ .table) (records : List Record) :
    Wire.read (render format records) = some records := by
  cases format with
  | json => exact Wire.read_compact records (by decide)
  | pretty => exact Wire.read_indented records (by decide)
  | table => exact absurd rfl hformat

/-- A conversion that is not refused prints its records and tells by its exit code whether one of
them is an error. -/
theorem run_of_records {s : Surroundings} {args : List Text} {i : Invocation} {job : Job}
    {records : List Record} (hargs : Invocation.read args = .ok i) (haction : i.action = .convert)
    (hjob : loadJob s i = .ok job) (hrecords : job.records = .ok records) :
    run s args =
      { exit := if records.any Record.isError then 1 else 0, stdout := render i.format records } := by
  rw [run, hargs]
  simp [Invocation.run, haction, hjob, runConvert, hrecords]

/-- Both written forms are read back to the records. So is what the command line prints in one of
them for a batch that meets the preconditions, and the exit code is 0 exactly when no record is an
error. -/
theorem read_printed :
    (∀ records, Wire.read (Wire.compact records) = some records ∧
      Wire.read (Wire.indented records) = some records) ∧
    ∀ (s : Surroundings) (args : List Text) (i : Invocation) (job : Job),
      Invocation.read args = .ok i → i.action = .convert → i.format = .json ∨ i.format = .pretty →
      loadJob s i = .ok job → job.missed? = none →
      ∃ records, job.records = .ok records ∧ Wire.read (run s args).stdout = some records ∧
        ((run s args).exit = 0 ↔ ∀ r ∈ records, r.isError = false) := by
  constructor
  · intro records
    have hcompact := Wire.read_compact records (fun c hc => absurd hc List.not_mem_nil)
    have hindented := Wire.read_indented records (fun c hc => absurd hc List.not_mem_nil)
    rw [List.append_nil] at hcompact hindented
    exact ⟨hcompact, hindented⟩
  · intro s args i job hargs haction hformat hjob hmissed
    have hrecords : job.records = .ok (job.statements.map job.record) := by
      rw [Job.records, hmissed]
    have hprinted : i.format ≠ .table := by rcases hformat with h | h <;> simp [h]
    have hrun := run_of_records hargs haction hjob hrecords
    refine ⟨_, hrecords, ?_, ?_⟩
    · rw [hrun]
      exact read_render hprinted _
    · rw [hrun]
      simp

/-- A batch with one statement that is converted and one that is not, printed in the indented form
with the default configuration. -/
theorem read_printed_indented :
    let s : Surroundings := ⟨readAmong [], [], none, none⟩
    let sql := "delete from s.t where a = '\"\\\t';delete t;".toList
    let args := ["-f".toList, "pretty".toList, "--id=abc".toList, sql]
    (Job.standard sql "abc".toList).missed? = none ∧
      Wire.read (run s args).stdout = some [
        ⟨"select *\nfrom s.t\nwhere a = '\"\\\t';".toList, false,
          "Delete statement converted successfully.".toList⟩,
        ⟨"delete t;".toList, true, MessageKey.deleteInvalid.template⟩] ∧
      (run s args).exit ≠ 0 := by
  intro s sql args
  let job := Job.standard sql "abc".toList
  let i : Invocation := ⟨.convert, some sql, none, some "abc".toList, none, .pretty⟩
  have hmissed : job.missed? = none := by decide
  have hrecords : job.records = .ok [
      ⟨"select *\nfrom s.t\nwhere a = '\"\\\t';".toList, false,
        "Delete statement converted successfully.".toList⟩,
      ⟨"delete t;".toList, true, MessageKey.deleteInvalid.template⟩] := by
    decide +kernel
  obtain ⟨records, hok, hread, hexit⟩ :=
    read_printed.2 s args i job (by decide +kernel) rfl (Or.inr rfl) rfl hmissed
  obtain rfl := Except.ok.inj (hrecords.symm.trans hok)
  refine ⟨hmissed, hread, fun hzero => ?_⟩
  have hfine := hexit.mp hzero _ (List.mem_cons_of_mem _ List.mem_cons_self)
  exact absurd hfine (by decide)

end Command

end MutationPreview
