import MutationPreview.Proofs.Batch.Single
import MutationPreview.Proofs.Mutation.Header

/-!
# Previews are single statements

On the way from a held statement to its preview, terminators and quotes are not moved, and none are
brought in but those of the identifier, which is written as a quoted literal. So the preview of a
statement with one terminator has one terminator outside quotes at most, at its end
(`Job.record_single`), provided that its quotes are all closed, or that neither its literals nor the
identifier has a terminator: behind a quote that nothing closes, the quotes of a literal that is
written there pair otherwise (`Job.record_not_single`).
-/

namespace MutationPreview

open Pattern

namespace Pattern

variable {p : Pattern} {x : Char}

/-- Replacing keeps a character where no replacement brings it in. -/
theorem keeps_replaceAll (hp : p.consumes = true) {t : Text} {f : Match → Text}
    (hf : ∀ m ∈ Segment.spans (p.segments t), f m = m.text ∨ x ∉ f m) :
    Text.Keeps x t (p.replaceAll f t) := by
  have hne : ∀ m ∈ Segment.spans (p.segments t), m.text ≠ [] := by
    intro m hm
    obtain ⟨before, rest, -, -, hne⟩ := reads_of_mem_spans hp hm
    exact hne
  have hkeeps := Segment.keeps_join hne hf
  rwa [join_segments hp] at hkeeps

/-- A part has no character that its pattern avoids. -/
theorem notMem_part (hp : ∀ part ∈ p.partsIn, part.2.avoids x = true) {here : Cursor} {m : Match}
    (h : p.matchAt? here = some m) {name : Part} {c : Capture} (hc : m.part? name = some c) :
    x ∉ c.text := by
  obtain ⟨r, hr, rfl⟩ := matchAt?_reading h
  rcases isPart_of_mem hr (List.mem_of_find?_eq_some hc) with hmem | hpart
  · simp at hmem
  · obtain ⟨q, y, u, z, hq, -, -, htext, hreads⟩ := hpart
    rw [htext]
    exact hreads.notMem (hp _ hq)

end Pattern

/-! ## Tidying -/

section Tidy

variable {x : Char}

/-- A call of the entity function with a held argument has no mark. -/
theorem mark_notMem_call (hx : x ∈ Held.marks) {held : Held} (hs : held.IsStandard)
    (literal : Text) : x ∉ entityCallText Profile.standard (held.holdLiteral literal).2 := by
  have hcall : ∀ x ∈ Held.marks,
      x ∉ Profile.standard.entityFunction ∧ x ≠ '(' ∧ x ≠ ')' := by decide
  obtain ⟨hfunction, hopen, hclose⟩ := hcall x hx
  obtain ⟨hlit, -, hdigit, -⟩ := Held.mark_notMem_token hx
  have htoken : x ∉ (held.literals.hold literal).2 := by
    obtain ⟨t, ht⟩ := hs.literals
    have hspec := Ledger.hold_spec held.literals literal
    rw [hspec.token_eq, Ledger.tokenOf, hspec.continues.format, ht]
    exact TokenFormat.notMem_avoiding_token hlit hdigit _ _
  simp only [entityCallText, List.mem_append, List.mem_cons, List.not_mem_nil, or_false, not_or]
  exact ⟨⟨hfunction, hopen, htoken⟩, hclose⟩

theorem keeps_injectIdentifier {token : Text} (hcall : x ∉ entityCallText Profile.standard token)
    (literals : Ledger) (t : Text) :
    Text.Keeps x t (injectIdentifier Profile.standard literals token t) := by
  refine (keeps_replaceAll (p := Profile.standard.entityCall) (by decide) fun m _ => ?_).trans
    (keeps_replaceAll (by decide) fun _ _ => Or.inr hcall)
  split
  · split
    · exact Or.inr hcall
    · exact Or.inl rfl
  · exact Or.inl rfl

theorem keeps_breakLines (hx : x ∈ Held.marks) (t : Text) : Text.Keeps x t (breakLines t) := by
  have hall : ∀ x ∈ Held.marks, x ≠ '\n' ∧ x ≠ ' ' ∧
      ∀ part ∈ Grammar.lineStart.partsIn, part.2.avoids x = true := by decide
  obtain ⟨hline, hspace, hparts⟩ := hall x hx
  refine keeps_replaceAll (by decide) fun m hm => ?_
  split
  · rename_i connective hconnective
    obtain ⟨before, rest, hmatch, -⟩ := reads_of_mem_spans (by decide) hm
    have htext := notMem_part hparts hmatch hconnective
    exact Or.inr (by simp [hline, hspace, htext])
  · exact Or.inl rfl

/-- Tidying keeps terminators and quotes. -/
theorem keeps_tidy (hx : x ∈ Held.marks) {held : Held} (hs : held.IsStandard) (identifier : Text) :
    Text.Keeps x held.text (tidy Profile.standard identifier held).text := by
  have hspace : ∀ x ∈ Held.marks, x ∉ [' '] := by decide
  have husing := keeps_replaceAll (p := Grammar.usingKeyword) (x := x) (t := held.text) (by decide)
    fun _ _ => Or.inr List.not_mem_nil
  have hstaging := husing.trans (keeps_replaceAll (p := Profile.standard.stagingMark) (by decide)
    fun _ _ => Or.inr List.not_mem_nil)
  have hinject := hstaging.trans (keeps_injectIdentifier
    (mark_notMem_call hx hs (quoteLiteral identifier))
    (held.holdLiteral (quoteLiteral identifier)).1.literals _)
  exact (hinject.trans (keeps_breakLines hx _)).trans
    (keeps_replaceAll (by decide) fun _ _ => Or.inr (hspace x hx))

end Tidy

/-! ## The query -/

section Query

variable {x : Char} {held : Held}

theorem Text.mem_of_mem_trim {p : Char → Bool} {t : Text} (h : x ∈ Text.trim p t) : x ∈ t := by
  obtain ⟨front, back, hsplit, -⟩ := Text.exists_eq_trim p t
  rw [hsplit]
  simp [h]

theorem mem_of_mem_stripBrackets {t : Text} (h : x ∈ stripBrackets t) : x ∈ t := by
  rw [stripBrackets] at h
  split at h
  · rename_i rest hcore
    split at h
    · refine Text.mem_of_mem_trim (p := isBlank) ?_
      rw [← Text.trimBlank, hcore]
      exact List.mem_cons_of_mem _ (List.dropLast_subset _ h)
    · exact Text.mem_of_mem_trim h
  · exact Text.mem_of_mem_trim h

/-- The fields that an update assigns are words. -/
theorem mark_notMem_assignedFields (hx : x ∈ Held.marks) {t field : Text}
    (h : field ∈ assignedFields t) : x ∉ field := by
  have hall : ∀ x ∈ Held.marks,
      ∀ part ∈ Grammar.assignmentTarget.partsIn, part.2.avoids x = true := by decide
  rw [assignedFields] at h
  split at h
  · simp at h
  · obtain ⟨side, -, hfield⟩ := List.mem_flatMap.mp h
    obtain ⟨target, -, hfield⟩ := List.mem_filterMap.mp hfield
    obtain ⟨c, hc, rfl⟩ := Option.map_eq_some_iff.mp hfield
    obtain ⟨m, hm, hc⟩ := Option.bind_eq_some_iff.mp hc
    obtain ⟨y, z, -, hmatch, -⟩ := findFrom?_some hm
    exact notMem_part (hall x hx) hmatch hc

/-- The target of an update has no mark that comes at the end of the text only. -/
theorem mark_notMem_target {t : Text} {m : Match} {c : Capture}
    (hm : Grammar.updateSpan.find? t = some m) (hc : m.part? .target = some c)
    (hend : Text.AtEnd x t) : x ∉ c.text := by
  obtain ⟨y, z, rfl, hmatch, -⟩ := findFrom?_some hm
  obtain ⟨w, gap, u, v, rest, c', rfl, -, -, -, hreads, hc', rfl⟩ :=
    exists_of_matchAt?_shortest target_notMem_set_where hmatch
  obtain rfl : c = c' := Option.some.inj (hc.symm.trans hc')
  have hne : v ++ rest ≠ [] := by simp [hreads.ne_nil (by decide)]
  have hfront : x ∉ y ++ w ++ gap ++ c.text :=
    Text.AtEnd.notMem_of_append (v := v ++ rest) (by simpa using hend) hne
  simp only [List.mem_append, not_or] at hfront
  exact hfront.2

/-- What a query starts with has no mark that comes at the end of the text only. -/
theorem mark_notMem_heading (hx : x ∈ Held.marks) {mutation : Mutation} {t heading : Text}
    (h : mutation.heading? Profile.standard t = some heading) (hend : Text.AtEnd x t) :
    x ∉ heading := by
  cases mutation with
  | merge => cases h
  | delete =>
    have hall : ∀ x ∈ Held.marks, x ∉ "select *\nfrom ".toList ∧ x ∉ "\n".toList ∧
        ∀ part ∈ Grammar.deleteHeader.partsIn, part.2.avoids x = true := by decide
    obtain ⟨hselect, hline, hparts⟩ := hall x hx
    obtain ⟨m, hm, h⟩ := Option.bind_eq_some_iff.mp h
    obtain ⟨table, htable, h⟩ := Option.bind_eq_some_iff.mp h
    obtain ⟨y, z, -, hmatch, -⟩ := findFrom?_some hm
    rw [← Option.some.inj h]
    simp only [List.mem_append, not_or]
    exact ⟨⟨hselect, notMem_part hparts hmatch htable⟩, hline⟩
  | update =>
    have hall : ∀ x ∈ Held.marks, x ∉ "select ".toList ∧ x ∉ ", ".toList ∧
        x ∉ "\nfrom ".toList ∧ x ∉ "\n".toList := by decide
    obtain ⟨hselect, hcomma, hfrom, hline⟩ := hall x hx
    obtain ⟨m, hm, h⟩ := Option.bind_eq_some_iff.mp h
    obtain ⟨target, htarget, h⟩ := Option.bind_eq_some_iff.mp h
    rw [← Option.some.inj h]
    simp only [List.mem_append, not_or]
    refine ⟨⟨⟨⟨hselect, ?_⟩, hfrom⟩, fun hmem => ?_⟩, hline⟩
    · exact Text.notMem_intercalate hcomma fun field hfield => mark_notMem_assignedFields hx hfield
    · have hstaging := keeps_replaceAll (p := Profile.standard.stagingMark) (x := x)
        (t := target.text) (by decide) fun _ _ => Or.inr List.not_mem_nil
      exact hstaging.notMem (mark_notMem_target hm htarget hend) (Text.mem_of_mem_trim hmem)

/-- Turning a mutation into a query keeps terminators and quotes, if the subqueries have none. -/
theorem Mutation.keeps_select (hx : x ∈ Held.marks) {budget : Budget} {mutation : Mutation}
    {report : HeadReport} {text : Text} (hsub : ∀ v ∈ held.subqueries.values, x ∉ v)
    (hhead : mutation.head budget held = .ok report)
    (hselect : mutation.select Profile.standard held = .ok text) :
    Text.Keeps x held.text text := by
  by_cases hmerge : mutation = .merge
  · subst hmerge
    obtain ⟨m, -, hsource⟩ := Option.bind_eq_some_iff.mp (Job.mergeSource_of_select hselect)
    obtain ⟨source, -, hsource⟩ := Option.bind_eq_some_iff.mp hsource
    obtain ⟨subquery, hsubquery, htext⟩ := Option.bind_eq_some_iff.mp hsource
    obtain ⟨i, hi, -⟩ := Ledger.get?_eq_some_iff.mp hsubquery
    -- the query is the text of a held subquery
    have hnone : x ∉ text := by
      rw [← Option.some.inj htext]
      intro hmem
      exact hsub subquery (List.mem_of_getElem? hi)
        (mem_of_mem_stripBrackets (Text.mem_of_mem_trim hmem))
    exact ⟨fun _ => Text.atEnd_of_notMem hnone, fun _ => hnone⟩
  · obtain ⟨m, whereWord, heading, hm, hwhere, hparameters, hheading, rfl⟩ :=
      Mutation.exists_of_select hmerge hhead hselect
    obtain ⟨q, y, u, z, hq, ht, hstart, -, hreads⟩ := exists_part_of_find? hm hwhere
    have hne : report.parameters ≠ [] := by
      have hconsumes : ∀ part ∈ mutation.stretch.partsIn, part.1 = .whereWord →
          part.2.consumes = true := by cases mutation <;> decide
      rw [hparameters, hstart]
      simp [hreads.ne_nil (hconsumes _ hq rfl)]
    have ht : held.text = (m.start.passed ++ y) ++ report.parameters := by
      rw [hparameters, hstart, ht]
      simp
    -- the parameters stay at the end, and nothing before them has the mark
    constructor
    · intro hend
      have hheading := mark_notMem_heading hx hheading hend
      rw [ht] at hend
      have hfront := hend.notMem_of_append hne
      refine (hend.stretch (List.suffix_append _ _).isInfix).append ?_
      simp only [List.mem_append, not_or] at hfront ⊢
      exact ⟨hfront.1, hheading⟩
    · intro hnone
      have hheading := mark_notMem_heading hx hheading (Text.atEnd_of_notMem hnone)
      rw [ht] at hnone
      simp only [List.mem_append, not_or] at hnone ⊢
      exact ⟨⟨hnone.1.1, hheading⟩, hnone.2⟩

/-- Reverting keeps a character that no held value has. -/
theorem Ledger.keeps_revert {l : Ledger} (hlead : l.format.lead ≠ [])
    (hvalues : ∀ v ∈ l.values, x ∉ v) (t : Text) : Text.Keeps x t (l.revert t) := by
  obtain ⟨segs, hspans, htext, hrevert⟩ := Ledger.exists_places hlead l.values.length t
  have hkeeps : Text.Keeps x (Segment.join (fun i => l.format.token (i + 1)) segs)
      (Segment.join l.valueAt segs) :=
    Segment.keeps_join (fun i _ => TokenFormat.token_ne_nil _ _) fun i hi =>
      Or.inr (hvalues _ (Ledger.valueAt_mem (hspans i hi)))
  rwa [htext, ← hrevert l ⟨rfl, rfl⟩] at hkeeps

end Query

/-! ## Quoted values -/

/-- What is cut out as a whole where it stands outside quotes. -/
def IsQuoted (v : Text) : Prop := ∀ rest, outsideQuotes (v ++ rest) = outsideQuotes rest

theorem isQuoted_inQuotes {content : Text} (h : '\'' ∉ content) : IsQuoted (inQuotes content) :=
  fun rest => outsideQuotes_inQuotes_append h rest

theorem replace_quote_cons (c : Char) (t : Text) :
    Text.replace "'".toList "''".toList (c :: t) =
      (if c = '\'' then "''".toList else [c]) ++ Text.replace "'".toList "''".toList t := by
  split
  · rename_i hc
    exact Text.substitute_of_some (u := []) (by simp [hc])
  · rename_i hc
    exact Text.substitute_of_none (by simp [Ne.symm hc])

/-- Doubled quotes close and open quotes. -/
theorem outsideFrom_true_replace (value rest : Text) :
    outsideFrom true (Text.replace "'".toList "''".toList value ++ '\'' :: rest) =
      outsideQuotes rest := by
  induction value with
  | nil => rfl
  | cons c value ih =>
    rw [replace_quote_cons]
    split
    · simpa [outsideFrom] using ih
    · rename_i hc
      have hstay : (c != '\'') = true := by simpa using hc
      rw [List.append_assoc, List.singleton_append, outsideFrom, hstay]
      exact ih

theorem isQuoted_quoteLiteral (value : Text) : IsQuoted (quoteLiteral value) := by
  intro rest
  have hspan := outsideFrom_true_replace value rest
  simpa [quoteLiteral, outsideQuotes, outsideFrom] using hspan

/-- With its quoted values put back, a text without quotes is the same outside quotes. -/
theorem outsideQuotes_join {α : Type} {f : α → Text} {segs : List (Segment α)}
    (hplain : .plain '\'' ∉ segs) (hf : ∀ a ∈ Segment.spans segs, IsQuoted (f a)) :
    outsideQuotes (Segment.join f segs) = Segment.join (fun _ => []) segs := by
  induction segs with
  | nil => rfl
  | cons s segs ih =>
    have hrest := ih (fun hmem => hplain (List.mem_cons_of_mem _ hmem))
      fun a ha => hf a (by cases s <;> simp [ha])
    cases s with
    | plain c =>
      have hc : c ≠ '\'' := by
        rintro rfl
        exact hplain List.mem_cons_self
      rw [Segment.join_plain, outsideQuotes_cons hc, hrest, Segment.join_plain]
    | span a => rw [Segment.join_span, hf a (by simp), hrest, Segment.join_span, List.nil_append]

/-- Reverting to quoted values keeps what comes at the end of a text without quotes. -/
theorem Ledger.atEnd_outsideQuotes_revert {l : Ledger} (hlead : l.format.lead ≠ [])
    (hvalues : ∀ v ∈ l.values, IsQuoted v) {t : Text} (hquote : '\'' ∉ t) {x : Char}
    (hend : Text.AtEnd x t) : Text.AtEnd x (outsideQuotes (l.revert t)) := by
  obtain ⟨segs, hspans, htext, hrevert⟩ := Ledger.exists_places hlead l.values.length t
  have hplain : .plain '\'' ∉ segs := by
    rw [← htext, Segment.mem_join, not_or] at hquote
    exact hquote.1
  rw [hrevert l ⟨rfl, rfl⟩, outsideQuotes_join hplain fun i hi =>
    hvalues _ (Ledger.valueAt_mem (hspans i hi))]
  rw [← htext] at hend
  exact Segment.atEnd_join (fun i _ => TokenFormat.token_ne_nil _ _)
    (fun i _ => Or.inr List.not_mem_nil) hend

/-- A quoted literal has the characters of its value and quotes. -/
theorem notMem_quoteLiteral {x : Char} (hx : x ≠ '\'') {value : Text} (h : x ∉ value) :
    x ∉ quoteLiteral value := by
  have hreplace : x ∉ Text.replace "'".toList "''".toList value := by
    induction value with
    | nil => exact List.not_mem_nil
    | cons c value ih =>
      rw [List.mem_cons, not_or] at h
      rw [replace_quote_cons, List.mem_append, not_or]
      refine ⟨?_, ih h.2⟩
      split
      · simpa using hx
      · simpa using h.1
  simp only [quoteLiteral, List.cons_append, List.mem_cons, List.mem_append, List.not_mem_nil,
    or_false, not_or]
  exact ⟨hx, hreplace, hx⟩

/-! ## Previews -/

namespace Job

variable {batch identifier piece : Text} {s : Statement} {mutation : Mutation}
  {report : HeadReport} {query : Held}

/-- Up to the literals, a preview keeps the terminators and the quotes of the held statement. -/
theorem Converts.keeps_tidied
    (h : (Job.standard batch identifier).Converts s (Held.standard s.sql) mutation report query)
    {x : Char} (hx : x ∈ Held.marks)
    (hsub : ∀ v ∈ (Held.standard s.sql).subqueries.values, x ∉ v) (identifier : Text) :
    Text.Keeps x (Held.standard s.sql).text
      (query.subqueries.revert (tidy Profile.standard identifier query).text) := by
  obtain ⟨t, ht⟩ := h.isStandard.subqueries
  have hlead : query.subqueries.format.lead ≠ [] := by
    rw [ht]
    exact TokenFormat.avoiding_ne_nil _ _
  have hselect := Mutation.keeps_select hx hsub h.head h.select_eq.1
  rw [← h.subqueries_eq] at hsub
  exact (hselect.trans (keeps_tidy hx h.isStandard identifier)).trans
    (Ledger.keeps_revert hlead hsub _)

/-- A preview puts back the literals of the statement and the identifier. -/
theorem Converts.mem_literals
    (h : (Job.standard batch identifier).Converts s (Held.standard s.sql) mutation report query)
    {identifier v : Text} (hv : v ∈ (tidy Profile.standard identifier query).literals.values) :
    v ∈ (Held.standard s.sql).literals.values ∨ v = quoteLiteral identifier := by
  rw [← h.literals_eq]
  exact (Ledger.hold_spec query.literals (quoteLiteral identifier)).only v hv

/-- A converted statement is previewed as a single statement: its terminator comes outside quotes
at the end only. The quotes in the noise before the statement are even in number, or else the
statement by itself has one terminator; and the quotes of the statement are even in number, or else
neither its literals nor the identifier has a terminator. -/
theorem record_single (hpiece : piece ∈ (cutBatch ';' batch).pieces)
    (hs : Statement.ofPiece? ';' piece = some s)
    (hrecord : ((Job.standard batch identifier).record s).isError = false)
    (hnoise : (piece.takeWhile isNoise).count '\'' % 2 = 0 ∨ Text.AtEnd ';' (outsideQuotes s.sql))
    (hclosed : s.sql.count '\'' % 2 = 0 ∨
      ';' ∉ (Job.standard batch identifier).identifier ∧
        ∀ v ∈ (Held.standard s.sql).literals.values, ';' ∉ v) :
    Text.AtEnd ';' (outsideQuotes ((Job.standard batch identifier).record s).sql) := by
  -- from the piece to the statement, its joined lines and its held text
  obtain ⟨hends, hsingle⟩ := cutBatch_single (by decide) hpiece
  obtain ⟨hends, heven⟩ := Statement.single_of_piece hends hsingle hs
  obtain ⟨hends, hjoined, hcount⟩ := single_joinLines hends
  obtain ⟨htext, hsub⟩ := Held.single_standard hends (hjoined (hnoise.elim heven id))
  obtain ⟨mutation, report, query, hconverts, hsql, -⟩ :=
    exists_converts (preview_of_record hrecord)
  rw [hsql]
  let tidied := tidy Profile.standard (Job.standard batch identifier).identifier query
  have hlead : tidied.literals.format.lead ≠ [] := by
    obtain ⟨t, ht⟩ := (hconverts.isStandard.holdLiteral
      (quoteLiteral (Job.standard batch identifier).identifier)).literals
    exact ht ▸ TokenFormat.avoiding_ne_nil _ _
  have hend := (hconverts.keeps_tidied (by decide) hsub
    (Job.standard batch identifier).identifier).atEnd htext
  rcases hclosed with hclosed | ⟨hid, hvalues⟩
  · -- no quote is left outside the literals, so each literal is cut out as a whole
    rw [← hcount] at hclosed
    obtain ⟨hquote, hsub⟩ := Held.quote_notMem_standard hclosed
    have hnone := (hconverts.keeps_tidied (by decide) hsub
      (Job.standard batch identifier).identifier).notMem hquote
    refine Ledger.atEnd_outsideQuotes_revert hlead (fun v hv => ?_) hnone hend
    rcases hconverts.mem_literals hv with hv | rfl
    · obtain ⟨content, hcontent, rfl⟩ := Held.quoted_literals s.sql v hv
      exact isQuoted_inQuotes hcontent
    · exact isQuoted_quoteLiteral _
  · -- however the quotes pair, no literal brings in a terminator
    have hkeeps := Ledger.keeps_revert (x := ';') hlead (fun v hv => ?_)
      (query.subqueries.revert tidied.text)
    · exact (hkeeps.atEnd hend).sublist (outsideQuotes_sublist _)
    · rcases hconverts.mem_literals hv with hv | rfl
      · exact hvalues v hv
      · exact notMem_quoteLiteral (by decide) hid

/-- Noise with two quotes, and terminators in a literal and in the identifier. -/
theorem record_single_quoted_terminators :
    let batch := "'' delete from s.t where a = 'x;y' and b = :entityid;".toList
    let s := Statement.ofText "delete from s.t where a = 'x;y' and b = :entityid;".toList
    let record := (Job.standard batch "p;q".toList).record s
    record.isError = false ∧
      record.sql = "select *\nfrom s.t\nwhere a = 'x;y'\nand b = toentityid('P;Q');".toList ∧
      Text.AtEnd ';' (outsideQuotes record.sql) := by
  let batch := "'' delete from s.t where a = 'x;y' and b = :entityid;".toList
  have hpiece : batch ∈ (cutBatch ';' batch).pieces := by decide
  have hrecord : ((Job.standard batch "p;q".toList).record (Statement.ofText
      "delete from s.t where a = 'x;y' and b = :entityid;".toList)).isError = false := by
    decide +kernel
  exact ⟨hrecord, by decide +kernel,
    record_single hpiece (by decide) hrecord (Or.inl (by decide)) (Or.inl (by decide))⟩

/-- Three previews with a terminator outside quotes before their end. The noise before a statement
takes one quote of a pair away. Behind a quote that nothing closes, the quotes of the identifier pair
otherwise; and so do those of a literal of which a second copy comes there, since the token of its
subquery appears once the mark of a staging table is dropped. -/
theorem record_not_single :
    (let batch := "'delete from s.t where a = 1;' and b = 2;".toList
     let s := Statement.ofText "delete from s.t where a = 1;' and b = 2;".toList
     let record := (Job.standard batch "abc".toList).record s
     (Job.standard batch "abc".toList).statements = [s] ∧ record.isError = false ∧
       record.sql = "select *\nfrom s.t\nwhere a = 1;'\nand b = 2;".toList ∧
       ¬ Text.AtEnd ';' (outsideQuotes record.sql)) ∧
    (let batch := "delete from s.t where a = 1' and b = :entityid;".toList
     let record := (Job.standard batch "x;y".toList).record (Statement.ofText batch)
     (Job.standard batch "x;y".toList).statements = [Statement.ofText batch] ∧
       record.isError = false ∧
       record.sql = "select *\nfrom s.t\nwhere a = 1'\nand b = toentityid('X;Y');".toList ∧
       ¬ Text.AtEnd ';' (outsideQuotes record.sql)) ∧
    (let batch := ("delete from s.t where a = (select b from c where d = 'x;y') and e = 1' " ++
       "and f = (tmp_SUB_1);").toList
     let record := (Job.standard batch "abc".toList).record (Statement.ofText batch)
     (Job.standard batch "abc".toList).statements = [Statement.ofText batch] ∧
       record.isError = false ∧
       record.sql =
         ("select *\nfrom s.t\nwhere a = (select b from c where d = 'x;y')\nand e = 1'\n" ++
         "and f = (select b from c where d = 'x;y');").toList ∧
       ¬ Text.AtEnd ';' (outsideQuotes record.sql)) := by
  -- the kernel decodes a string slowly
  simp only [String.toList_append]
  repeat rw [String.toList_ofList]
  decide +kernel

end Job

end MutationPreview
