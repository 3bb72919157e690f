import MutationPreview.Proofs.Mutation.Tidied

/-!
# What is selected is what was checked

A delete and an update are turned into a query by replacing one stretch of their held text, from
the word of the mutation up to its `where`, by the head of a select. The check of the parameters
looks at the text from the same `where` on.

Main statement: the text of a converted query is the head of a select and then the very parameters
that were checked, behind the blanks that the statement starts with (`Job.selected_eq`). Those are
there exactly when the statement starts with a blank that is no noise.
-/

namespace MutationPreview

open Pattern

namespace Mutation

/-- The stretch of the text that the head of a query is put in place of, or found in. -/
def stretch : Mutation → Pattern
  | delete => Grammar.deleteHeader
  | update => Grammar.updateSpan
  | merge => Grammar.mergeHeader

/-- What the query of a delete or an update starts with: what is selected, and from where. -/
def heading? (profile : Profile) (t : Text) : Mutation → Option Text
  | delete => do
    let m ← Grammar.deleteHeader.find? t
    let table ← m.part? .table
    return "select *\nfrom ".toList ++ table.text ++ "\n".toList
  | update => do
    let m ← Grammar.updateSpan.find? t
    let target ← m.part? .target
    return "select ".toList ++ List.intercalate ", ".toList (assignedFields t) ++
      "\nfrom ".toList ++ Text.trimBlank (profile.stagingMark.replaceAll (fun _ => []) target.text) ++
      "\n".toList
  | merge => none

theorem startsWord_stretch (mutation : Mutation) : mutation.stretch.StartsWord := by
  cases mutation
  all_goals exact startsWord_of_edge_word (by decide)

/-- The query of a delete or an update: the text before the stretch that is replaced, the head, and
the parameters that the check of the head reports. -/
theorem exists_of_select {profile : Profile} {budget : Budget} {held : Held} {mutation : Mutation}
    {report : HeadReport} {text : Text} (hmutation : mutation ≠ .merge)
    (hhead : mutation.head budget held = .ok report)
    (hselect : mutation.select profile held = .ok text) :
    ∃ m whereWord heading, mutation.stretch.find? held.text = some m ∧
      m.part? .whereWord = some whereWord ∧ report.parameters = whereWord.start.after ∧
      mutation.heading? profile held.text = some heading ∧
      text = m.start.passed ++ heading ++ report.parameters := by
  cases mutation with
  | merge => exact absurd rfl hmutation
  | delete =>
    obtain rfl : deleteHead held = report := Except.ok.inj hhead
    simp only [select] at hselect
    split at hselect
    · rename_i t hsome
      obtain rfl := Except.ok.inj hselect
      obtain ⟨m, hm, hsome⟩ := Option.bind_eq_some_iff.mp hsome
      obtain ⟨table, htable, hsome⟩ := Option.bind_eq_some_iff.mp hsome
      obtain ⟨whereWord, hwhere, hsome⟩ := Option.bind_eq_some_iff.mp hsome
      have hparameters : (deleteHead held).parameters = whereWord.start.after := by
        simp [deleteHead, fromPart, hm, hwhere]
      refine ⟨m, whereWord, "select *\nfrom ".toList ++ table.text ++ "\n".toList, hm, hwhere,
        hparameters, ?_, ?_⟩
      · simp [heading?, hm, htable]
      · rw [← Option.some.inj hsome, spliceSelect, hparameters]
    · cases hselect
  | update =>
    obtain rfl : updateHead held = report := Except.ok.inj hhead
    simp only [select] at hselect
    split at hselect
    · cases hselect
    · split at hselect
      · rename_i t hsome
        obtain rfl := Except.ok.inj hselect
        obtain ⟨m, hm, hsome⟩ := Option.bind_eq_some_iff.mp hsome
        obtain ⟨target, htarget, hsome⟩ := Option.bind_eq_some_iff.mp hsome
        obtain ⟨whereWord, hwhere, hsome⟩ := Option.bind_eq_some_iff.mp hsome
        have hparameters : (updateHead held).parameters = whereWord.start.after := by
          simp [updateHead, fromPart, hm, hwhere]
        refine ⟨m, whereWord,
          "select ".toList ++ List.intercalate ", ".toList (assignedFields held.text) ++
          "\nfrom ".toList ++
          Text.trimBlank (profile.stagingMark.replaceAll (fun _ => []) target.text) ++
          "\n".toList, hm, hwhere, hparameters, ?_, ?_⟩
        · simp [heading?, hm, htarget]
        · rw [← Option.some.inj hsome, spliceSelect, hparameters]
      · cases hselect

end Mutation

/-! ## Converted statements -/

namespace Job

variable {batch identifier : Text} {s : Statement} {mutation : Mutation} {report : HeadReport}
  {query : Held}

/-- A statement whose conversion succeeds is of the kind of its mutation. -/
theorem Converts.kind_eq {job : Job} {held : Held}
    (h : job.Converts s held mutation report query) : s.kind = mutation.kind := by
  have hmutation := h.mutation
  rw [Statement.mutation] at hmutation
  split at hmutation
  all_goals cases hmutation
  all_goals assumption

/-- The kind of a statement tells its mutation. -/
theorem Converts.mutation_eq {job : Job} {held : Held} {other : Mutation}
    (h : job.Converts s held mutation report query) (hkind : s.kind = other.kind) :
    mutation = other := by
  have hsame := h.kind_eq.symm.trans hkind
  cases mutation <;> cases other <;> first | rfl | cases hsame

theorem Converts.select_eq {job : Job} {held : Held}
    (h : job.Converts s held mutation report query) :
    mutation.select job.profile held = .ok query.text ∧
      query = { held with text := query.text } := by
  have hquery := h.query
  rw [Mutation.toQuery] at hquery
  split at hquery
  · rename_i text hselect
    obtain rfl := Except.ok.inj hquery
    exact ⟨hselect, rfl⟩
  · cases hquery

/-- A query holds the literals of its statement. -/
theorem Converts.literals_eq {job : Job} {held : Held}
    (h : job.Converts s held mutation report query) : query.literals = held.literals := by
  rw [h.select_eq.2]

/-- A query holds the subqueries of its statement. -/
theorem Converts.subqueries_eq {job : Job} {held : Held}
    (h : job.Converts s held mutation report query) : query.subqueries = held.subqueries := by
  rw [h.select_eq.2]

/-- The query of a merge is the one that its header names. -/
theorem mergeSource_of_select {profile : Profile} {held : Held} {text : Text}
    (h : Mutation.merge.select profile held = .ok text) : mergeSource? held = some text := by
  simp only [Mutation.select, Budget.bounded] at h
  split at h
  · cases h
  · cases h
  · rename_i t hbounded
    split at hbounded
    · cases hbounded
    · rw [Except.ok.inj hbounded, Except.ok.inj h]

/-- The query of a converted statement is held under the tokens of the default configuration. -/
theorem Converts.isStandard
    (h : (Job.standard batch identifier).Converts s (Held.standard s.sql) mutation report query) :
    query.IsStandard := by
  have hs := Held.isStandard_standard s.sql
  refine ⟨?_, ?_⟩
  · rw [h.literals_eq]
    exact hs.literals
  · rw [h.subqueries_eq]
    exact hs.subqueries

/-- The query of a converted statement does not start with the word of a mutation: tidying would
keep the word, and the last check would reject it. -/
theorem exists_converts_standard {sql : Text}
    (h : (Job.standard batch identifier).preview s = .ok sql) :
    ∃ mutation report query,
      (Job.standard batch identifier).Converts s (Held.standard s.sql) mutation report query ∧
      ∀ kind, ¬ Leads kind query.text := by
  obtain ⟨mutation, report, query, hconverts, rfl, hshape⟩ := exists_converts h
  refine ⟨mutation, report, query, hconverts, fun kind hleads => ?_⟩
  have hfails := (hleads.revert_tidy hconverts.isStandard
    (Job.standard batch identifier).identifier).queryHead_eq_false
  have hshape : Grammar.queryHead.hasMatch ((tidy Profile.standard
      (Job.standard batch identifier).identifier query).revert.dropWhile isBlank) = true := hshape
  rw [hfails] at hshape
  cases hshape

/-- The held text of a statement of a known kind: the blanks that it starts with, the word of the
mutation and the rest. -/
theorem exists_leading (hs : s ∈ (Job.standard batch identifier).statements)
    (hknown : s.kind ≠ .unknown) :
    ∃ w rest, s.kind.Writes w ∧ LeadsWith w (Held.standard s.sql).text
        ((Held.standard s.sql).text.takeWhile isBlank) rest ∧
      ((Held.standard s.sql).text.takeWhile isBlank = [] ↔ s.sql.head?.any isBlank = false) := by
  obtain ⟨w, blanks, rest, hwrites, hfront, hblanks⟩ := Statement.exists_front hs hknown
  have htake : (Held.standard s.sql).text.takeWhile isBlank = blanks := by
    obtain ⟨c, w, rfl⟩ := List.exists_cons_of_ne_nil hwrites.ne_nil
    have hc := (isKeywordChar_iff.mp (hwrites.isKeywordChar_of_mem List.mem_cons_self)).2.1
    rw [hfront.eq, List.takeWhile_append_of_pos hfront.blank]
    simp [hc]
  exact ⟨w, rest, hwrites, htake.symm ▸ hfront, htake.symm ▸ hblanks⟩

/-- The stretch of a converted delete or update that is replaced starts right behind the blanks that
the held text starts with. -/
theorem exists_replaced (hs : s ∈ (Job.standard batch identifier).statements)
    (hkind : s.kind = .delete ∨ s.kind = .update)
    (hrecord : ((Job.standard batch identifier).record s).isError = false) :
    ∃ mutation report query m heading,
      (Job.standard batch identifier).Converts s (Held.standard s.sql) mutation report query ∧
      mutation.stretch.find? (Held.standard s.sql).text = some m ∧
      m.start.passed = (Held.standard s.sql).text.takeWhile isBlank ∧
      mutation.heading? Profile.standard (Held.standard s.sql).text = some heading ∧
      query.text = m.start.passed ++ heading ++ report.parameters := by
  obtain ⟨mutation, report, query, hconverts, hleads⟩ :=
    exists_converts_standard (preview_of_record hrecord)
  have hmerge : mutation ≠ .merge := by
    rintro rfl
    rw [hconverts.kind_eq] at hkind
    rcases hkind with hkind | hkind <;> cases hkind
  have hknown : s.kind ≠ .unknown := by
    rw [hconverts.kind_eq]
    cases mutation <;> simp [Mutation.kind]
  obtain ⟨m, -, heading, hm, -, -, hheading, htext⟩ :=
    Mutation.exists_of_select hmerge hconverts.head hconverts.select_eq.1
  refine ⟨mutation, report, query, m, heading, hconverts, hm, ?_, hheading, htext⟩
  obtain ⟨w, rest, hwrites, hfront, -⟩ := exists_leading hs hknown
  rcases find?_front mutation.startsWord_stretch hfront
    (fun c hc => (isKeywordChar_iff.mp (hwrites.isKeywordChar_of_mem hc)).1) hm with
    hpassed | ⟨z, hpassed⟩
  · exact hpassed
  · -- a stretch that starts later would leave the word of the mutation in front of the select
    refine absurd ⟨w, _, z ++ heading ++ report.parameters, hwrites, ?_, hfront.blank⟩
      (hleads s.kind)
    rw [htext, hpassed]
    simp

/-- The text of a converted delete or update, right before tidying, is the head of a select and the
parameters that were checked, behind the blanks that the held text starts with. There are none of
these exactly when the statement does not start with a blank. -/
theorem selected_eq (hs : s ∈ (Job.standard batch identifier).statements)
    (hkind : s.kind = .delete ∨ s.kind = .update)
    (hrecord : ((Job.standard batch identifier).record s).isError = false) :
    ∃ mutation report query heading,
      (Job.standard batch identifier).Converts s (Held.standard s.sql) mutation report query ∧
      mutation.heading? Profile.standard (Held.standard s.sql).text = some heading ∧
      query.text =
        (Held.standard s.sql).text.takeWhile isBlank ++ heading ++ report.parameters ∧
      (query.text = heading ++ report.parameters ↔ s.sql.head?.any isBlank = false) := by
  obtain ⟨mutation, report, query, m, heading, hconverts, -, hpassed, hheading, htext⟩ :=
    exists_replaced hs hkind hrecord
  have hknown : s.kind ≠ .unknown := by
    rcases hkind with hkind | hkind <;> simp [hkind]
  obtain ⟨w, rest, -, -, hblanks⟩ := exists_leading hs hknown
  rw [hpassed] at htext
  refine ⟨mutation, report, query, heading, hconverts, hheading, htext, ?_⟩
  rw [← hblanks, htext, List.append_assoc]
  exact List.append_left_eq_self

/-- An update with an alias and two fields. -/
theorem selected_eq_two_fields :
    let s := Statement.ofText "update s.t x set x.a = 1, b = 'y' where c = 2;".toList
    (Job.standard s.sql "abc".toList).statements = [s] ∧
      ((Job.standard s.sql "abc".toList).record s).isError = false ∧
      ∃ mutation report query heading,
        (Job.standard s.sql "abc".toList).Converts s (Held.standard s.sql) mutation report query ∧
        mutation.heading? Profile.standard (Held.standard s.sql).text = some heading ∧
        query.text = heading ++ report.parameters := by
  have hrecord : ((Job.standard "update s.t x set x.a = 1, b = 'y' where c = 2;".toList
      "abc".toList).record
        (Statement.ofText "update s.t x set x.a = 1, b = 'y' where c = 2;".toList)).isError =
      false := by
    rw [String.toList_ofList]
    decide +kernel
  refine ⟨by decide, hrecord, ?_⟩
  obtain ⟨mutation, report, query, heading, hconverts, hheading, -, hiff⟩ :=
    selected_eq (by decide) (Or.inr (by decide)) hrecord
  exact ⟨mutation, report, query, heading, hconverts, hheading, hiff.mpr (by decide)⟩

/-- A no-break space in front of a delete is neither noise nor part of the head that is replaced. -/
theorem selected_behind_blank :
    let s := Statement.ofText "\u00a0delete from s.t where a = 1;".toList
    (Job.standard s.sql "abc".toList).statements = [s] ∧ s.kind = .delete ∧
      ((Job.standard s.sql "abc".toList).record s).isError = false ∧
      Mutation.delete.heading? Profile.standard (Held.standard s.sql).text =
        some "select *\nfrom s.t\n".toList ∧
      (Mutation.deleteHead (Held.standard s.sql)).parameters = "where a = 1;".toList ∧
      Mutation.deleteSelect? (Held.standard s.sql).text =
        some "\u00a0select *\nfrom s.t\nwhere a = 1;".toList := by
  repeat rw [String.toList_ofList]
  decide +kernel

end Job

end MutationPreview
