import MutationPreview.Proofs.Mutation.AssignmentList
import MutationPreview.Proofs.Mutation.Assignments

/-!
# The assignments that a preview shows

The query of an update selects the fields of its assignments. An assignment without an equals sign,
and a target that names no field, are passed over; only a list that gives no field at all is refused.

Main statement: what a converted update selects, assignment by assignment, and for which assignments
nothing is lost (`Job.assignments_selected`).
-/

namespace MutationPreview

open Pattern

namespace Assignment

/-- Whether the left side of an assignment is in brackets. -/
def InBrackets (p : Text) : Prop :=
  ∃ side body, leftSide? p = some side ∧ Text.trimBlank side = Subquery.cover body

/-- An assignment that is not lost: it gives a field and, if its left side is in brackets, one for each
target. -/
def Kept (p : Text) : Prop :=
  fields p ≠ [] ∧ (InBrackets p → (fields p).length = (targets p).length)

/-- An assignment is kept if one of its targets names a field and, in brackets, each of them does. -/
theorem kept_iff {p : Text} : Kept p ↔
    (∃ target ∈ targets p, ∃ field, NamesField target field) ∧
      (InBrackets p → ∀ target ∈ targets p, ∃ field, NamesField target field) := by
  rw [Kept, fields_ne_nil_iff, length_fields_iff]

end Assignment

/-- An update that is turned into a query assigns a field. -/
theorem assignedFields_ne_nil {profile : Profile} {held : Held} {text : Text}
    (h : Mutation.update.select profile held = .ok text) : assignedFields held.text ≠ [] := by
  intro hnil
  simp [Mutation.select, hnil] at h

namespace Job

variable {batch identifier : Text} {s : Statement}

/-- What a converted update selects: the fields of its assignments, one piece of the list after the
other, and at least one. A piece is kept exactly when one of its targets names a field, and all of them
do if its left side is in brackets. -/
theorem assignments_selected (hs : s ∈ (Job.standard batch identifier).statements)
    (hrecord : ((Job.standard batch identifier).record s).isError = false)
    (hkind : s.kind = .update) :
    let t := (Held.standard s.sql).text
    ∃ report query m list pieces span target,
      (Job.standard batch identifier).Converts s (Held.standard s.sql) .update report query ∧
      Grammar.assignmentList.find? t = some m ∧ m.part? .assignments = some list ∧
      Divided list.text pieces ∧
      Grammar.updateSpan.find? t = some span ∧ span.part? .target = some target ∧
      query.text = t.takeWhile isBlank ++ ("select ".toList ++
        List.intercalate ", ".toList (pieces.flatMap Assignment.fields) ++ "\nfrom ".toList ++
        Text.trimBlank (Profile.standard.stagingMark.replaceAll (fun _ => []) target.text) ++
        "\n".toList) ++ report.parameters ∧
      ((Job.standard batch identifier).record s).sql =
        (tidy Profile.standard (Job.standard batch identifier).identifier query).revert ∧
      pieces.flatMap Assignment.fields ≠ [] ∧
      ∀ p ∈ pieces, Assignment.Kept p ↔
        (∃ target ∈ Assignment.targets p, ∃ field, NamesField target field) ∧
          (Assignment.InBrackets p →
            ∀ target ∈ Assignment.targets p, ∃ field, NamesField target field) := by
  obtain ⟨report, query, span, target, hconverts, hspan, htarget, htext, -⟩ :=
    updateHeader_at_start hs hrecord hkind
  have hreport : Mutation.updateHead (Held.standard s.sql) = report := Except.ok.inj hconverts.head
  obtain ⟨m, list, hm, hlist⟩ := exists_assignments_of_hasMatch
    (assignmentList_of_updateHead (hreport ▸ hconverts.passed))
  have hfields := assignedFields_eq hm hlist (divided_splitCommas list.text)
  have hne := assignedFields_ne_nil hconverts.select_eq.1
  rw [hfields] at htext hne
  refine ⟨report, query, m, list, _, span, target, hconverts, hm, hlist, divided_splitCommas _, hspan,
    htarget, htext, ?_, hne, fun p _ => Assignment.kept_iff⟩
  rw [record_of_query _ hconverts.query_eq, finish_sql]
  rfl

/-- Commas in the values, an alias, and two targets in brackets. -/
theorem assignments_selected_brackets :
    let s := Statement.ofText
      "update s.t x set x.a = nvl(b, c), (x.d, e) = (f(1, 2)), g=2 where x.id = 1;".toList
    (Job.standard s.sql "abc".toList).statements = [s] ∧
      ((Job.standard s.sql "abc".toList).record s).isError = false ∧ s.kind = .update ∧
      ∃ report query source,
        (Job.standard s.sql "abc".toList).Converts s (Held.standard s.sql) .update report query ∧
        query.text = "select a, d, e, g\nfrom ".toList ++ source ++ "\n".toList ++ report.parameters := by
  intro s
  have hrecord : ((Job.standard s.sql "abc".toList).record s).isError = false := by
    simp only [s]
    repeat rw [String.toList_ofList]
    decide +kernel
  have hlist : ((Grammar.assignmentList.find? (Held.standard s.sql).text).bind fun m =>
      m.part? .assignments).map Capture.text =
        some "x.a = nvl(b, c), (x.d, e) = (f(1, 2)), g=2".toList := by
    simp only [s]
    repeat rw [String.toList_ofList]
    decide +kernel
  refine ⟨by decide, hrecord, by decide, ?_⟩
  obtain ⟨report, query, m, list, pieces, span, target, hconverts, hm, hpart, hpieces, -, -, htext, -⟩ :=
    assignments_selected (by decide) hrecord (by decide)
  have hblanks : (Held.standard s.sql).text.takeWhile isBlank = [] := by decide
  have hfields : pieces.flatMap Assignment.fields = ["a", "d", "e", "g"].map String.toList := by
    have htext : list.text = "x.a = nvl(b, c), (x.d, e) = (f(1, 2)), g=2".toList := by
      simpa [hm, hpart] using hlist
    rw [← hpieces.splitCommas_eq, htext]
    repeat rw [String.toList_ofList]
    decide +kernel
  have hselect : List.intercalate ", ".toList (["a", "d", "e", "g"].map String.toList) =
      "a, d, e, g".toList := by decide
  rw [hblanks, hfields, hselect] at htext
  exact ⟨report, query, _, hconverts, htext⟩

/-- A name with two qualifiers is no target, and neither is a quoted name: the assignment to the first
and the second target in brackets are lost without an error. -/
theorem assignment_lost :
    (let s := Statement.ofText "update s.t set a = 1, x.y.b = 2 where c = 3;".toList
     (Job.standard s.sql "abc".toList).statements = [s] ∧ s.kind = .update ∧
      (Job.standard s.sql "abc".toList).record s =
        ⟨"select a\nfrom s.t\nwhere c = 3;".toList, false,
          "Update statement converted successfully.".toList⟩ ∧
      ((Grammar.assignmentList.find? (Held.standard s.sql).text).bind fun m =>
        m.part? .assignments).map Capture.text = some "a = 1, x.y.b = 2".toList ∧
      splitCommas 0 "a = 1, x.y.b = 2".toList = ["a = 1".toList, " x.y.b = 2".toList] ∧
      Assignment.fields " x.y.b = 2".toList = []) ∧
    (let s := Statement.ofText "update s.t set (a, \"b\") = (f(1)) where c = 3;".toList
     (Job.standard s.sql "abc".toList).statements = [s] ∧ s.kind = .update ∧
      (Job.standard s.sql "abc".toList).record s =
        ⟨"select a\nfrom s.t\nwhere c = 3;".toList, false,
          "Update statement converted successfully.".toList⟩ ∧
      Assignment.targets "(a, \"b\") = (f(1))".toList = ["a".toList, " \"b\"".toList] ∧
      Assignment.fields "(a, \"b\") = (f(1))".toList = ["a".toList]) := by
  repeat rw [String.toList_ofList]
  decide +kernel

end Job

end MutationPreview
