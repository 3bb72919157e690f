import MutationPreview.Proofs.Pattern.Segments
import MutationPreview.Proofs.Standard

/-!
# Accepted clauses

A clause is accepted when nothing of it is reported. Here that is taken apart: the check of the
parameters finds nothing exactly when every clause that the walk meets is accepted, and a clause is
accepted exactly when it has one `where` at most and each of its predicates has a form
(`clauseFaults_eq_nil_iff`).
-/

namespace MutationPreview

/-! ## One clause -/

theorem PredicateForm.mem_all (form : PredicateForm) : form ∈ PredicateForm.all := by
  cases form <;> decide

theorem isRejected_eq_false_iff {t : Text} :
    isRejected Profile.standard.budget t = false ↔
      ∃ form : PredicateForm, form.accepts t = true := by
  have hclassify : isRejected Profile.standard.budget t =
      (PredicateForm.classify? t).isNone := by
    have hbounded : PredicateForm.classify Profile.standard.budget t =
        .ok (PredicateForm.classify? t) := rfl
    rw [isRejected, hbounded]
    cases PredicateForm.classify? t <;> rfl
  rw [hclassify, PredicateForm.classify?, Option.isNone_eq_false_iff, List.find?_isSome]
  constructor
  · rintro ⟨form, -, h⟩
    exact ⟨form, h⟩
  · rintro ⟨form, h⟩
    exact ⟨form, form.mem_all, h⟩

/-- A clause is accepted when it has one `where` at most and each of its predicates has a form. -/
theorem clauseFaults_eq_nil_iff {literals : Ledger} {clause : Text} :
    clauseFaults Profile.standard.budget literals clause = [] ↔
      surplusWheres clause = [] ∧
        ∀ p ∈ predicatesOf literals clause, ∃ form : PredicateForm, form.accepts p = true := by
  rw [clauseFaults, List.append_eq_nil_iff, List.filter_eq_nil_iff]
  refine and_congr_right fun _ => forall_congr' fun p => forall_congr' fun _ => ?_
  rw [Bool.not_eq_true, isRejected_eq_false_iff]

/-- The predicates of a clause: its fragments between connectives, trimmed and with their literals
put back, as far as they are not blank. -/
theorem mem_predicatesOf {literals : Ledger} {clause p : Text} :
    p ∈ predicatesOf literals clause ↔
      ∃ fragment ∈ Grammar.boundary.split clause, isEmptyFragment fragment = false ∧
        literals.revert (Text.trim isClauseEdge fragment) = p ∧ Text.isBlank p = false := by
  simp only [predicatesOf, List.mem_filter, List.mem_map, Bool.not_eq_true']
  constructor
  · rintro ⟨⟨fragment, ⟨hmem, hempty⟩, heq⟩, hblank⟩
    exact ⟨fragment, hmem, hempty, heq, hblank⟩
  · rintro ⟨fragment, hmem, hempty, heq, hblank⟩
    exact ⟨⟨fragment, ⟨hmem, hempty⟩, heq⟩, hblank⟩

/-! ## The walk -/

/-- The clauses that the walk meets on its way through one step: the clause itself, or the clauses
of what is taken out of a text. -/
inductive WorkItem.Meets (mark : Text) : WorkItem → Text → Prop where
  | clause (text : Text) (nested : Bool) :
      Meets mark (.clause text nested) (if nested then fromWhere text else text)
  | takeOut {text clause : Text} {nested : Bool} {item : WorkItem}
      (hitem : item ∈ MutationPreview.takeOut mark text nested) (hmeets : Meets mark item clause) :
      Meets mark (.span text nested) clause

/-- The clause of the text itself is the first one. -/
theorem WorkItem.Meets.own {mark : Text} (text : Text) :
    (WorkItem.span text false).Meets mark (clauseOf mark text) :=
  .takeOut List.mem_cons_self (.clause (clauseOf mark text) false)

/-- The walk finds nothing exactly when every clause that it meets is accepted. -/
theorem workOff_eq_nil_iff {profile : Profile} {literals : Ledger} {items : List WorkItem} :
    workOff profile literals items = [] ↔
      ∀ item ∈ items, ∀ clause, item.Meets profile.resolvedMark clause →
        clauseFaults profile.budget literals clause = [] := by
  induction items using workOff.induct profile with
  | case1 => simp [workOff]
  | case2 text nested rest ih =>
    rw [workOff, ih]
    constructor
    · intro h item hitem clause hmeets
      rcases List.mem_cons.mp hitem with rfl | hitem
      · cases hmeets with
        | takeOut hmem hmeets => exact h _ (List.mem_append_left _ hmem) clause hmeets
      · exact h item (List.mem_append_right _ hitem) clause hmeets
    · intro h item hitem clause hmeets
      rcases List.mem_append.mp hitem with hitem | hitem
      · exact h _ List.mem_cons_self clause (.takeOut hitem hmeets)
      · exact h item (List.mem_cons_of_mem _ hitem) clause hmeets
  | case3 text nested rest ih =>
    rw [workOff, List.append_eq_nil_iff, ih]
    constructor
    · rintro ⟨hclause, hrest⟩ item hitem clause hmeets
      rcases List.mem_cons.mp hitem with rfl | hitem
      · cases hmeets
        exact hclause
      · exact hrest item hitem clause hmeets
    · intro h
      refine ⟨h _ List.mem_cons_self _ (.clause text nested), ?_⟩
      intro item hitem
      exact h item (List.mem_cons_of_mem _ hitem)

/-- Two ledgers that accept the same clauses accept the same work. -/
theorem workOff_eq_nil_congr {profile : Profile} {l l' : Ledger}
    (h : ∀ clause, clauseFaults profile.budget l clause = [] ↔
      clauseFaults profile.budget l' clause = []) (items : List WorkItem) :
    workOff profile l items = [] ↔ workOff profile l' items = [] := by
  simp only [workOff_eq_nil_iff, h]

/-- The walk checks the clause of a text before its subqueries. -/
theorem workOff_span {profile : Profile} {literals : Ledger} {text : Text} :
    workOff profile literals [.span text false] =
      clauseFaults profile.budget literals (clauseOf profile.resolvedMark text) ++
        workOff profile literals
          ((Segment.spans (Subquery.segments text)).map fun body => .span body true) := by
  rw [workOff, takeOut, List.cons_append, workOff, List.append_nil]
  rfl

/-- The check under the default configuration is never cut short. -/
theorem parameterFaults_standard (held : Held) (parameters : Text) :
    parameterFaults Profile.standard held parameters =
      .ok (workOff Profile.standard held.literals
        [.span (held.subqueries.revert parameters) false]) := rfl

/-- Without subqueries there is one clause to check. -/
theorem parameterFaults_of_no_subquery {held : Held} {parameters : Text}
    (h : Segment.spans (Subquery.segments (held.subqueries.revert parameters)) = []) :
    parameterFaults Profile.standard held parameters =
      .ok (clauseFaults Profile.standard.budget held.literals
        (clauseOf Profile.standard.resolvedMark (held.subqueries.revert parameters))) := by
  rw [parameterFaults_standard, workOff_span, h, List.map_nil, workOff, List.append_nil]

end MutationPreview
