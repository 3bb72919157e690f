import MutationPreview.Proofs.Clause.Accepted
import MutationPreview.Proofs.Clause.Unclosed

/-!
# Faults at every depth

The walk through the parameters of a statement keeps a list of what is still to be done. Without
that list, the faults of a text are those of its own clause, in which the mark stands for each
subquery, and then those within its subqueries, in order (`faultsWithin`).

The walk is this recursion: what it reports for a list of steps is what each step stands for, one
after the other (`workOff_eq_flatMap`). So the check of the parameters always gives a result, and
the result is the recursion's (`checkParameters_faultsWithin`).
-/

namespace MutationPreview

/-! ## Bodies of subqueries -/

theorem map_stripBrackets_find (text : Text) :
    (Subquery.find text).map stripBrackets = Segment.spans (Subquery.segments text) := by
  rw [Subquery.find, List.map_map]
  exact List.map_id'' stripBrackets_cover _

/-- A subquery without its brackets is shorter than the text around it. -/
theorem length_stripBrackets_lt {text span : Text} (h : span ∈ Subquery.find text) :
    (stripBrackets span).length < text.length := by
  obtain ⟨body, hbody, rfl⟩ := List.mem_map.mp h
  have hle := (Segment.infix_join Subquery.cover hbody).length_le
  rw [Subquery.join_segments] at hle
  rw [stripBrackets_cover]
  simp only [Subquery.cover, List.cons_append, List.length_cons, List.length_append,
    List.length_nil] at hle
  omega

/-! ## The recursion -/

/-- The faults of a clause; if it is the clause of a subquery, only those from its `where` on. -/
def faultsOfClause (profile : Profile) (literals : Ledger) (clause : Text) (nested : Bool) :
    List Text :=
  clauseFaults profile.budget literals (if nested then fromWhere clause else clause)

/-- The faults of a text: those of its clause, and then those within each of its subqueries. -/
def faultsWithin (profile : Profile) (literals : Ledger) (text : Text) (nested : Bool) : List Text :=
  faultsOfClause profile literals (clauseOf profile.resolvedMark text) nested ++
    (Subquery.find text).attach.flatMap fun span =>
      faultsWithin profile literals (stripBrackets span.1) true
termination_by text.length
decreasing_by exact length_stripBrackets_lt span.2

theorem faultsWithin_eq (profile : Profile) (literals : Ledger) (text : Text) (nested : Bool) :
    faultsWithin profile literals text nested =
      faultsOfClause profile literals (clauseOf profile.resolvedMark text) nested ++
        ((Subquery.find text).map stripBrackets).flatMap fun body =>
          faultsWithin profile literals body true := by
  rw [faultsWithin, List.flatMap_map]
  congr 1
  rw [← List.flatMap_map Subtype.val fun span =>
    faultsWithin profile literals (stripBrackets span) true, List.attach_map_subtype_val]

/-- What a step of the walk stands for. -/
def WorkItem.faults (profile : Profile) (literals : Ledger) : WorkItem → List Text
  | .span text nested => faultsWithin profile literals text nested
  | .clause text nested => faultsOfClause profile literals text nested

/-- Taking out the subqueries of a text leaves steps that stand for the same faults. -/
theorem flatMap_faults_takeOut (profile : Profile) (literals : Ledger) (text : Text)
    (nested : Bool) :
    (takeOut profile.resolvedMark text nested).flatMap (WorkItem.faults profile literals) =
      faultsWithin profile literals text nested := by
  rw [takeOut, List.flatMap_cons, List.flatMap_map, faultsWithin_eq, map_stripBrackets_find]
  rfl

/-- The walk reports what its steps stand for, one after the other. -/
theorem workOff_eq_flatMap (profile : Profile) (literals : Ledger) (items : List WorkItem) :
    workOff profile literals items = items.flatMap (WorkItem.faults profile literals) := by
  induction items using workOff.induct profile with
  | case1 => simp [workOff]
  | case2 text nested rest ih =>
    rw [workOff, ih, List.flatMap_append, flatMap_faults_takeOut, List.flatMap_cons, WorkItem.faults]
  | case3 text nested rest ih => rw [workOff, ih, List.flatMap_cons, WorkItem.faults, faultsOfClause]

/-! ## Faults are not blank -/

theorem isBlank_of_mem_surplusWheres {clause w : Text} (h : w ∈ surplusWheres clause) :
    Text.isBlank w = false := by
  have hmem : w ∈ (Grammar.whereKeyword.findAll clause).map Match.text := by
    rw [surplusWheres] at h
    split at h
    · exact h
    · cases h
  obtain ⟨m, hm, rfl⟩ := List.mem_map.mp hmem
  obtain ⟨before, rest, -, hreads, hne⟩ := Pattern.reads_of_mem_spans (by decide) hm
  obtain ⟨c, w, hw⟩ := List.exists_cons_of_ne_nil hne
  have hc := isBlank_of_mem_connective (connective_of_wholeWhere hreads) (c := c) (by simp [hw])
  simp [hw, Text.isBlank, hc]

theorem isBlank_of_mem_faultsWithin {profile : Profile} {literals : Ledger} {text : Text}
    {nested : Bool} {fault : Text} (h : fault ∈ faultsWithin profile literals text nested) :
    Text.isBlank fault = false := by
  fun_induction faultsWithin profile literals text nested with
  | case1 text nested ih =>
    rcases List.mem_append.mp h with hown | hwithin
    · rcases List.mem_append.mp hown with hwhere | hpredicate
      · exact isBlank_of_mem_surplusWheres hwhere
      · obtain ⟨fragment, -, -, -, hblank⟩ := mem_predicatesOf.mp (List.mem_filter.mp hpredicate).1
        exact hblank
    · obtain ⟨span, -, hfault⟩ := List.mem_flatMap.mp hwithin
      exact ih span hfault

/-! ## The check of the parameters -/

/-- The check of the parameters always gives a result. It lists the faults that the recursion finds
from the parameters with their subqueries put back, it accepts when it lists none, and it lists
nothing blank. -/
theorem checkParameters_faultsWithin (profile : Profile) (held : Held) (parameters : Text)
    (hlimit : profile.budget.limitMs ≠ 0) :
    ∃ findings, checkParameters profile held parameters = .ok findings ∧
      findings.fragments =
        faultsWithin profile held.literals (held.subqueries.revert parameters) false ∧
      (findings.valid = true ↔ findings.fragments = []) ∧
      ∀ fragment ∈ findings.fragments, Text.isBlank fragment = false := by
  have hwalk : parameterFaults profile held parameters =
      .ok (faultsWithin profile held.literals (held.subqueries.revert parameters) false) := by
    rw [parameterFaults, Budget.bounded, if_neg hlimit, workOff_eq_flatMap]
    simp only [List.flatMap_cons, List.flatMap_nil, List.append_nil, WorkItem.faults]
  refine ⟨_, by rw [checkParameters_eq, hwalk]; rfl, rfl, List.isEmpty_iff, ?_⟩
  intro fragment hfragment
  exact isBlank_of_mem_faultsWithin hfragment

/-- Three predicates without a form: the last of the clause, and two within its subquery and the
subquery of that. -/
theorem checkParameters_faultsWithin_nested :
    let parameters := "where a in (select b from t where c ~~ 1 and d in (select e where f ~~ 2))" ++
      " and g ~~ 3"
    Profile.standard.budget.limitMs ≠ 0 ∧
      ∃ findings, checkParameters Profile.standard (Held.standard []) parameters.toList =
          .ok findings ∧
        findings.fragments = ["g ~~ 3".toList, "c ~~ 1".toList, "f ~~ 2".toList] := by
  intro parameters
  obtain ⟨findings, hok, hfragments, -⟩ :=
    checkParameters_faultsWithin Profile.standard (Held.standard []) parameters.toList (by decide)
  refine ⟨by decide, findings, hok, ?_⟩
  have hrevert : (Held.standard []).subqueries.revert parameters.toList = parameters.toList := by
    decide
  have houter : (Subquery.find parameters.toList).map stripBrackets =
      ["select b from t where c ~~ 1 and d in (select e where f ~~ 2)".toList] := by
    decide
  have hmiddle : (Subquery.find
      "select b from t where c ~~ 1 and d in (select e where f ~~ 2)".toList).map stripBrackets =
      ["select e where f ~~ 2".toList] := by
    decide
  have hinner : Subquery.find "select e where f ~~ 2".toList = [] := by decide
  rw [hfragments, hrevert, faultsWithin_eq, houter, List.flatMap_singleton, faultsWithin_eq, hmiddle,
    List.flatMap_singleton, faultsWithin_eq, hinner, List.map_nil, List.flatMap_nil, List.append_nil]
  decide

end MutationPreview
