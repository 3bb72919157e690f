import MutationPreview.Held
import MutationPreview.Predicate
import MutationPreview.Profile

/-!
# Checking clauses

A clause is cut at its connectives, and every fragment must have an accepted form. Subqueries are
checked too: in the clause around them a mark stands in their place, and the clause of each
subquery is checked after it. The walk keeps a list of what is still to be done.

Main statement: taking out subqueries leaves less to be done (`workSize_takeOut_lt`), so the walk
ends.
-/

namespace MutationPreview

/-! ## One clause -/

/-- Whether a character is a space or the usual terminator. -/
def isClauseEdge (c : Char) : Bool := c == ' ' || c == ';'

/-- Whether a fragment between two connectives is nothing but edge characters and blanks. -/
def isEmptyFragment (fragment : Text) : Bool :=
  Text.isBlank (Text.trim (fun c => isClauseEdge c || c == '\t') fragment)

/-- Whether a fragment is rejected. A fragment whose check reaches the time limit is. -/
def isRejected (budget : Budget) (fragment : Text) : Bool :=
  match PredicateForm.classify budget fragment with
  | .ok (some _) => false
  | .ok none => true
  | .error _ => true

/-- The words `where` of a clause that has more than one of them. -/
def surplusWheres (clause : Text) : List Text :=
  let words := (Grammar.whereKeyword.findAll clause).map Match.text
  if words.length > 1 then words else []

/-- The predicates of a clause, with their literals put back. -/
def predicatesOf (literals : Ledger) (clause : Text) : List Text :=
  let fragments := (Grammar.boundary.split clause).filter fun fragment => !isEmptyFragment fragment
  let restored := fragments.map fun fragment => literals.revert (Text.trim isClauseEdge fragment)
  restored.filter fun fragment => !Text.isBlank fragment

/-- What a clause is rejected for, in order: its words `where` if there are several, and each
predicate without an accepted form. -/
def clauseFaults (budget : Budget) (literals : Ledger) (clause : Text) : List Text :=
  surplusWheres clause ++ (predicatesOf literals clause).filter (isRejected budget)

/-! ## A clause and its subqueries -/

/-- A step of the walk: a text whose subqueries are still to be taken out, or a clause to be
checked. A nested text is the body of a subquery. -/
inductive WorkItem where
  | span (text : Text) (nested : Bool)
  | clause (text : Text) (nested : Bool)
deriving DecidableEq, Repr

/-- A measure that taking out the subqueries of a text makes smaller. -/
def WorkItem.size : WorkItem → Nat
  | span text _ => 2 * text.length + 2
  | clause _ _ => 1

/-- The measure of what is still to be done. -/
def workSize : List WorkItem → Nat
  | [] => 0
  | item :: rest => item.size + workSize rest

/-- The clause of a text: the mark stands for each of its subqueries. -/
def clauseOf (mark text : Text) : Text := Segment.join (fun _ => mark) (Subquery.segments text)

/-- Takes out the subqueries of a text: its clause comes first, then the bodies of the subqueries
in order. -/
def takeOut (mark text : Text) (nested : Bool) : List WorkItem :=
  .clause (clauseOf mark text) nested ::
    (Segment.spans (Subquery.segments text)).map fun body => .span body true

/-- The predicates of a subquery's clause, from its `where` on. A clause without one is taken
whole. -/
def fromWhere (clause : Text) : Text :=
  match (Grammar.selectHead.find? clause).bind fun m => m.part? .whereWord with
  | some whereWord => whereWord.start.after
  | none => clause

theorem workSize_append (a b : List WorkItem) : workSize (a ++ b) = workSize a + workSize b := by
  induction a with
  | nil => simp [workSize]
  | cons item a ih => simp only [List.cons_append, workSize, ih]; omega

/-- The bodies of subqueries measure no more than the text around them has room for. -/
theorem workSize_spans_le (segments : List (Segment Text)) :
    workSize ((Segment.spans segments).map fun body => .span body true) ≤
      2 * (Segment.join Subquery.cover segments).length := by
  induction segments with
  | nil => simp [Segment.spans, workSize]
  | cons s rest ih =>
    cases s with
    | plain c => simp only [Segment.spans, Segment.join, List.length_cons]; omega
    | span body =>
      simp only [Segment.spans, Segment.join, List.map_cons, workSize, WorkItem.size,
        Subquery.cover, List.length_append, List.length_cons, List.length_nil]
      omega

/-- Taking out the subqueries of a text leaves less to be done. -/
theorem workSize_takeOut_lt (mark text : Text) (nested : Bool) :
    workSize (takeOut mark text nested) < (WorkItem.span text nested).size := by
  have h := workSize_spans_le (Subquery.segments text)
  rw [Subquery.join_segments] at h
  simp only [takeOut, workSize, WorkItem.size]
  omega

/-- Works off the list and collects what is rejected. -/
def workOff (profile : Profile) (literals : Ledger) : List WorkItem → List Text
  | [] => []
  | .span text nested :: rest =>
    workOff profile literals (takeOut profile.resolvedMark text nested ++ rest)
  | .clause text nested :: rest =>
    clauseFaults profile.budget literals (if nested then fromWhere text else text) ++
      workOff profile literals rest
termination_by items => workSize items
decreasing_by
  · have h := workSize_takeOut_lt profile.resolvedMark text nested
    rw [workSize_append]
    simp only [workSize]
    omega
  · simp [workSize, WorkItem.size]

/-- The rejected fragments of a statement's parameters, at every depth of subqueries. The walk as
a whole is under the time limit. -/
def parameterFaults (profile : Profile) (held : Held) (parameters : Text) :
    Except Timeout (List Text) :=
  profile.budget.bounded
    (workOff profile held.literals [.span (held.subqueries.revert parameters) false])

/-! ## Findings -/

/-- What the check of the parameters found: whether they are accepted, and the rejected fragments in
order. -/
structure Findings where
  valid : Bool := true
  fragments : List Text := []
deriving DecidableEq, Repr

/-- Adds a rejected fragment. -/
def Findings.reject (f : Findings) (fragment : Text) : Findings :=
  { valid := false, fragments := f.fragments ++ [fragment] }

/-- Checks the parameters of a statement. -/
def checkParameters (profile : Profile) (held : Held) (parameters : Text) :
    Except Timeout Findings :=
  (parameterFaults profile held parameters).map fun faults => faults.foldl Findings.reject {}

theorem Findings.foldl_reject (f : Findings) (faults : List Text) :
    faults.foldl Findings.reject f = ⟨f.valid && faults.isEmpty, f.fragments ++ faults⟩ := by
  induction faults generalizing f with
  | nil => simp
  | cons fault faults ih => simp [ih, Findings.reject]

/-- The parameters are accepted exactly when no fragment is rejected. -/
theorem checkParameters_eq (profile : Profile) (held : Held) (parameters : Text) :
    checkParameters profile held parameters =
      (parameterFaults profile held parameters).map fun faults => ⟨faults.isEmpty, faults⟩ := by
  simp only [checkParameters, Findings.foldl_reject, Bool.true_and, List.nil_append]

end MutationPreview
