import MutationPreview.Proofs.Standard

/-!
# Statements that are converted

A record that is no error comes from a statement for which every step of the conversion succeeded.
`Job.Converts` lists these steps; what is proved of accepted clauses and of the text of the query
starts from it.
-/

namespace MutationPreview

/-- Two steps in a row succeed only if each does. -/
theorem exists_ok_of_bind {ε α β : Type} {step : Except ε α} {next : α → Except ε β} {b : β}
    (h : step >>= next = .ok b) : ∃ a, step = .ok a ∧ next a = .ok b := by
  cases step with
  | error failure => cases h
  | ok a => exact ⟨a, rfl, h⟩

theorem liftTimeout_eq_ok {α : Type} {x : Except Timeout α} {a : α}
    (h : liftTimeout x = .ok a) : x = .ok a := by
  cases x with
  | error limit => simp [liftTimeout] at h
  | ok b => simpa [liftTimeout] using h

namespace Job

/-- The steps of a conversion that succeeds. -/
structure Converts (job : Job) (s : Statement) (held : Held) (m : Mutation) (report : HeadReport)
    (query : Held) : Prop where
  mutation : s.mutation = .ok m
  head : m.head job.profile.budget held = .ok report
  passed : report.failure? = none
  accepted : parameterFaults job.profile held report.parameters = .ok []
  query : m.toQuery job.profile held = .ok query

end Job

/-! ## The query of a statement -/

/-- The query that a statement is turned into, before it is tidied. No step up to there looks at the
identifier. -/
def Statement.query (profile : Profile) (s : Statement) : Except Failure Held := do
  let mutation ← s.mutation
  let held := Held.ofText profile.literalFormat profile.subqueryFormat s.sql
  let report ← liftTimeout (mutation.head profile.budget held)
  match report.failure? with
  | some key => throw (.badShape mutation.kind key)
  | none => pure ()
  let faults ← liftTimeout (parameterFaults profile held report.parameters)
  if !faults.isEmpty then throw (.badPredicates mutation.kind faults)
  mutation.toQuery profile held

namespace Job

/-- A query comes from steps that all succeed. -/
theorem converts_of_query (job : Job) {s : Statement} {query : Held}
    (h : s.query job.profile = .ok query) :
    ∃ m report, job.Converts s
      (Held.ofText job.profile.literalFormat job.profile.subqueryFormat s.sql) m report query := by
  obtain ⟨m, hm, h⟩ := exists_ok_of_bind h
  obtain ⟨report, hreport, h⟩ := exists_ok_of_bind h
  cases hfailure : report.failure? with
  | some key =>
    rw [hfailure] at h
    cases h
  | none =>
    rw [hfailure] at h
    obtain ⟨faults, hfaults, h⟩ := exists_ok_of_bind h
    cases faults with
    | cons fault faults => cases h
    | nil =>
      exact ⟨m, report, hm, liftTimeout_eq_ok hreport, hfailure, liftTimeout_eq_ok hfaults, h⟩

theorem Converts.query_eq {job : Job} {s : Statement} {m : Mutation} {report : HeadReport}
    {query : Held}
    (h : job.Converts s (Held.ofText job.profile.literalFormat job.profile.subqueryFormat s.sql) m
      report query) : s.query job.profile = .ok query := by
  simp only [Statement.query, h.mutation, h.head, h.passed, h.accepted, h.query, liftTimeout, bind,
    Except.bind, List.isEmpty_nil, Bool.not_true, Bool.false_eq_true, if_false]

/-- The record of a query that has been tidied and reverted. -/
def finish (job : Job) (s : Statement) (sql : Text) : Record :=
  if Grammar.queryHead.hasMatch (sql.dropWhile isBlank) then
    ⟨sql, false, job.catalog.resolve .converted [s.kind.name]⟩
  else ⟨sql, true, job.catalog.resolve .notConverted [s.kind.name]⟩

@[simp] theorem finish_sql (job : Job) (s : Statement) (sql : Text) :
    (job.finish s sql).sql = sql := by
  rw [finish]
  split <;> rfl

/-- The steps up to the query, and then the tidied query or the failure. -/
theorem record_eq (job : Job) (s : Statement) :
    job.record s = match s.query job.profile with
      | .ok query => job.finish s (tidy job.profile job.identifier query).revert
      | .error failure => job.failureRecord s failure := by
  rw [record, preview, Statement.query]
  cases s.mutation with
  | error failure => rfl
  | ok m =>
    dsimp only [bind, Except.bind]
    cases liftTimeout (m.head job.profile.budget
        (Held.ofText job.profile.literalFormat job.profile.subqueryFormat s.sql)) with
    | error failure => rfl
    | ok report =>
      dsimp only
      cases report.failure? with
      | some key => rfl
      | none =>
        dsimp only [pure, Except.pure]
        rw [checkParameters_eq]
        cases parameterFaults job.profile
            (Held.ofText job.profile.literalFormat job.profile.subqueryFormat s.sql)
            report.parameters with
        | error limit => rfl
        | ok faults =>
          dsimp only [liftTimeout, Except.map]
          cases faults with
          | cons fault faults => rfl
          | nil =>
            cases m.toQuery job.profile
                (Held.ofText job.profile.literalFormat job.profile.subqueryFormat s.sql) with
            | error failure => simp
            | ok query =>
              simp only [List.isEmpty_nil, Bool.not_true, Bool.false_eq_true, if_false, finish]
              by_cases hhead : Grammar.queryHead.hasMatch
                  ((tidy job.profile job.identifier query).revert.dropWhile isBlank) = true
              · simp [hhead]
              · simp only [hhead, Bool.false_eq_true, if_false]
                rfl

theorem record_of_query (job : Job) {s : Statement} {query : Held}
    (h : s.query job.profile = .ok query) :
    job.record s = job.finish s (tidy job.profile job.identifier query).revert := by
  rw [record_eq, h]

theorem record_of_failure (job : Job) {s : Statement} {failure : Failure}
    (h : s.query job.profile = .error failure) : job.record s = job.failureRecord s failure := by
  rw [record_eq, h]

/-- A preview is the tidied query of a statement for which every step succeeded, and it starts like
a query. -/
theorem exists_converts {job : Job} {s : Statement} {sql : Text} (h : job.preview s = .ok sql) :
    ∃ m report query, job.Converts s
      (Held.ofText job.profile.literalFormat job.profile.subqueryFormat s.sql) m report query ∧
      sql = (tidy job.profile job.identifier query).revert ∧
      Grammar.queryHead.hasMatch (sql.dropWhile isBlank) = true := by
  have hrecord := job.record_eq s
  rw [record, h] at hrecord
  cases hquery : s.query job.profile with
  | error failure =>
    rw [hquery] at hrecord
    cases failure <;> simp [failureRecord] at hrecord
  | ok query =>
    obtain ⟨m, report, hconverts⟩ := job.converts_of_query hquery
    refine ⟨m, report, query, hconverts, ?_⟩
    -- the last check passes or gives an error
    rw [hquery] at hrecord
    dsimp only [finish] at hrecord
    split at hrecord
    · rename_i hhead
      obtain ⟨rfl, -⟩ := Record.mk.inj hrecord
      exact ⟨rfl, hhead⟩
    · simp at hrecord

/-- A record that is no error holds the preview. -/
theorem preview_of_record {job : Job} {s : Statement} (h : (job.record s).isError = false) :
    job.preview s = .ok (job.record s).sql := by
  rw [record] at h ⊢
  cases hpreview : job.preview s with
  | ok sql => rfl
  | error failure =>
    rw [hpreview] at h
    cases failure <;> simp [failureRecord] at h

end Job

end MutationPreview
