import MutationPreview.Proofs.Preview

/-!
# A batch without time

A limit of zero is reached by every step that is under the limit. So no statement becomes a query
then: the header of a merge reaches the limit, and of every other statement whose head is in order
the walk through the predicates does (`Statement.query_exhausted`). Each record is an error that
leaves the statement as it is (`Job.record_exhausted`), and no message depends on the templates for
what is judged only in time (`Job.records_exhausted`).
-/

namespace MutationPreview

theorem Budget.bounded_exhausted {α : Type} {b : Budget} (h : b.limitMs = 0) (value : α) :
    b.bounded value = .error ⟨0⟩ := by
  rw [Budget.bounded, if_pos h, h]

/-- The check of a configuration does not change it. -/
theorem Config.eq_of_check {c checked : Config} (h : c.check = .ok checked) : checked = c := by
  unfold Config.check at h
  split at h
  · cases h
  · split at h
    · cases h
    · exact (Except.ok.inj h).symm

/-- The limit of a profile is the one that the configuration sets. -/
theorem Config.budget_of_profile {c : Config} {profile : Profile} (h : c.profile = .ok profile) :
    profile.budget = ⟨c.matchTimeoutMs⟩ := by
  obtain ⟨checked, hcheck, h⟩ := exists_ok_of_bind h
  obtain ⟨literalFormat, -, h⟩ := exists_ok_of_bind h
  obtain ⟨subqueryFormat, -, h⟩ := exists_ok_of_bind h
  rw [← Except.ok.inj h, Config.eq_of_check hcheck]

/-- The message of a head is that of one of its checks. -/
theorem HeadReport.exists_check {r : HeadReport} {key : MessageKey} (h : r.failure? = some key) :
    ∃ check ∈ r.checks, check.passed = false ∧ check.key = key := by
  obtain ⟨check, hfind, hkey⟩ := Option.map_eq_some_iff.mp h
  exact ⟨check, List.mem_of_find?_eq_some hfind, by simpa using List.find?_some hfind, hkey⟩

/-! ## One statement -/

namespace Statement

/-- The key and the arguments of the message for a statement that gets no time. The heads of a
delete and of an update are checked all the same, and the first check that does not pass is
reported. -/
def exhaustedMessage (profile : Profile) (s : Statement) : MessageKey × List Text :=
  let held := Held.ofText profile.literalFormat profile.subqueryFormat s.sql
  match s.kind with
  | .unknown => (.unsupported, [s.keyword])
  | .merge => (.timeout, [])
  | .delete => ((Mutation.deleteHead held).failure?.getD .timeout, [])
  | .update => ((Mutation.updateHead held).failure?.getD .timeout, [])

/-- No such message says that a statement was converted, or that it was judged and rejected. -/
theorem exhaustedMessage_key (profile : Profile) (s : Statement) :
    (s.exhaustedMessage profile).1 ≠ .notConverted ∧ (s.exhaustedMessage profile).1 ≠ .converted := by
  -- the message of a head is that of one of its checks, and no check has either key
  have hhead : ∀ r : HeadReport,
      (∀ check ∈ r.checks, check.key ≠ .notConverted ∧ check.key ≠ .converted) →
      r.failure?.getD .timeout ≠ .notConverted ∧ r.failure?.getD .timeout ≠ .converted := by
    intro r hchecks
    cases hfailure : r.failure? with
    | none => decide
    | some key =>
      obtain ⟨check, hmem, -, rfl⟩ := HeadReport.exists_check hfailure
      exact hchecks check hmem
  have hdelete := fun held => hhead (Mutation.deleteHead held) (by simp [Mutation.deleteHead])
  have hupdate := fun held => hhead (Mutation.updateHead held) (by simp [Mutation.updateHead])
  rw [exhaustedMessage]
  cases s.kind with
  | unknown => simp
  | merge => simp
  | delete =>
    dsimp only
    exact hdelete _
  | update =>
    dsimp only
    exact hupdate _

variable {profile : Profile} (hlimit : profile.budget.limitMs = 0)

include hlimit

/-- A statement whose head is checked without a limit fails at the head, or at its predicates
because there is no time for them. -/
theorem query_of_head {s : Statement} {m : Mutation} {report : HeadReport} (hm : s.mutation = .ok m)
    (hhead : m.head profile.budget
      (Held.ofText profile.literalFormat profile.subqueryFormat s.sql) = .ok report) :
    s.query profile = .error (match report.failure? with
      | some key => .badShape m.kind key
      | none => .timeout ⟨0⟩) := by
  rw [query, hm]
  dsimp only [bind, Except.bind]
  rw [hhead]
  dsimp only [liftTimeout]
  cases report.failure? with
  | some key => rfl
  | none =>
    dsimp only [pure, Except.pure]
    rw [parameterFaults, Budget.bounded_exhausted hlimit]

theorem query_of_merge {s : Statement} (hm : s.mutation = .ok .merge) :
    s.query profile = .error (.timeout ⟨0⟩) := by
  rw [query, hm]
  dsimp only [bind, Except.bind]
  rw [Mutation.head, Budget.bounded_exhausted hlimit]
  rfl

end Statement

namespace Job

/-- The record of a statement that gets no time: the statement as it is, and its message. -/
theorem record_exhausted (job : Job) (hlimit : job.profile.budget.limitMs = 0) (s : Statement) :
    job.record s = ⟨s.sql, true, job.catalog.resolve (s.exhaustedMessage job.profile).1
      (s.exhaustedMessage job.profile).2⟩ := by
  -- what the failed head of a delete or an update, or else the limit, means for the record
  have hrecord : ∀ (m : Mutation) (report : HeadReport), s.mutation = .ok m →
      m.head job.profile.budget
        (Held.ofText job.profile.literalFormat job.profile.subqueryFormat s.sql) = .ok report →
      job.record s = ⟨s.sql, true, job.catalog.resolve (report.failure?.getD .timeout) []⟩ := by
    intro m report hm hhead
    rw [record_of_failure job (Statement.query_of_head hlimit hm hhead)]
    cases report.failure? <;> rfl
  rw [Statement.exhaustedMessage]
  cases hkind : s.kind with
  | unknown =>
    have hquery : s.query job.profile = .error (.unsupported s.keyword) := by
      rw [Statement.query, Statement.mutation, hkind]
      rfl
    rw [record_of_failure job hquery]
    rfl
  | merge =>
    have hm : s.mutation = .ok .merge := by rw [Statement.mutation, hkind]
    rw [record_of_failure job (Statement.query_of_merge hlimit hm)]
    rfl
  | delete =>
    dsimp only
    rw [hrecord .delete _ (by rw [Statement.mutation, hkind]) rfl]
  | update =>
    dsimp only
    rw [hrecord .update _ (by rw [Statement.mutation, hkind]) rfl]

/-! ## The batch -/

/-- With a limit of zero, a batch that is not refused gives an error for each statement, with the
text of the statement unchanged: an unsupported statement is reported as such, a merge has run out of
time, and a delete or an update has a head that fails a check, or has run out of time. The messages
for converted and for rejected statements are not looked up: a catalog that words them otherwise gives
the same records. -/
theorem records_exhausted (c : Config) (profile : Profile) (catalog : Catalog)
    (sql identifier : Text) (hlimit : c.matchTimeoutMs = 0) (hprofile : c.profile = .ok profile)
    (hmet : (ofInput profile catalog sql identifier).missed? = none) :
    (ofInput profile catalog sql identifier).records =
      .ok ((statementsOf profile.terminator sql).map fun s =>
        ⟨s.sql, true, catalog.resolve (s.exhaustedMessage profile).1
          (s.exhaustedMessage profile).2⟩) ∧
    (∀ s ∈ statementsOf profile.terminator sql,
      (s.exhaustedMessage profile).1 ≠ .notConverted ∧
        (s.exhaustedMessage profile).1 ≠ .converted) ∧
    ∀ other : Catalog,
      (∀ key, key ≠ .notConverted → key ≠ .converted → other.template key = catalog.template key) →
      (ofInput profile other sql identifier).records =
        (ofInput profile catalog sql identifier).records := by
  have hbudget : profile.budget.limitMs = 0 := by
    rw [Config.budget_of_profile hprofile]
    exact hlimit
  have hrecords : ∀ any : Catalog, (ofInput profile any sql identifier).records =
      .ok ((statementsOf profile.terminator sql).map fun s =>
        ⟨s.sql, true, any.resolve (s.exhaustedMessage profile).1
          (s.exhaustedMessage profile).2⟩) := by
    intro any
    -- no precondition looks at the catalog
    have hany : (ofInput profile any sql identifier).missed? = none := hmet
    rw [records, hany]
    exact congrArg Except.ok (List.map_congr_left fun s _ => record_exhausted _ hbudget s)
  refine ⟨hrecords catalog, fun s _ => s.exhaustedMessage_key profile, fun other hsame => ?_⟩
  rw [hrecords other, hrecords catalog]
  refine congrArg Except.ok (List.map_congr_left fun s _ => ?_)
  obtain ⟨hrejected, hconverted⟩ := s.exhaustedMessage_key profile
  rw [Catalog.resolve, Catalog.resolve, hsame _ hrejected hconverted]

/-- A merge and a delete in order, a delete and an update without a `where`, and a statement of no
known kind. -/
theorem records_exhausted_every_kind :
    let batch := "merge into s.t using (select a from s.u) on (b = c) when matched then delete;" ++
      "delete from s.t where a = 1;delete from s.t;update s.t set a;drop s.t;"
    (ofInput { Profile.standard with budget := ⟨0⟩ } {} batch.toList "abc".toList).records =
      .ok [
        ⟨"merge into s.t using (select a from s.u) on (b = c) when matched then delete;".toList, true,
          "Statement took too long to validate and was not converted.".toList⟩,
        ⟨"delete from s.t where a = 1;".toList, true,
          "Statement took too long to validate and was not converted.".toList⟩,
        ⟨"delete from s.t;".toList, true, ("Delete statement is invalid. " ++
          "Expected: DELETE FROM <schema>.<table> [alias] WHERE ...").toList⟩,
        ⟨"update s.t set a;".toList, true, ("Update SET clause is invalid. " ++
          "Expected: SET <field> = <value>[, ...] WHERE ...").toList⟩,
        ⟨"drop s.t;".toList, true, ("Unsupported statement 'drop'. " ++
          "Only UPDATE, DELETE and MERGE can be converted.").toList⟩] := by
  intro batch
  have hrecords := (records_exhausted { matchTimeoutMs := 0 }
    { Profile.standard with budget := ⟨0⟩ } {} batch.toList "abc".toList rfl rfl
    (by decide +kernel)).1
  rw [hrecords]
  refine congrArg Except.ok ?_
  decide +kernel

end Job

end MutationPreview
