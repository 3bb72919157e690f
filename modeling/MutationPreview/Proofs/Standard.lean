import MutationPreview.Job

/-!
# The default configuration

The profile that the default configuration stands for, written out, and what converting with it
means.
-/

namespace MutationPreview

/-- The profile of the default configuration. -/
def Profile.standard : Profile where
  literalFormat := ⟨"STR_".toList, []⟩
  subqueryFormat := ⟨"(SUB_".toList, ")".toList⟩
  resolvedMark := "(SUB_RESOLVED)".toList
  errorMarker := "[PARAMERROR]".toList
  entityFunction := "toentityid".toList
  entityCall := Grammar.entityCall "toentityid".toList
  entityToken := Grammar.entityToken ":entityid".toList
  stagingMark := Grammar.stagingMark "tmp_".toList
  terminator := ';'
  disallowedQuotes := ['’']
  budget := ⟨250⟩

theorem Config.profile_default : ({} : Config).profile = .ok Profile.standard := rfl

theorem Config.catalog_default : ({} : Config).catalog = .ok { overrides := [] } := rfl

/-- The job of a batch under the default configuration. -/
def Job.standard (sql identifier : Text) : Job :=
  Job.ofInput Profile.standard { overrides := [] } sql identifier

/-- The held form of a text under the default configuration. -/
def Held.standard (raw : Text) : Held :=
  Held.ofText Profile.standard.literalFormat Profile.standard.subqueryFormat raw

/-- Converting with the default configuration gives the records of the standard job. -/
theorem convert_eq (sql identifier : String) :
    convert sql identifier =
      match (Job.standard sql.toList identifier.toList).records with
      | .ok records => .ok records
      | .error cause => .error (.refused cause) := by
  rw [convert, convertWith, Config.profile_default, Config.catalog_default]
  rfl

end MutationPreview
