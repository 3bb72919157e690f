import MutationPreview.Proofs.Batch.Cuts
import MutationPreview.Proofs.Standard
import MutationPreview.Proofs.Text.Basic

/-!
# Batches in a row

A text whose quotes are all closed does not change how the text behind it is cut: the pieces of
the two stand side by side, except that what the first leaves behind its last terminator goes in
front of the first piece of the second (`cutBatch_append`). If that is noise, it is trimmed away
again, and the statements of the two batches are those of each on its own (`statementsOf_append`).

Main statements: two such batches in a row are converted to the records of the first and then those
of the second (`Job.records_append`). A batch that meets the preconditions gives no piece at all, and
no record, when its terminators all lie between paired quotes, and only then
(`Job.pieces_ne_nil_iff`).
-/

namespace MutationPreview

/-! ## Pieces of two texts -/

namespace Pieces

/-- Puts a text in front of the first piece, or of the rest when there is no piece. -/
def pushText (u : Text) (p : Pieces) : Pieces := u.foldr push p

/-- The pieces of two texts in a row: what the first leaves over goes in front of the second. -/
def append (p q : Pieces) : Pieces :=
  ⟨p.pieces ++ (q.pushText p.rest).pieces, (q.pushText p.rest).rest⟩

@[simp] theorem nil_append (q : Pieces) : append ⟨[], []⟩ q = q := rfl

theorem push_append (c : Char) (p q : Pieces) : (p.push c).append q = (p.append q).push c := by
  obtain ⟨_ | ⟨piece, pieces⟩, rest⟩ := p
  · rfl
  · rfl

theorem cons_append (piece : Text) (p q : Pieces) :
    append ⟨piece :: p.pieces, p.rest⟩ q = ⟨piece :: (p.append q).pieces, (p.append q).rest⟩ := rfl

/-- A text in front of pieces changes the first one, if there is one. -/
theorem pushText_pieces (u : Text) (p : Pieces) :
    (p.pushText u).pieces = p.pieces.modifyHead (u ++ ·) := by
  induction u with
  | nil => cases h : p.pieces <;> simp [pushText, h]
  | cons c u ih =>
    have hpush : ∀ q : Pieces, (q.push c).pieces = q.pieces.modifyHead (c :: ·) := by
      rintro ⟨_ | ⟨piece, pieces⟩, rest⟩ <;> rfl
    rw [pushText, List.foldr_cons, hpush, ← pushText, ih, List.modifyHead_modifyHead]
    rfl

end Pieces

/-- Behind a text whose quotes are all closed, a text is cut as if it stood alone. -/
theorem cutFrom_append {x : Char} {quoted : Bool} {a : Text}
    (h : a.count '\'' % 2 = if quoted then 1 else 0) (b : Text) :
    cutFrom x quoted (a ++ b) = (cutFrom x quoted a).append (cutBatch x b) := by
  induction a generalizing quoted with
  | nil =>
    cases quoted with
    | true => simp at h
    | false => rfl
  | cons c a ih =>
    have hbehind : quotedBehind quoted c (a ++ b) = quotedBehind quoted c a ∧
        a.count '\'' % 2 = if quotedBehind quoted c a then 1 else 0 := by
      rw [List.count_cons] at h
      cases quoted with
      | true =>
        refine ⟨rfl, ?_⟩
        by_cases hc : c = '\''
        · simp only [hc, quotedBehind, beq_self_eq_true, if_true, bne_self_eq_false,
            Bool.false_eq_true, if_false] at h ⊢
          omega
        · simpa [quotedBehind, hc] using h
      | false =>
        by_cases hc : c = '\''
        · -- an odd number of quotes is left, so one of them closes this one
          have hodd : a.count '\'' % 2 = 1 := by
            simp only [hc, beq_self_eq_true, if_true, Bool.false_eq_true, if_false] at h
            omega
          have hmem : '\'' ∈ a := List.count_pos_iff.mp (by omega)
          simp [quotedBehind, hc, hmem, hodd]
        · have hbeq : (c == '\'') = false := beq_eq_false_iff_ne.mpr hc
          simp only [hbeq, Bool.false_eq_true, if_false, Nat.add_zero] at h
          simp [quotedBehind, hbeq, h]
    rw [List.cons_append, cutFrom_cons, cutFrom_cons, hbehind.1]
    dsimp only
    rw [ih hbehind.2]
    split
    · rw [Pieces.cons_append]
    · rw [Pieces.push_append]

theorem cutBatch_append {x : Char} {a : Text} (h : a.count '\'' % 2 = 0) (b : Text) :
    cutBatch x (a ++ b) = (cutBatch x a).append (cutBatch x b) :=
  cutFrom_append (by simpa using h) b

/-! ## Statements of two batches -/

/-- Noise in front of a piece does not change its statement. -/
theorem Statement.ofPiece?_append {x : Char} {noise : Text} (h : ∀ c ∈ noise, isNoise c = true)
    (piece : Text) : Statement.ofPiece? x (noise ++ piece) = Statement.ofPiece? x piece := by
  have htrim : Text.trim isNoise (noise ++ piece) = Text.trim isNoise piece := by
    rw [Text.trim, Text.trim, List.dropWhile_append_of_pos h]
  rw [Statement.ofPiece?, Statement.ofPiece?, htrim]

/-- The statements of two batches in a row are those of each, if the first has all quotes closed
and leaves nothing but noise behind its last terminator. -/
theorem statementsOf_append {x : Char} {a : Text} (hquotes : a.count '\'' % 2 = 0)
    (hrest : ∀ c ∈ (cutBatch x a).rest, isNoise c = true) (b : Text) :
    statementsOf x (a ++ b) = statementsOf x a ++ statementsOf x b := by
  rw [statementsOf, cutBatch_append hquotes, Pieces.append, Pieces.pushText_pieces,
    List.filterMap_append, statementsOf, statementsOf]
  congr 1
  cases (cutBatch x b).pieces with
  | nil => rfl
  | cons piece pieces =>
    rw [List.modifyHead_cons, List.filterMap_cons, List.filterMap_cons,
      Statement.ofPiece?_append hrest]

/-! ## Records of two batches -/

namespace Job

variable {profile : Profile} {catalog : Catalog} {a b identifier : Text}

theorem missed?_eq_none_iff {job : Job} :
    job.missed? = none ↔ Text.isBlank job.sql = false ∧ job.identifier ≠ [] ∧
      (∀ c ∈ job.sql, c ∉ job.profile.disallowedQuotes) ∧ job.profile.terminator ∈ job.sql := by
  rw [missed?]
  grind

theorem records_eq_ok_iff {job : Job} {records : List Record} :
    job.records = .ok records ↔ job.missed? = none ∧ job.statements.map job.record = records := by
  rw [Job.records]
  cases job.missed? with
  | none => simp
  | some cause => simp

/-- What a record says does not depend on the rest of the batch. -/
theorem record_ofInput (a b : Text) (s : Statement) :
    (Job.ofInput profile catalog a identifier).record s =
      (Job.ofInput profile catalog b identifier).record s := rfl

/-- Two batches in a row are converted to the records of the first and then those of the second, if
the first has all quotes closed and leaves nothing but noise behind its last terminator. -/
theorem records_append {ra rb : List Record} (hquotes : a.count '\'' % 2 = 0)
    (hrest : ∀ c ∈ (cutBatch profile.terminator a).rest, isNoise c = true ∧ c ≠ '\'')
    (ha : (Job.ofInput profile catalog a identifier).records = .ok ra)
    (hb : (Job.ofInput profile catalog b identifier).records = .ok rb) :
    (Job.ofInput profile catalog (a ++ b) identifier).records = .ok (ra ++ rb) := by
  rw [records_eq_ok_iff, missed?_eq_none_iff] at ha hb ⊢
  obtain ⟨⟨hsql, hid, hallowed, hterminator⟩, rfl⟩ := ha
  obtain ⟨⟨-, -, hallowed', -⟩, rfl⟩ := hb
  refine ⟨⟨?_, hid, ?_, ?_⟩, ?_⟩
  · have hblank : Text.isBlank a = false := hsql
    rw [Text.isBlank] at hblank
    simp only [Job.ofInput, Text.isBlank, List.all_append, hblank, Bool.false_and]
  · intro c hc
    rcases List.mem_append.mp hc with hc | hc
    · exact hallowed c hc
    · exact hallowed' c hc
  · exact List.mem_append_left _ hterminator
  · have hstatements : (Job.ofInput profile catalog (a ++ b) identifier).statements =
        (Job.ofInput profile catalog a identifier).statements ++
          (Job.ofInput profile catalog b identifier).statements :=
      statementsOf_append hquotes (fun c hc => (hrest c hc).1) b
    rw [hstatements, List.map_append]
    exact congrArg₂ (· ++ ·) (List.map_congr_left fun s _ => record_ofInput _ _ s)
      (List.map_congr_left fun s _ => record_ofInput _ _ s)

/-- A batch with a terminator in a literal and noise at its end, and another batch. -/
theorem records_append_two_batches :
    let a := "delete from s.t where a = 'x;y';\n.\"".toList
    let b := " update s.u set b = 1 where c = 2;".toList
    a.count '\'' % 2 = 0 ∧
      (∀ c ∈ (cutBatch Profile.standard.terminator a).rest, isNoise c = true ∧ c ≠ '\'') ∧
      (Job.standard (a ++ b) "abc".toList).records = .ok [
        ⟨"select *\nfrom s.t\nwhere a = 'x;y';".toList, false,
          "Delete statement converted successfully.".toList⟩,
        ⟨"select b\nfrom s.u\nwhere c = 2;".toList, false,
          "Update statement converted successfully.".toList⟩] := by
  have ha : (Job.standard "delete from s.t where a = 'x;y';\n.\"".toList "abc".toList).records =
      .ok [⟨"select *\nfrom s.t\nwhere a = 'x;y';".toList, false,
        "Delete statement converted successfully.".toList⟩] := by decide +kernel
  have hb : (Job.standard " update s.u set b = 1 where c = 2;".toList "abc".toList).records =
      .ok [⟨"select b\nfrom s.u\nwhere c = 2;".toList, false,
        "Update statement converted successfully.".toList⟩] := by decide +kernel
  exact ⟨by decide, by decide, records_append (by decide) (by decide) ha hb⟩

/-! ## Batches that are not cut -/

/-- The precondition looks for a terminator anywhere, and the cut for one outside quotes. A batch
that meets the preconditions has a piece exactly when a terminator lies outside all pairs of quotes;
if none does, all of the batch is left over and the conversion succeeds without a record. -/
theorem pieces_ne_nil_iff (sql identifier : Text)
    (h : (Job.standard sql identifier).missed? = none) :
    ((cutBatch ';' sql).pieces ≠ [] ↔ ∃ i, sql[i]? = some ';' ∧ ¬ BetweenPair sql i) ∧
      ((∀ i, sql[i]? = some ';' → BetweenPair sql i) →
        (cutBatch ';' sql).rest = sql ∧ (Job.standard sql identifier).records = .ok []) := by
  have hends := endAtTerminators_cutBatch (x := ';') (by decide) sql
  constructor
  · rw [ne_eq, hends.pieces_eq_nil_iff]
    push Not
    rfl
  · intro hall
    have hpieces := hends.pieces_eq_nil_iff.mpr hall
    have hrest := hends.whole
    rw [hpieces, List.flatten_nil, List.nil_append] at hrest
    have hstatements : (Job.standard sql identifier).statements = [] := by
      change (cutBatch ';' sql).pieces.filterMap _ = []
      rw [hpieces, List.filterMap_nil]
    exact ⟨hrest, records_eq_ok_iff.mpr ⟨h, by rw [hstatements, List.map_nil]⟩⟩

/-- A batch with one terminator in a literal and one behind it. -/
theorem pieces_ne_nil_behind_literal :
    let sql := "delete from s.t where a = 'x;y';".toList
    (Job.standard sql "abc".toList).missed? = none ∧ (cutBatch ';' sql).pieces ≠ [] :=
  ⟨by decide, (pieces_ne_nil_iff _ "abc".toList (by decide)).1.mpr
    ⟨31, by decide, by
      rw [betweenPair_iff (by decide)]
      decide⟩⟩

/-- The only terminator lies in a literal: the batch is not refused, and its statement is dropped. -/
theorem statement_dropped_without_refusal :
    let job := Job.standard "delete from s.t where a = ';'".toList "abc".toList
    job.missed? = none ∧ (cutBatch ';' job.sql).pieces = [] ∧ job.records = .ok [] := by
  decide

end Job

end MutationPreview
