import MutationPreview.Proofs.Clause.Spacing
import MutationPreview.Proofs.Clause.Unclosed
import MutationPreview.Proofs.Predicate.Shape
import MutationPreview.Proofs.Preview

/-!
# What acceptance says about a statement

A delete or an update is converted only if all clauses that its check meets are accepted. Each of
their predicates has a form then. Two things do not follow. A clause of nothing but blanks and
terminators has no predicate to be checked, and a connective that is not spaced as a boundary wants
it stays inside a predicate.

Main statement: the clauses of a converted statement have a form for every predicate, have a
predicate exactly when something solid stands between their connectives, and hide no connective in
a predicate exactly when their connectives are spaced (`Job.clauses_covered`).
-/

namespace MutationPreview

open Pattern PredicateForm

/-! ## Solid characters -/

/-- Whether a character is neither a blank nor the terminator. -/
def isSolid (c : Char) : Bool := !isBlank c && c != ';'

theorem isSolid_eq_false_iff {c : Char} :
    isSolid c = false ↔ isBlank c = true ∨ c = ';' := by
  simp [isSolid, or_iff_not_imp_left]

theorem isWord_of_not_isSolid {c : Char} (h : isSolid c = false) : isWord c = false := by
  rcases isSolid_eq_false_iff.mp h with hblank | rfl
  · exact isWord_of_isBlank hblank
  · decide

theorem endsToken_of_not_isSolid {c : Char} (h : isSolid c = false) : Ledger.EndsToken c := by
  rcases isSolid_eq_false_iff.mp h with hblank | rfl
  · exact Ledger.endsToken_of_isBlank hblank
  · exact ⟨by decide, by decide⟩

theorem isSolid_of_sign {c : Char} (h : isSign c = true) : isSolid c = true := by
  simp only [isSign, Bool.or_eq_true, beq_iff_eq] at h
  rcases h with (rfl | rfl) | rfl <;> decide

theorem exists_solid_nullWords {w : Text} (h : nullWords.Spells w) : ∃ c ∈ w, isSolid c = true := by
  obtain ⟨b, w, rfl, -, h⟩ := (spells_chain_cons rfl rfl).mp h
  obtain ⟨k, w, rfl, hk, -⟩ := (spells_chain_cons rfl rfl).mp h
  -- the first letter of `is` has no other forms than its two cases
  have hk : (chain [char (sameLetter 'i'), char (sameLetter 's')]).Spells k := hk
  obtain ⟨v, k, rfl, ⟨c, hc, rfl⟩, -⟩ := reads_chain_cons.mp hk
  obtain ⟨hascii, hupper⟩ := toUpper_of_sameLetter (by decide) hc
  have hall : ∀ n < 128, (Char.ofNat n).toUpper = 'i'.toUpper → isSolid (Char.ofNat n) = true := by
    decide
  have hsolid := hall c.toNat hascii
  rw [Char.ofNat_toNat] at hsolid
  exact ⟨c, by simp, hsolid hupper⟩

/-- A call has a quote. -/
theorem PredicateForm.HasCall.quote_mem {name args more : List Pattern} {t : Text}
    (h : HasCall name args more t) : '\'' ∈ t := by
  obtain ⟨x, w, e, s, p, r, m, y, rfl, -⟩ := h
  simp

/-- No form is all blanks and terminators. -/
theorem exists_solid_of_accepts {form : PredicateForm} {t : Text} (h : form.accepts t = true) :
    ∃ c ∈ t, isSolid c = true := by
  cases form with
  | regexpLike => exact ⟨'\'', (accepts_regexpLike_iff.mp h).quote_mem, by decide⟩
  | regexpExtract => exact ⟨'\'', (accepts_regexpExtract_iff.mp h).quote_mem, by decide⟩
  | regexpPosition => exact ⟨'\'', (accepts_regexpPosition_iff.mp h).quote_mem, by decide⟩
  | comparison =>
    obtain ⟨x, c, y, rfl, -, hc, -⟩ := accepts_comparison_iff.mp h
    exact ⟨c, by simp, isSolid_of_sign hc⟩
  | nullTest =>
    obtain ⟨x, w, y, rfl, -, hw⟩ := accepts_nullTest_iff.mp h
    obtain ⟨c, hc, hsolid⟩ := exists_solid_nullWords hw
    exact ⟨c, by simp [hc], hsolid⟩
  | like =>
    obtain ⟨x, w, c, y, rfl, -⟩ := accepts_like_iff.mp h
    exact ⟨'\'', by simp, by decide⟩
  | inList =>
    obtain ⟨x, w, a, y, rfl, -⟩ := accepts_inList_iff.mp h
    exact ⟨')', by simp, by decide⟩

/-! ## Connectives in padded texts -/

theorem no_connective_of_forall {t : Text} (h : ∀ c ∈ t, isWord c = false) :
    connectiveWord.hasMatch t = false := by
  rw [Bool.eq_false_iff]
  intro hmatch
  obtain ⟨x, k, y, rfl, hreads⟩ := hasMatch_iff.mp hmatch
  obtain ⟨hk, -, -⟩ := reads_connectiveWord_iff.mp hreads
  obtain ⟨c, k, rfl⟩ := List.exists_cons_of_ne_nil (connective_ne_nil hk)
  have hword := isWord_of_mem_connective hk (c := c) List.mem_cons_self
  rw [h c (by simp)] at hword
  simp at hword

theorem hasMatch_connective_cons {c : Char} (hc : isWord c = false) (t : Text) :
    connectiveWord.hasMatch (c :: t) = connectiveWord.hasMatch t := by
  rw [Bool.eq_iff_iff, hasMatch_iff, hasMatch_iff]
  constructor
  · rintro ⟨x, k, y, hsplit, hreads⟩
    obtain ⟨hk, hbefore, hafter⟩ := reads_connectiveWord_iff.mp hreads
    cases x with
    | nil =>
      obtain ⟨d, k, rfl⟩ := List.exists_cons_of_ne_nil (connective_ne_nil hk)
      have hword := isWord_of_mem_connective hk (c := d) List.mem_cons_self
      simp only [List.nil_append, List.cons_append, List.cons.injEq] at hsplit
      rw [← hsplit.1, hc] at hword
      simp at hword
    | cons d x =>
      simp only [List.cons_append, List.cons.injEq] at hsplit
      refine ⟨x, k, y, hsplit.2, reads_connectiveWord_iff.mpr ⟨hk, ?_, hafter⟩⟩
      cases hx : x.reverse with
      | nil => rfl
      | cons e x' => simpa [hx] using hbefore
  · rintro ⟨x, k, y, rfl, hreads⟩
    obtain ⟨hk, hbefore, hafter⟩ := reads_connectiveWord_iff.mp hreads
    refine ⟨c :: x, k, y, rfl, reads_connectiveWord_iff.mpr ⟨hk, ?_, hafter⟩⟩
    rw [List.reverse_cons]
    exact any_head?_append hbefore fun _ => by simpa using hc

theorem hasMatch_connective_concat {c : Char} (hc : isWord c = false) (t : Text) :
    connectiveWord.hasMatch (t ++ [c]) = connectiveWord.hasMatch t := by
  rw [Bool.eq_iff_iff, hasMatch_iff, hasMatch_iff]
  constructor
  · rintro ⟨x, k, y, hsplit, hreads⟩
    obtain ⟨hk, hbefore, hafter⟩ := reads_connectiveWord_iff.mp hreads
    have hlast : ∀ {a b : Text} {d : Char}, t ++ [c] = a ++ b.concat d → c = d ∧ t = a ++ b := by
      intro a b d heq
      rw [List.concat_eq_append, ← List.append_assoc] at heq
      obtain ⟨ht, hcd⟩ := List.append_inj' heq rfl
      exact ⟨(List.cons.inj hcd).1, ht⟩
    rcases List.eq_nil_or_concat y with rfl | ⟨y, d, rfl⟩
    · rcases List.eq_nil_or_concat k with rfl | ⟨k, d, rfl⟩
      · exact absurd rfl (connective_ne_nil hk)
      · rw [List.append_nil] at hsplit
        have hword := isWord_of_mem_connective hk (c := d) (by simp)
        rw [← (hlast hsplit).1, hc] at hword
        simp at hword
    · refine ⟨x, k, y, (hlast hsplit).2, reads_connectiveWord_iff.mpr ⟨hk, hbefore, ?_⟩⟩
      cases y with
      | nil => rfl
      | cons e y => simpa using hafter
  · rintro ⟨x, k, y, rfl, hreads⟩
    obtain ⟨hk, hbefore, hafter⟩ := reads_connectiveWord_iff.mp hreads
    refine ⟨x, k, y ++ [c], by simp, reads_connectiveWord_iff.mpr ⟨hk, hbefore, ?_⟩⟩
    exact any_head?_append hafter fun _ => by simpa using hc

/-- Around a text, characters that are no part of words neither make nor break a connective. -/
theorem hasMatch_connective_pad {front back : Text} (hfront : ∀ c ∈ front, isWord c = false)
    (hback : ∀ c ∈ back, isWord c = false) (t : Text) :
    connectiveWord.hasMatch (front ++ t ++ back) = connectiveWord.hasMatch t := by
  induction front with
  | nil =>
    induction back generalizing t with
    | nil => simp
    | cons c back ih =>
      have hrest := ih (fun d hd => hback d (List.mem_cons_of_mem _ hd)) (t ++ [c])
      rw [hasMatch_connective_concat (hback c List.mem_cons_self)] at hrest
      simpa using hrest
  | cons c front ih =>
    rw [List.cons_append, List.cons_append, hasMatch_connective_cons (hfront c List.mem_cons_self)]
    exact ih fun d hd => hfront d (List.mem_cons_of_mem _ hd)

/-! ## Fragments and predicates -/

/-- The texts between the matches of a pattern are stretches of the text. -/
theorem stretch_of_mem_gaps {α : Type} (cover : α → Text) {segs : List (Segment α)} {g : Text}
    (h : g ∈ Segment.gaps segs) : g <:+: Segment.join cover segs := by
  have hlater : ∀ segs : List (Segment α), ∀ g ∈ Segment.laterGaps segs,
      g <:+: Segment.join cover segs := by
    intro segs
    induction segs with
    | nil => simp [Segment.laterGaps]
    | cons s segs ih =>
      intro g hg
      cases s with
      | plain c => exact (ih g hg).trans (List.suffix_cons _ _).isInfix
      | span a =>
        refine List.IsInfix.trans ?_ (List.suffix_append (cover a) _).isInfix
        rcases List.mem_cons.mp hg with rfl | hg
        · exact (Segment.firstGap_prefix_join cover segs).isInfix
        · exact ih g hg
  rw [Segment.gaps_eq] at h
  rcases List.mem_cons.mp h with rfl | h
  · exact (Segment.firstGap_prefix_join cover segs).isInfix
  · exact hlater segs g h

theorem stretch_of_mem_split {clause fragment : Text}
    (h : fragment ∈ Grammar.boundary.split clause) : fragment <:+: clause := by
  have hgap := stretch_of_mem_gaps Match.text h
  rw [join_segments consumes_boundary] at hgap
  exact hgap

theorem not_isSolid_of_isClauseEdge {c : Char} (h : isClauseEdge c = true) : isSolid c = false := by
  simp only [isClauseEdge, Bool.or_eq_true, beq_iff_eq] at h
  rcases h with rfl | rfl <;> decide

/-- Trimming takes off no solid character. -/
theorem mem_trim_of_isSolid {p : Char → Bool} (hp : ∀ c, p c = true → isSolid c = false) {t : Text}
    {c : Char} (hc : c ∈ t) (hsolid : isSolid c = true) : c ∈ Text.trim p t := by
  obtain ⟨front, back, heq, hfront, hback⟩ := Text.exists_eq_trim p t
  rw [heq, List.mem_append, List.mem_append] at hc
  rcases hc with (hc | hc) | hc
  · rw [hp c (hfront c hc)] at hsolid
    simp at hsolid
  · exact hc
  · rw [hp c (hback c hc)] at hsolid
    simp at hsolid

/-- A fragment with a solid character is not empty. -/
theorem isEmptyFragment_of_isSolid {fragment : Text} {c : Char} (hc : c ∈ fragment)
    (hsolid : isSolid c = true) : isEmptyFragment fragment = false := by
  have hedge : ∀ c, (isClauseEdge c || c == '\t') = true → isSolid c = false := by
    intro c hc
    rw [Bool.or_eq_true, beq_iff_eq] at hc
    rcases hc with hc | rfl
    · exact not_isSolid_of_isClauseEdge hc
    · decide
  rw [isEmptyFragment, Text.isBlank_eq_false_iff]
  refine ⟨c, mem_trim_of_isSolid hedge hc hsolid, ?_⟩
  simp only [isSolid, Bool.and_eq_true, Bool.not_eq_true'] at hsolid
  exact hsolid.1

section Ledger

variable {l : Ledger} (hl : l.IsStandard)
  (hvalues : ∀ v ∈ l.values, ∃ content, '\'' ∉ content ∧ v = inQuotes content)

include hl

/-- A text without solid characters has no literal to put back. -/
theorem revert_of_not_isSolid {t : Text} (h : ∀ c ∈ t, isSolid c = false) : l.revert t = t := by
  have hfront := hl.revert_front (fun c hc => endsToken_of_not_isSolid (h c hc)) []
  rw [Ledger.revert_nil, List.append_nil] at hfront
  exact hfront

include hvalues

/-- A text with a solid character is not blank when its literals are put back. -/
theorem isBlank_revert_of_isSolid {t : Text} {c : Char} (hc : c ∈ t) (hsolid : isSolid c = true) :
    Text.isBlank (l.revert t) = false := by
  obtain ⟨segs, hspans, rfl, hrevert, -⟩ := Ledger.exists_hidden hl.lead_ne_nil t
  rw [hrevert, Text.isBlank_eq_false_iff]
  simp only [isSolid, Bool.and_eq_true, Bool.not_eq_true'] at hsolid
  rcases Segment.mem_join.mp hc with hc | ⟨i, hi, -⟩
  · exact ⟨c, Segment.mem_join.mpr (Or.inl hc), hsolid.1⟩
  · obtain ⟨content, -, hvalue⟩ := hvalues _ (Ledger.valueAt_mem (hspans i hi))
    refine ⟨'\'', Segment.mem_join.mpr (Or.inr ⟨i, hi, ?_⟩), by decide⟩
    rw [hvalue]
    exact List.mem_cons_self

/-- An accepted clause has a predicate exactly when one of its fragments has a solid character. -/
theorem predicatesOf_ne_nil_iff {clause : Text}
    (hforms : ∀ p ∈ predicatesOf l clause, ∃ form : PredicateForm, form.accepts p = true) :
    predicatesOf l clause ≠ [] ↔
      ∃ fragment ∈ Grammar.boundary.split clause, ∃ c ∈ fragment, isSolid c = true := by
  constructor
  · intro hne
    obtain ⟨p, hp⟩ := List.exists_mem_of_ne_nil _ hne
    obtain ⟨fragment, hmem, -, rfl, -⟩ := mem_predicatesOf.mp hp
    refine ⟨fragment, hmem, ?_⟩
    by_contra hnone
    have hnot : ∀ c ∈ Text.trim isClauseEdge fragment, isSolid c = false := by
      intro c hc
      obtain ⟨front, back, heq, -⟩ := Text.exists_eq_trim isClauseEdge fragment
      rw [Bool.eq_false_iff]
      intro hsolid
      exact hnone ⟨c, by rw [heq]; simp [hc], hsolid⟩
    obtain ⟨form, hform⟩ := hforms _ hp
    rw [revert_of_not_isSolid hl hnot] at hform
    obtain ⟨c, hc, hsolid⟩ := exists_solid_of_accepts hform
    rw [hnot c hc] at hsolid
    simp at hsolid
  · rintro ⟨fragment, hmem, c, hc, hsolid⟩
    have hcore := mem_trim_of_isSolid (fun c => not_isSolid_of_isClauseEdge) hc hsolid
    exact List.ne_nil_of_mem (mem_predicatesOf.mpr ⟨fragment, hmem,
      isEmptyFragment_of_isSolid hc hsolid, rfl,
      isBlank_revert_of_isSolid hl hvalues hcore hsolid⟩)

/-- A predicate has a connective outside its literals exactly when its fragment does. -/
theorem hasMatch_hideLiterals_trim {fragment : Text}
    (hlast : Ledger.QuoteLast l.format.lead fragment) :
    connectiveWord.hasMatch (hideLiterals (l.revert (Text.trim isClauseEdge fragment))) =
      connectiveWord.hasMatch (l.hidden.revert fragment) := by
  obtain ⟨front, back, heq, hfront, hback⟩ := Text.exists_eq_trim isClauseEdge fragment
  have hcore : Ledger.QuoteLast l.format.lead (Text.trim isClauseEdge fragment) :=
    hlast.stretch ⟨front, back, heq.symm⟩
  have hpad : l.hidden.revert fragment =
      front ++ l.hidden.revert (Text.trim isClauseEdge fragment) ++ back := by
    have hends := hl.hidden.revert_back (fun c hc => Ledger.endsToken_of_isClauseEdge (hback c hc))
      (front ++ Text.trim isClauseEdge fragment)
    rw [← heq, hl.hidden.revert_front fun c hc =>
      Ledger.endsToken_of_isClauseEdge (hfront c hc)] at hends
    exact hends
  have hword : ∀ {u : Text}, (∀ c ∈ u, isClauseEdge c = true) → ∀ c ∈ u, isWord c = false :=
    fun h c hc => isWord_of_not_isSolid (not_isSolid_of_isClauseEdge (h c hc))
  rw [hl.hideLiterals_revert hvalues hcore, hpad,
    hasMatch_connective_pad (hword hfront) (hword hback)]

/-- No predicate of a clause has a connective outside its literals exactly when the connectives of
the clause are spaced. -/
theorem predicatesOf_apart_iff {clause : Text} (hlast : Ledger.QuoteLast l.format.lead clause) :
    (∀ p ∈ predicatesOf l clause, connectiveWord.hasMatch (hideLiterals p) = false) ↔
      IsSpaced (hideLiterals (l.revert clause)) := by
  rw [hl.hideLiterals_revert hvalues hlast, ← split_no_connective_iff, hl.keepsWords.split_eq]
  have hsame : ∀ fragment ∈ Grammar.boundary.split clause,
      connectiveWord.hasMatch (hideLiterals (l.revert (Text.trim isClauseEdge fragment))) =
        connectiveWord.hasMatch (l.hidden.revert fragment) := fun fragment hmem =>
    hasMatch_hideLiterals_trim hl hvalues (hlast.stretch (stretch_of_mem_split hmem))
  constructor
  · intro hapart g hg
    obtain ⟨fragment, hmem, rfl⟩ := List.mem_map.mp hg
    by_cases hsolid : ∃ c ∈ fragment, isSolid c = true
    · obtain ⟨c, hc, hsolid⟩ := hsolid
      have hcore := mem_trim_of_isSolid (fun c => not_isSolid_of_isClauseEdge) hc hsolid
      rw [← hsame fragment hmem]
      exact hapart _ (mem_predicatesOf.mpr ⟨fragment, hmem, isEmptyFragment_of_isSolid hc hsolid,
        rfl, isBlank_revert_of_isSolid hl hvalues hcore hsolid⟩)
    · -- a fragment that may have been dropped has no words at all
      have hnone : ∀ c ∈ fragment, isSolid c = false := fun c hc =>
        Bool.eq_false_iff.mpr fun h => hsolid ⟨c, hc, h⟩
      rw [revert_of_not_isSolid hl.hidden hnone]
      exact no_connective_of_forall fun c hc => isWord_of_not_isSolid (hnone c hc)
  · intro hspaced p hp
    obtain ⟨fragment, hmem, -, rfl, -⟩ := mem_predicatesOf.mp hp
    rw [hsame fragment hmem]
    exact hspaced _ (List.mem_map_of_mem hmem)

end Ledger

/-! ## Converted statements -/

namespace Job

variable {sql identifier : Text} {s : Statement}

/-- All clauses that the check of a converted delete or update meets are accepted. -/
theorem clauseFaults_of_meets (hkind : s.kind = .delete ∨ s.kind = .update)
    (hrecord : ((Job.standard sql identifier).record s).isError = false) {clause : Text}
    (hmeets : (WorkItem.span s.parameterText false).Meets Profile.standard.resolvedMark clause) :
    clauseFaults Profile.standard.budget (Held.standard s.sql).literals clause = [] := by
  obtain ⟨m, report, query, hconverts, -⟩ := exists_converts (preview_of_record hrecord)
  have hhead : m.head Profile.standard.budget (Held.standard s.sql) = .ok report := hconverts.head
  have hparameters : report.parameters = s.parameters := by
    have hmutation := hconverts.mutation
    rcases hkind with hkind | hkind <;> rw [Statement.mutation, hkind] at hmutation <;>
      cases hmutation <;> cases hhead <;> rw [Statement.parameters, hkind] <;> rfl
  have haccepted : parameterFaults Profile.standard (Held.standard s.sql) report.parameters =
      .ok [] := hconverts.accepted
  rw [hparameters, parameterFaults_standard, Except.ok.injEq, workOff_eq_nil_iff] at haccepted
  exact haccepted _ (List.mem_singleton_self _) clause hmeets

/-- In each clause of a converted delete or update, at every depth of subqueries, every predicate
has a form, and no predicate holds a connective outside its literals exactly when the connectives
of the clause are spaced. Its own clause has a predicate exactly when something solid stands between
the connectives. -/
theorem clauses_covered (hkind : s.kind = .delete ∨ s.kind = .update)
    (hrecord : ((Job.standard sql identifier).record s).isError = false) :
    (∀ clause, (WorkItem.span s.parameterText false).Meets Profile.standard.resolvedMark clause →
      (∀ p ∈ predicatesOf (Held.standard s.sql).literals clause,
        ∃ form : PredicateForm, form.accepts p = true) ∧
      ((∀ p ∈ predicatesOf (Held.standard s.sql).literals clause,
          connectiveWord.hasMatch (hideLiterals p) = false) ↔
        IsSpaced (hideLiterals ((Held.standard s.sql).literals.revert clause)))) ∧
    (predicatesOf (Held.standard s.sql).literals
        (clauseOf Profile.standard.resolvedMark s.parameterText) ≠ [] ↔
      ∃ fragment ∈ Grammar.boundary.split (clauseOf Profile.standard.resolvedMark s.parameterText),
        ∃ c ∈ fragment, isSolid c = true) := by
  have hl := (Held.isStandard_standard s.sql).literals
  have hvalues := Held.quoted_literals s.sql
  have hforms : ∀ clause,
      (WorkItem.span s.parameterText false).Meets Profile.standard.resolvedMark clause →
      ∀ p ∈ predicatesOf (Held.standard s.sql).literals clause,
        ∃ form : PredicateForm, form.accepts p = true := fun clause hmeets =>
    (clauseFaults_eq_nil_iff.mp (clauseFaults_of_meets hkind hrecord hmeets)).2
  constructor
  · intro clause hmeets
    exact ⟨hforms clause hmeets, predicatesOf_apart_iff hl hvalues (s.quoteLast_of_meets hmeets)⟩
  · exact predicatesOf_ne_nil_iff hl hvalues
      (hforms _ (.own _))

/-- A delete with two predicates, one of which has a connective in its literal. -/
theorem clauses_covered_two_predicates :
    let s := Statement.ofText "delete from s.t where a = 1 and b = 'x and y';".toList
    ((Job.standard s.sql "abc".toList).record s).isError = false ∧
      predicatesOf (Held.standard s.sql).literals
        (clauseOf Profile.standard.resolvedMark s.parameterText) ≠ [] := by
  have hrecord : ((Job.standard "delete from s.t where a = 1 and b = 'x and y';".toList
      "abc".toList).record
        (Statement.ofText "delete from s.t where a = 1 and b = 'x and y';".toList)).isError =
      false := by
    rw [String.toList_ofList]
    decide +kernel
  exact ⟨hrecord, (clauses_covered (Or.inl (by decide)) hrecord).2.mpr (by decide)⟩

/-- A connective with a bracket behind it stays inside an accepted predicate, and a clause without
predicates is accepted. -/
theorem connective_in_accepted_predicate :
    (let s := Statement.ofText "delete from s.t where a = 1 and(b ~~ 2);".toList
     (Job.standard s.sql "abc".toList).statements = [s] ∧ s.kind = .delete ∧
      ((Job.standard s.sql "abc".toList).record s).isError = false ∧
      ∃ p ∈ predicatesOf (Held.standard s.sql).literals
          (clauseOf Profile.standard.resolvedMark s.parameterText),
        connectiveWord.hasMatch (hideLiterals p) = true) ∧
    (let s := Statement.ofText "delete from s.t where ;".toList
     (Job.standard s.sql "abc".toList).statements = [s] ∧ s.kind = .delete ∧
      ((Job.standard s.sql "abc".toList).record s).isError = false ∧
      predicatesOf (Held.standard s.sql).literals
        (clauseOf Profile.standard.resolvedMark s.parameterText) = []) := by
  repeat rw [String.toList_ofList]
  decide +kernel

end Job

end MutationPreview
