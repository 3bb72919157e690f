import MutationPreview.Proofs.Clause.Accepted
import MutationPreview.Proofs.Held.Hidden
import MutationPreview.Proofs.Pattern.Parts

/-!
# Quotes that nothing closes, in clauses

In a held statement a quote is left over only behind the last literal, so it comes after all tokens
of literals. This is kept on the way to the clauses: putting subqueries back, taking them out again
and cutting off what stands before a `where` moves nothing from before the quote to behind it.

Main statement: in every clause that the check of a delete or an update meets, a quote comes after
all tokens (`Statement.quoteLast_of_meets`).
-/

namespace MutationPreview

open Pattern

/-! ## The held text -/

/-- No token of a literal has a quote. -/
theorem Ledger.IsStandard.quote_notMem_token {l : Ledger} (h : l.IsStandard) (n : Nat) :
    '\'' ∉ l.format.token n := by
  rw [TokenFormat.mem_token, h.trail_eq]
  rintro (hlead | hdigit | hnil)
  · exact absurd (h.mem_lead hlead) (by decide)
  · exact absurd (Text.isDigit_of_mem_ofNat hdigit) (by decide)
  · simp at hnil

namespace Held

/-- With its literals held, a text has a quote behind all tokens at most. -/
theorem quoteLast_literals {raw t : Text}
    (hlit : Ledger.HoldSpansSpec Match.text
      ⟨Profile.standard.literalFormat.avoiding (joinLines raw), []⟩
      (Grammar.literal.segments (joinLines raw)) (Held.standard raw).literals t) :
    Ledger.QuoteLast (Held.standard raw).literals.format.lead t := by
  intro a b hsplit
  rw [hlit.text_eq] at hsplit
  have hstandard := (isStandard_standard raw).literals
  obtain ⟨A, B, hsegs, -, rfl⟩ :=
    Segment.split_join_char (fun m _ => hstandard.quote_notMem_token _) hsplit
  obtain ⟨rest, hquote, rfl, hsuffix⟩ := (paired_segments (joinLines raw)).unclosed_last hsegs
  rw [Segment.join_map_plain]
  refine ⟨hquote, ?_⟩
  intro hlead
  rw [hlit.continues.format] at hlead
  exact TokenFormat.avoiding_absent _ _ (hlead.trans hsuffix.isInfix)

/-- No token of a subquery has a letter of a connective. -/
theorem IsStandard.letter_notMem_token {h : Held} (hs : h.IsStandard) {c : Char}
    (hc : c ∈ connectiveLetters) (n : Nat) : c ∉ h.subqueries.format.token n := by
  obtain ⟨t, ht⟩ := hs.subqueries
  obtain ⟨k, hk⟩ := Profile.standard.subqueryFormat.exists_avoiding_lead t
  have hletters : ∀ c ∈ connectiveLetters, c ∉ "(SUB_".toList ∧ c ∉ ")".toList ∧
      c.isDigit = false := by decide
  obtain ⟨hlead, htrail, hdigit⟩ := hletters c hc
  rw [TokenFormat.mem_token, ht]
  rintro (hmem | hmem | hmem)
  · rw [hk, List.mem_append, List.mem_replicate] at hmem
    rcases hmem with hmem | ⟨-, rfl⟩
    · exact hlead hmem
    · exact absurd hc (by decide)
  · rw [Text.isDigit_of_mem_ofNat hmem] at hdigit
    simp at hdigit
  · exact htrail hmem

/-- Subqueries put back from a connective on leave an end of the text in which only literals are
held. -/
theorem suffix_of_connective {raw t x k y : Text}
    (hsub : Ledger.HoldSpansSpec Subquery.cover
      ⟨Profile.standard.subqueryFormat.avoiding t, []⟩ (Subquery.segments t)
      (Held.standard raw).subqueries (Held.standard raw).text)
    (hk : connective.Spells k) (hsplit : (Held.standard raw).text = x ++ (k ++ y)) :
    (Held.standard raw).subqueries.revert (k ++ y) <:+ t := by
  obtain ⟨c, k, rfl⟩ := List.exists_cons_of_ne_nil (connective_ne_nil hk)
  have hletter := mem_connectiveLetters hk (c := c) List.mem_cons_self
  rw [hsub.text_eq, List.cons_append] at hsplit
  have htoken : ∀ body ∈ Segment.spans (Subquery.segments t),
      c ∉ (Held.standard raw).subqueries.tokenOf (Subquery.cover body) :=
    fun _ _ => (isStandard_standard raw).letter_notMem_token hletter _
  obtain ⟨A, B, hsegs, -, hrest⟩ := Segment.split_join_char htoken hsplit
  have hrevert := revert_subqueries_from hsub hsegs
  rw [Segment.join_plain, ← hrest] at hrevert
  rw [List.cons_append, hrevert]
  refine ⟨Segment.join Subquery.cover A, ?_⟩
  rw [← Segment.join_append, ← hsegs, Subquery.join_segments]

end Held

/-! ## Clauses -/

section Clauses

variable {l : Ledger} {t : Text}

/-- Taking out subqueries keeps quotes behind all tokens. -/
theorem QuoteLast.clauseOf (hl : l.IsStandard) (h : Ledger.QuoteLast l.format.lead t) :
    Ledger.QuoteLast l.format.lead (clauseOf Profile.standard.resolvedMark t) := by
  intro a b hsplit
  obtain ⟨A, B, hsegs, -, rfl⟩ := Segment.split_join_char (fun _ _ => by decide) hsplit
  have htext : t = Segment.join Subquery.cover A ++ '\'' :: Segment.join Subquery.cover B := by
    rw [← Segment.join_plain, ← Segment.join_append, ← hsegs, Subquery.join_segments]
  obtain ⟨hquote, hlead⟩ := h _ _ htext
  constructor
  · rw [Segment.mem_join] at hquote ⊢
    rintro (hplain | ⟨body, -, hmark⟩)
    · exact hquote (Or.inl hplain)
    · exact absurd hmark (by decide)
  · rintro ⟨x, y, hxy⟩
    -- a lead neither starts nor ends like the mark, and the mark has not all its letters
    have hopen : '(' ∉ l.format.lead := fun hmem => absurd (hl.mem_lead hmem) (by decide)
    have hclose : ')' ∉ l.format.lead := fun hmem => absurd (hl.mem_lead hmem) (by decide)
    have hmark : ∀ body ∈ Segment.spans B, ∃ o inner c,
        Profile.standard.resolvedMark = o :: (inner ++ [c]) ∧ o ∉ l.format.lead ∧
          c ∉ l.format.lead :=
      fun _ _ => ⟨'(', "SUB_RESOLVED".toList, ')', rfl, hopen, hclose⟩
    rcases Segment.split_join hl.lead_ne_nil hmark hxy.symm with
      ⟨C, D, hB, -, -⟩ | ⟨C, body, D, o, u, v, c, -, hin, -, -⟩
    · apply hlead
      refine ⟨Segment.join Subquery.cover C, Segment.join Subquery.cover D, ?_⟩
      rw [hB, Segment.join_append, Segment.join_append, Segment.join_map_plain]
    · have hletter : 'T' ∈ Profile.standard.resolvedMark := by
        rw [hin]
        simp [hl.letter_mem_lead]
      exact absurd hletter (by decide)

/-- The body of a subquery is a stretch of the text. -/
theorem stretch_of_body {body : Text} (h : body ∈ Segment.spans (Subquery.segments t)) :
    body <:+: t := by
  have hcover := Segment.infix_join Subquery.cover h
  rw [Subquery.join_segments] at hcover
  exact List.IsInfix.trans ⟨['('], [')'], rfl⟩ hcover

/-- The predicates of a subquery's clause are an end of the clause. -/
theorem fromWhere_suffix (clause : Text) : fromWhere clause <:+ clause := by
  rw [fromWhere]
  split
  · rename_i c hc
    obtain ⟨m, hm, hpart⟩ := Option.bind_eq_some_iff.mp hc
    obtain ⟨q, x, u, y, -, hclause, hstart, -⟩ := exists_part_of_find? hm hpart
    rw [hstart]
    refine ⟨m.start.passed ++ x, ?_⟩
    simp [hclause]
  · exact List.suffix_rfl

/-- What a step of the walk works on. -/
def WorkItem.text : WorkItem → Text
  | span text _ => text
  | clause text _ => text

/-- In all clauses that a step meets, quotes come after all tokens if they do so at first. -/
theorem WorkItem.Meets.quoteLast {item : WorkItem} {clause : Text} (hl : l.IsStandard)
    (hmeets : item.Meets Profile.standard.resolvedMark clause)
    (h : Ledger.QuoteLast l.format.lead item.text) : Ledger.QuoteLast l.format.lead clause := by
  induction hmeets with
  | clause text nested =>
    split
    · exact h.stretch (fromWhere_suffix text).isInfix
    · exact h
  | @takeOut text _ nested item hitem _ ih =>
    apply ih
    rcases List.mem_cons.mp hitem with rfl | hitem
    · exact QuoteLast.clauseOf hl h
    · obtain ⟨body, hbody, rfl⟩ := List.mem_map.mp hitem
      exact h.stretch (stretch_of_body hbody)

end Clauses

/-! ## Deletes and updates -/

/-- The text that carries the predicates of a delete or an update. -/
def Statement.parameters (s : Statement) : Text :=
  if s.kind = .delete then (Mutation.deleteHead (Held.standard s.sql)).parameters
  else (Mutation.updateHead (Held.standard s.sql)).parameters

/-- The same text with its subqueries put back. -/
def Statement.parameterText (s : Statement) : Text :=
  (Held.standard s.sql).subqueries.revert s.parameters

theorem Grammar.partsIn_deleteHeader : Grammar.deleteHeader.partsIn =
    [(.table, qualifiedName), (.whereWord, word "where".toList)] := rfl

theorem Grammar.partsIn_updateSpan : Grammar.updateSpan.partsIn =
    [(.target, few1), (.whereWord, wholeWord "where".toList)] := rfl

theorem connective_of_where {before u after : Text}
    (h : (word "where".toList).Reads before u after) : connective.Spells u :=
  reads_firstOf.mpr ⟨_, List.mem_cons_self, h.spells (by decide)⟩

theorem connective_of_wholeWhere {before u after : Text}
    (h : (wholeWord "where".toList).Reads before u after) : connective.Spells u := by
  obtain ⟨e, v, rfl, ⟨rfl, -⟩, h⟩ := reads_chain_cons.mp h
  obtain ⟨w, e, rfl, hw, ⟨rfl, -⟩⟩ := reads_chain_cons.mp h
  simpa using connective_of_where hw

/-- The text from the `where` of a match on starts with a connective. -/
theorem fromPart_whereWord {p : Pattern} (t : Text)
    (hp : ∀ q, (Part.whereWord, q) ∈ p.partsIn →
      ∀ before u after, q.Reads before u after → connective.Spells u) :
    fromPart (p.find? t) .whereWord = [] ∨
      ∃ x k y, t = x ++ (k ++ y) ∧ connective.Spells k ∧
        fromPart (p.find? t) .whereWord = k ++ y := by
  rw [fromPart]
  split
  · rename_i c hc
    obtain ⟨m, hm, hpart⟩ := Option.bind_eq_some_iff.mp hc
    obtain ⟨q, x, k, y, hq, ht, hstart, -, hreads⟩ := exists_part_of_find? hm hpart
    exact Or.inr ⟨m.start.passed ++ x, k, y, by simp [ht], hp q hq _ _ _ hreads, hstart⟩
  · exact Or.inl rfl

/-- The parameters of a delete and of an update start with the connective `where`. -/
theorem Statement.parameters_cases (s : Statement) :
    s.parameters = [] ∨ ∃ x k y, (Held.standard s.sql).text = x ++ (k ++ y) ∧
      connective.Spells k ∧ s.parameters = k ++ y := by
  have hdelete := fromPart_whereWord (p := Grammar.deleteHeader) (Held.standard s.sql).text
    fun q hq before u after hreads => by
      have hword : q = word "where".toList := by simpa [Grammar.partsIn_deleteHeader] using hq
      rw [hword] at hreads
      exact connective_of_where hreads
  have hupdate := fromPart_whereWord (p := Grammar.updateSpan) (Held.standard s.sql).text
    fun q hq before u after hreads => by
      have hword : q = wholeWord "where".toList := by simpa [Grammar.partsIn_updateSpan] using hq
      rw [hword] at hreads
      exact connective_of_wholeWhere hreads
  rw [Statement.parameters, Mutation.deleteHead, Mutation.updateHead]
  dsimp only
  split
  · exact hdelete
  · exact hupdate

/-- In every clause that the check of a delete or an update meets, a quote comes after all tokens of
literals. -/
theorem Statement.quoteLast_of_meets (s : Statement) {clause : Text}
    (hmeets : (WorkItem.span s.parameterText false).Meets Profile.standard.resolvedMark clause) :
    Ledger.QuoteLast (Held.standard s.sql).literals.format.lead clause := by
  obtain ⟨t, hlit, hsub⟩ := Held.literals_spec s.sql
  refine hmeets.quoteLast (Held.isStandard_standard s.sql).literals ?_
  have hsuffix : s.parameterText <:+ t := by
    rw [Statement.parameterText]
    rcases s.parameters_cases with hnil | ⟨x, k, y, hsplit, hk, hparameters⟩
    · have hempty := Held.revert_subqueries_from hsub (List.append_nil _).symm
      rw [Segment.join_nil, Segment.join_nil] at hempty
      rw [hnil, hempty]
      exact List.nil_suffix
    · rw [hparameters]
      exact Held.suffix_of_connective hsub hk hsplit
  rw [WorkItem.text]
  exact (Held.quoteLast_literals hlit).stretch hsuffix.isInfix

end MutationPreview
