import MutationPreview.Proofs.Ledger.Revert
import MutationPreview.Proofs.Standard
import MutationPreview.Proofs.Text.Quotes

/-!
# Reverting a held statement

Subqueries are held under tokens that end with a bracket, so reverting them always gives back the
text with its literals still held (`Held.revert_subqueries`). The token of a literal has no end
mark. A digit that stands right behind a literal may therefore make a longer token of it, and
reversion then writes another literal.

Main statement: a held text reverts to itself, line breaks apart, exactly when no literal is
followed by a digit that turns its number into the number of another literal
(`Held.revert_standard_iff`).
-/

namespace MutationPreview

namespace Ledger

section Literals

variable {l : Ledger} {segs : List (Segment Match)}

/-- Reversion of literals gives them back only if no token is read as a longer one: the first
that is read so is written as another literal. -/
theorem clear_of_substitute (hun : Text.Unbordered l.format.lead) (hnodup : l.values.Nodup)
    (hvalues : ∀ v ∈ l.values, ∃ content, '\'' ∉ content ∧ v = inQuotes content)
    (habsent : ¬ l.format.lead <:+: Segment.join Match.text segs)
    (hheld : ∀ m ∈ Segment.spans segs, m.text ∈ l.values)
    (h : Text.substitute l.revertRule (Segment.join (fun m => l.tokenOf m.text) segs) =
      Segment.join Match.text segs) : Clear Match.text l segs := by
  induction segs with
  | nil => trivial
  | cons s segs ih =>
    cases s with
    | plain c =>
      have hstep := substitute_tokens_plain Match.text hun habsent
      rw [hstep, Segment.join_plain, List.cons.injEq] at h
      have habsent' : ¬ l.format.lead <:+: Segment.join Match.text segs :=
        fun hwithin => habsent (hwithin.trans (List.suffix_cons _ _).isInfix)
      exact ih habsent' hheld h.2
    | span m =>
      have hmem := hheld m (by simp)
      have hlt : l.values.idxOf m.text < l.values.length := List.idxOf_lt_length_of_mem hmem
      have habsent' : ¬ l.format.lead <:+: Segment.join Match.text segs :=
        fun hwithin => habsent (hwithin.trans (List.suffix_append _ _).isInfix)
      rw [Segment.join_span, Segment.join_span] at h
      have hclear : ¬ l.Overread (l.values.idxOf m.text)
          (Segment.join (fun m => l.tokenOf m.text) segs) := by
        intro hover
        obtain ⟨j, value, ds, rest', hat, hj, hnumber, hsplit, hds⟩ :=
          tokenAt?_token hlt (Segment.join (fun m => l.tokenOf m.text) segs)
        -- two literals would start the same text
        rw [tokenOf, hsplit] at h
        rw [hsplit] at hat
        rw [substitute_of_tokenAt? (TokenFormat.token_ne_nil _ _) hat] at h
        obtain ⟨content, hcontent, rfl⟩ := hvalues value (List.mem_of_getElem? hj)
        obtain ⟨content', hcontent', htext⟩ := hvalues m.text hmem
        rw [htext] at h
        have heq := (inQuotes_append_inj hcontent hcontent' h).1
        have hsame : l.values[j]? = l.values[l.values.idxOf m.text]? := by
          rw [hj, heq, ← htext, List.getElem?_eq_getElem hlt, List.getElem_idxOf hlt]
        have hjlt : j < l.values.length := (List.getElem?_eq_some_iff.mp hj).1
        have hji := (List.getElem?_inj hjlt hnodup).mp hsame
        rw [hji] at hnumber
        exact hds.mpr hover (List.append_right_eq_self.mp hnumber.symm)
      refine ⟨hclear, ih habsent' (fun m' hm' => hheld m' (by simp [hm'])) ?_⟩
      rw [substitute_tokens_span hmem hclear] at h
      exact List.append_cancel_left h

end Literals

end Ledger

/-! ## Held statements -/

namespace Held

/-- The literals of a held text and the text around them, before subqueries are held. -/
theorem literals_spec (raw : Text) :
    ∃ t, Ledger.HoldSpansSpec Match.text
        ⟨Profile.standard.literalFormat.avoiding (joinLines raw), []⟩
        (Grammar.literal.segments (joinLines raw)) (Held.standard raw).literals t ∧
      Ledger.HoldSpansSpec Subquery.cover
        ⟨Profile.standard.subqueryFormat.avoiding t, []⟩ (Subquery.segments t)
        (Held.standard raw).subqueries (Held.standard raw).text :=
  ⟨_, Ledger.holdSpans_spec _ _ _, Ledger.holdSpans_spec _ _ _⟩

/-- What is held as a literal is one quoted span. -/
theorem quoted_literals (raw : Text) :
    ∀ v ∈ (Held.standard raw).literals.values, ∃ content, '\'' ∉ content ∧ v = inQuotes content := by
  obtain ⟨t, hlit, -⟩ := literals_spec raw
  intro v hv
  rcases hlit.only v hv with hnil | ⟨m, hm, rfl⟩
  · simp at hnil
  · exact (paired_segments _).text_of_mem hm

/-- A lead that is lengthened by underscores keeps a first character that does not come again. -/
theorem unbordered_avoiding (o : Char) (lead : Text) (f : TokenFormat) (t : Text)
    (hlead : f.lead = o :: lead) (ho : o ∉ lead) (hu : o ≠ '_') :
    Text.Unbordered (f.avoiding t).lead := by
  obtain ⟨k, hk⟩ := f.exists_avoiding_lead t
  rw [hk, hlead, List.cons_append]
  apply Text.unbordered_of_notMem
  rw [List.mem_append, List.mem_replicate]
  rintro (hmem | ⟨-, hmem⟩)
  · exact ho hmem
  · exact hu hmem

section Subqueries

variable {t text : Text} {l : Ledger}

/-- Reverting the subqueries from some place on gives back the text from there on. -/
theorem revert_subqueries_from
    (h : Ledger.HoldSpansSpec Subquery.cover ⟨Profile.standard.subqueryFormat.avoiding t, []⟩
      (Subquery.segments t) l text) {A B : List (Segment Text)}
    (hsplit : Subquery.segments t = A ++ B) :
    l.revert (Segment.join (fun body => l.tokenOf (Subquery.cover body)) B) =
      Segment.join Subquery.cover B := by
  have hun : Text.Unbordered (Profile.standard.subqueryFormat.avoiding t).lead :=
    unbordered_avoiding '(' "SUB_".toList _ t rfl (by decide) (by decide)
  have hclear : Ledger.Clear Subquery.cover l B :=
    Ledger.clear_of_trail ')' [] (by rw [h.continues.format]; rfl) (by decide) B
  exact h.revert_from (Subquery.join_segments t) hun hsplit hclear

/-- Reverting the subqueries gives back the text with its literals held. -/
theorem revert_subqueries
    (h : Ledger.HoldSpansSpec Subquery.cover ⟨Profile.standard.subqueryFormat.avoiding t, []⟩
      (Subquery.segments t) l text) : l.revert text = t := by
  rw [h.text_eq, revert_subqueries_from h (List.nil_append _).symm, Subquery.join_segments]

end Subqueries

/-- A held text reverts to itself, line breaks apart, exactly when no literal is followed by a
digit that turns its number into the number of another held literal. -/
theorem revert_standard_iff (raw : Text) :
    (Held.standard raw).revert = joinLines raw ↔
      ∀ before literal digit after,
        Grammar.literal.segments (joinLines raw) =
          before ++ .span literal :: .plain digit :: after →
        digit.isDigit = true →
        (Held.standard raw).literals.values.length <
          10 * ((Held.standard raw).literals.values.idxOf literal.text + 1) +
            (digit.toNat - '0'.toNat) := by
  obtain ⟨t, hlit, hsub⟩ := literals_spec raw
  have hformat := hlit.continues.format
  obtain ⟨k, hk⟩ := Profile.standard.literalFormat.exists_avoiding_lead (joinLines raw)
  have hlead : (Held.standard raw).literals.format.lead =
      'S' :: ("TR_".toList ++ List.replicate k '_') := by
    rw [hformat]
    exact hk
  have hne : (Held.standard raw).literals.format.lead ≠ [] := by
    rw [hlead]
    exact List.cons_ne_nil _ _
  have hun : Text.Unbordered (Held.standard raw).literals.format.lead := by
    rw [hformat]
    exact unbordered_avoiding 'S' "TR_".toList _ _ rfl (by decide) (by decide)
  have hjoin : Segment.join Match.text (Grammar.literal.segments (joinLines raw)) = joinLines raw :=
    (paired_segments _).join_eq
  have habsent : ¬ (Held.standard raw).literals.format.lead <:+:
      Segment.join Match.text (Grammar.literal.segments (joinLines raw)) := by
    rw [hformat, hjoin]
    exact TokenFormat.avoiding_absent _ _
  rw [revert, revert_subqueries hsub, Ledger.revert_eq_substitute hne, hlit.text_eq,
    ← Ledger.clear_iff (by rw [hformat]; rfl) hlead (by decide)]
  constructor
  · intro h
    exact Ledger.clear_of_substitute hun (hlit.nodup (by simp)) (quoted_literals raw) habsent hlit.held
      (h.trans hjoin.symm)
  · intro h
    exact (Ledger.substitute_tokens hun habsent hlit.held h).trans hjoin

/-- The first of ten literals with a zero behind it is read as the tenth. -/
theorem revert_tenth_literal :
    let raw := "'a'0 'b' 'c' 'd' 'e' 'f' 'g' 'h' 'i' 'j'".toList
    (Held.standard raw).revert = "'j' 'b' 'c' 'd' 'e' 'f' 'g' 'h' 'i' 'j'".toList ∧
      joinLines raw = raw ∧ (Held.standard raw).revert ≠ joinLines raw := by
  decide

end Held

end MutationPreview
