import MutationPreview.Proofs.Clause.Unclosed
import MutationPreview.Proofs.Held.Spans
import MutationPreview.Proofs.Ledger.InTurn

/-!
# The two orders of reversion under the default configuration

The tokens of literals are words and a literal stands in quotes; the tokens of subqueries stand in
brackets, as subqueries do. The lead of either kind is fresh to the text that was held. So tokens
and values stay apart, whatever text is reverted.

Main statement: on any fragment, reversion in one pass gives what replacing the tokens one after the
other in descending order gives (`Held.revert_inTurn`).
-/

namespace MutationPreview

namespace Ledger

/-- A first character that the rest of the format does not have comes once in a token. -/
theorem notMem_tail_token {f : TokenFormat} {o : Char} {lead : Text} (hlead : f.lead = o :: lead)
    (ho : o ∉ lead) (hdigit : o.isDigit = false) (htrail : o ∉ f.trail) (n : Nat) :
    o ∉ (f.token n).tail := by
  have htail : (f.token n).tail = lead ++ Text.ofNat n ++ f.trail := by
    rw [TokenFormat.token, hlead]
    rfl
  rw [htail, List.mem_append, List.mem_append]
  rintro ((hmem | hmem) | hmem)
  · exact ho hmem
  · rw [Text.isDigit_of_mem_ofNat hmem] at hdigit
    cases hdigit
  · exact htrail hmem

/-- No value that was held has the lead, which the text around it avoids. -/
theorem HoldSpansSpec.absent {α : Type} {cover : α → Text} {f : TokenFormat} {t u : Text}
    {segs : List (Segment α)} {l : Ledger} (h : HoldSpansSpec cover ⟨f.avoiding t, []⟩ segs l u)
    (hjoin : Segment.join cover segs = t) : ∀ v ∈ l.values, ¬ l.format.lead <:+: v := by
  intro v hv hlead
  have hformat : l.format = f.avoiding t := h.continues.format
  rcases h.only v hv with hnil | ⟨a, ha, rfl⟩
  · simp at hnil
  · apply TokenFormat.avoiding_absent f t
    rw [← hformat]
    have hwithin := hlead.trans (Segment.infix_join cover ha)
    rwa [hjoin] at hwithin

/-- Tokens that are words stay apart from quoted values. -/
theorem IsStandard.apart {l : Ledger} (h : l.IsStandard)
    (hquoted : ∀ v ∈ l.values, ∃ content, '\'' ∉ content ∧ v = inQuotes content)
    (habsent : ∀ v ∈ l.values, ¬ l.format.lead <:+: v) : l.Apart := by
  obtain ⟨k, hk⟩ := h.exists_format
  have hlead : l.format.lead = 'S' :: ("TR_".toList ++ List.replicate k '_') := by
    rw [hk]
    rfl
  refine ⟨⟨'S', _, hlead, ?_⟩, ?_, ?_, habsent⟩
  · exact notMem_tail_token hlead (by simp) (by decide) (by simp [hk])
  · intro v hv
    obtain ⟨content, -, rfl⟩ := hquoted v hv
    refine ⟨'\'', content ++ ['\''], rfl, ?_⟩
    intro n hmem
    exact h.quote_notMem_token n (List.mem_of_mem_tail hmem)
  · intro v hv
    obtain ⟨content, -, rfl⟩ := hquoted v hv
    refine ⟨'\'' :: content, '\'', rfl, ?_⟩
    intro n hmem
    exact h.quote_notMem_token n (List.dropLast_subset _ hmem)

/-- Tokens in brackets stay apart from values in brackets. -/
theorem IsBracketed.apart {l : Ledger} {k : Nat} (h : l.IsBracketed k)
    (hcover : ∀ v ∈ l.values, ∃ body, v = Subquery.cover body)
    (habsent : ∀ v ∈ l.values, ¬ l.format.lead <:+: v) : l.Apart := by
  have hlead : l.format.lead = '(' :: ("SUB_".toList ++ List.replicate k '_') := by
    rw [h]
    rfl
  have htrail : l.format.trail = ")".toList := by rw [h]
  have hopen : ∀ n, '(' ∉ (l.format.token n).tail :=
    notMem_tail_token hlead (by simp) (by decide) (by rw [htrail]; decide)
  have hclose : ∀ n, ')' ∉ (l.format.token n).dropLast := by
    intro n
    have htoken : l.format.token n = (l.format.lead ++ Text.ofNat n) ++ [')'] := by
      rw [TokenFormat.token, htrail]
      rfl
    rw [htoken, List.dropLast_concat, List.mem_append, hlead]
    rintro (hmem | hmem)
    · simp at hmem
    · exact absurd (Text.isDigit_of_mem_ofNat hmem) (by decide)
  refine ⟨⟨'(', _, hlead, hopen⟩, ?_, ?_, habsent⟩
  · intro v hv
    obtain ⟨body, rfl⟩ := hcover v hv
    exact ⟨'(', body ++ [')'], rfl, hopen⟩
  · intro v hv
    obtain ⟨body, rfl⟩ := hcover v hv
    exact ⟨'(' :: body, ')', rfl, hclose⟩

end Ledger

namespace Held

/-- On every fragment, reverting literals or subqueries in one pass is replacing the tokens one after
the other, in descending order. -/
theorem revert_inTurn (raw fragment : Text) :
    (Held.standard raw).literals.revert fragment =
        Ledger.replaceInTurn (Held.standard raw).literals.descending fragment ∧
      (Held.standard raw).subqueries.revert fragment =
        Ledger.replaceInTurn (Held.standard raw).subqueries.descending fragment := by
  obtain ⟨t, hlit, hsub⟩ := literals_spec raw
  have hstandard := isStandard_standard raw
  constructor
  · refine Ledger.revert_eq_inTurn (hstandard.literals.apart (quoted_literals raw) ?_) fragment
    exact hlit.absent (paired_segments _).join_eq
  · obtain ⟨k, hk⟩ := hstandard.exists_isBracketed
    refine Ledger.revert_eq_inTurn (hk.apart ?_ (hsub.absent (Subquery.join_segments t))) fragment
    intro v hv
    rcases hsub.only v hv with hnil | ⟨body, -, rfl⟩
    · simp at hnil
    · exact ⟨body, rfl⟩

end Held

end MutationPreview
