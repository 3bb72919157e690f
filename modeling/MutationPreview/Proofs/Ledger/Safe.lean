import MutationPreview.Proofs.Ledger.Revert
import MutationPreview.Proofs.Text.Bytes

/-!
# Safe formats of tokens

A format is safe for a text and its spans if a token can be told from what stands around it: two
occurrences of the lead never overlap, a lead does not continue a number before it, and a number
ends where the token ends or where its trail starts (`TokenFormat.IsSafe`).

Main statement: whatever spans of a text are held under a safe format, reverting gives the text back
(`Ledger.revert_holdSpans_of_isSafe`).
-/

namespace MutationPreview

/-- Whether tokens of a format can be told apart from the text around the ranges that they stand
for. -/
structure TokenFormat.IsSafe (f : TokenFormat) (t : Text) (ranges : List (Nat × Nat)) : Prop where
  unbordered : Text.Unbordered f.lead
  lead : f.lead.head?.any Char.isDigit = false
  trail : (∃ c rest, f.trail = c :: rest ∧ c.isDigit = false) ∨
    f.trail = [] ∧ ∀ p ∈ ranges, (Text.dropBytes t p.2).head?.any Char.isDigit = false

namespace Ledger

/-- Under a safe format no token is read as a longer one. -/
theorem clear_of_isSafe {l : Ledger} {t : Text} {ranges : List (Nat × Nat)}
    {segs : List (Segment Text)} (hne : l.format.lead ≠ []) (hsafe : l.format.IsSafe t ranges)
    (hjoin : Segment.join id segs = t) (hspans : Segment.byteSpans id 0 segs = ranges) :
    Clear id l segs := by
  rcases hsafe.trail with ⟨c, rest, htrail, hc⟩ | ⟨htrail, hbehind⟩
  · exact clear_of_trail c rest htrail hc segs
  · obtain ⟨o, lead, hlead⟩ := List.exists_cons_of_ne_nil hne
    have ho : o.isDigit = false := by simpa [hlead] using hsafe.lead
    rw [clear_iff htrail hlead ho]
    rintro before a digit after rfl hdigit
    -- the digit would stand right behind one of the ranges
    have hrange : (Text.bytes (Segment.join id before),
        Text.bytes (Segment.join id before ++ a)) ∈ ranges := by
      rw [← hspans, Segment.mem_byteSpans]
      exact ⟨before, a, .plain digit :: after, rfl, by rw [Nat.zero_add], by rw [Nat.zero_add]; rfl⟩
    have hdrop : Text.dropBytes t (Text.bytes (Segment.join id before ++ a)) =
        digit :: Segment.join id after := by
      rw [← hjoin, Segment.join_append, Segment.join_span, id_eq, ← List.append_assoc,
        Text.dropBytes_append, Segment.join_plain]
    have hnot := hbehind _ hrange
    rw [hdrop] at hnot
    exact absurd (hdigit.symm.trans hnot) (by decide)

/-- Spans of a text that are held under a safe format, with the format's lead made fresh to the text,
are put back: the text is held with its ranges as spans, and reverting it gives it back. -/
theorem revert_holdSpans_of_isSafe (f : TokenFormat) {t : Text} {ranges : List (Nat × Nat)}
    (hranges : t.AreRanges ranges) (hsafe : (f.avoiding t).IsSafe t ranges) :
    Segment.byteSpans id 0 (Segment.cutAt t ranges) = ranges ∧
      let held := holdSpans id ⟨f.avoiding t, []⟩ (Segment.cutAt t ranges)
      held.1.revert held.2 = t := by
  obtain ⟨hjoin, hspans⟩ := Segment.cutAt_spec hranges
  refine ⟨hspans, ?_⟩
  have hspec := holdSpans_spec id ⟨f.avoiding t, []⟩ (Segment.cutAt t ranges)
  refine hspec.revert_eq hjoin hsafe.unbordered (clear_of_isSafe ?_ ?_ hjoin hspans)
  · rw [hspec.continues.format]
    exact TokenFormat.avoiding_ne_nil f t
  · rw [hspec.continues.format]
    exact hsafe

/-- Tokens without a trail, under a lead that the text makes longer; two spans have the same value. -/
theorem revert_holdSpans_of_isSafe_no_trail :
    let f : TokenFormat := ⟨"w".toList, []⟩
    let t := "wo 'é' und 'é', 'ß'".toList
    let ranges := [(3, 7), (12, 16), (18, 22)]
    let held := holdSpans id ⟨f.avoiding t, []⟩ (Segment.cutAt t ranges)
    Text.AreRanges t ranges ∧ (f.avoiding t).IsSafe t ranges ∧
      held.2 = "wo w_1 und w_1, w_2".toList ∧ held.1.revert held.2 = t := by
  intro f t ranges held
  have hranges : Text.AreRanges t ranges := ⟨by decide, by decide, by decide⟩
  have hsafe : (f.avoiding t).IsSafe t ranges :=
    ⟨Text.unbordered_of_notMem (t := ['_']) (by decide), by decide, Or.inr (by decide)⟩
  exact ⟨hranges, hsafe, by decide, (revert_holdSpans_of_isSafe f hranges hsafe).2⟩

end Ledger

end MutationPreview
