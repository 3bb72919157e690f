import MutationPreview.Proofs.Text.Segment
import MutationPreview.Subquery

/-!
# Texts without subqueries

The scan singles out nothing in a text in which no bracket opens a select
(`Subquery.segments_eq_map_plain`). A subquery without its brackets is its body
(`stripBrackets_cover`).
-/

namespace MutationPreview

theorem stripBrackets_cover (body : Text) : stripBrackets (Subquery.cover body) = body := by
  have htrim : Text.trimBlank (Subquery.cover body) = '(' :: (body ++ [')']) := by
    rw [Text.trimBlank, Subquery.cover, Text.trim_append_singleton (by decide),
      List.dropWhile_cons_of_neg (by decide)]
    rfl
  simp [stripBrackets, htrim]

namespace Subquery

/-- A scan that has singled out nothing and has no select open. -/
structure Scan.IsPlain (s : Scan) : Prop where
  ground : Segment.spans s.ground = []
  frames : ∀ f ∈ s.frames, f.select = false ∧ Segment.spans f.body = []

theorem Scan.IsPlain.write {s : Scan} (h : s.IsPlain) {new : List (Segment Text)}
    (hnew : Segment.spans new = []) : (s.write new).IsPlain := by
  obtain ⟨ground, _ | ⟨f, frames⟩⟩ := s
  · exact ⟨by simp [Scan.write, hnew, h.ground], by simp [Scan.write]⟩
  · refine ⟨h.ground, ?_⟩
    intro g hg
    rcases List.mem_cons.mp hg with rfl | hg
    · obtain ⟨hselect, hbody⟩ := h.frames f (by simp)
      exact ⟨hselect, by simp [hnew, hbody]⟩
    · exact h.frames g (List.mem_cons_of_mem _ hg)

theorem Scan.IsPlain.step {s : Scan} (h : s.IsPlain) {c : Char} {rest : Text}
    (hopen : c = '(' → opensSelect rest = false) : (s.step c rest).IsPlain := by
  unfold Scan.step
  split
  · rename_i hc
    refine ⟨h.ground, ?_⟩
    intro g hg
    rcases List.mem_cons.mp hg with rfl | hg
    · exact ⟨hopen hc, rfl⟩
    · exact h.frames g hg
  · split
    · obtain ⟨ground, _ | ⟨f, frames⟩⟩ := s
      · exact ⟨h.ground, by simp⟩
      · obtain ⟨hselect, hbody⟩ := h.frames f (by simp)
        have hrest : (⟨ground, frames⟩ : Scan).IsPlain :=
          ⟨h.ground, fun g hg => h.frames g (List.mem_cons_of_mem _ hg)⟩
        refine hrest.write ?_
        simp [Frame.close, hselect, hbody]
    · exact h.write rfl

theorem Scan.IsPlain.run {s : Scan} (h : s.IsPlain) {t : Text}
    (hopen : ∀ a b, t = a ++ '(' :: b → opensSelect b = false) : (s.run t).IsPlain := by
  induction t generalizing s with
  | nil => exact h
  | cons c t ih =>
    refine ih (h.step fun hc => hopen [] t (by rw [hc]; rfl)) ?_
    intro a b hsplit
    exact hopen (c :: a) b (by rw [hsplit]; rfl)

theorem Scan.IsPlain.spans_segments {s : Scan} (h : s.IsPlain) :
    Segment.spans s.segments = [] := by
  rw [List.eq_nil_iff_forall_not_mem]
  intro body hbody
  rw [Segment.mem_spans, Scan.segments, List.mem_reverse, List.mem_append, List.mem_flatMap] at hbody
  rcases hbody with ⟨f, hf, hmem⟩ | hmem
  · have hspan : body ∈ Segment.spans f.body := by
      rw [Segment.mem_spans]
      simpa using hmem
    rw [(h.frames f hf).2] at hspan
    simp at hspan
  · have hspan : body ∈ Segment.spans s.ground := Segment.mem_spans.mpr hmem
    rw [h.ground] at hspan
    simp at hspan

/-- A text in which no bracket opens a select has no subquery. -/
theorem segments_eq_map_plain {t : Text}
    (hopen : ∀ a b, t = a ++ '(' :: b → opensSelect b = false) :
    Subquery.segments t = t.map .plain := by
  have hplain : (⟨[], []⟩ : Scan).IsPlain := ⟨rfl, by simp⟩
  have hspans : Segment.spans (Subquery.segments t) = [] := (hplain.run hopen).spans_segments
  have hsegs := Segment.eq_map_plain cover hspans
  rw [join_segments] at hsegs
  exact hsegs

end Subquery

end MutationPreview
