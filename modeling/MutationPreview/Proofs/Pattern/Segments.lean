import MutationPreview.Proofs.Pattern.Reads
import MutationPreview.Proofs.Text.Segment

/-!
# Texts cut at the matches of a pattern

`Pattern.Segmented p before after segs` says how the matches of `p` lie in a text that continues
`before` with `after`: a character is passed where nothing matches, and a match is passed as a
whole. For a pattern that reads at least one character this is what the search does
(`Pattern.segmented_segments`), so replacing and splitting are followed segment by segment.

Main statement: the segments make up the text (`Pattern.join_segments`).
-/

namespace MutationPreview

namespace Pattern

/-- How the matches of a pattern lie in a text that continues `before` with the text given. -/
inductive Segmented (p : Pattern) : (before after : Text) → List (Segment Match) → Prop where
  | done {before : Text} (hnone : p.matchAt? ⟨before, []⟩ = none) : Segmented p before [] []
  | plain {before rest : Text} {c : Char} {segs : List (Segment Match)}
      (hnone : p.matchAt? ⟨before, c :: rest⟩ = none)
      (hrest : Segmented p (c :: before) rest segs) :
      Segmented p before (c :: rest) (.plain c :: segs)
  | span {before rest : Text} {m : Match} {segs : List (Segment Match)}
      (hsome : p.matchAt? ⟨before, m.text ++ rest⟩ = some m) (hne : m.text ≠ [])
      (hrest : Segmented p (m.text.reverse ++ before) rest segs) :
      Segmented p before (m.text ++ rest) (.span m :: segs)

theorem matchAt?_text_ne_nil {p : Pattern} (hp : p.consumes = true) {before after : Text}
    {m : Match} (h : p.matchAt? ⟨before, after⟩ = some m) : m.text ≠ [] := by
  obtain ⟨rest, -, -, -, hreads⟩ := matchAt?_some h
  exact hreads.ne_nil hp

/-- The search from a place inside the last match goes on behind that match. -/
theorem segmented_segmentsFrom {p : Pattern} (hp : p.consumes = true) (skip : Nat) (fresh : Bool)
    (before after : Text) (hskip : skip ≤ after.length) :
    Segmented p ((after.take skip).reverse ++ before) (after.drop skip)
      (p.segmentsFrom skip fresh before after) := by
  induction after generalizing skip fresh before with
  | nil =>
    have hzero : skip = 0 := by simpa using hskip
    subst hzero
    -- a match at the end of the text would be empty
    have hnone : p.matchAt? ⟨before, []⟩ = none := by
      cases hm : p.matchAt? ⟨before, []⟩ with
      | none => rfl
      | some m =>
        obtain ⟨rest, hsplit, -⟩ := matchAt?_some hm
        have hnil := (List.append_eq_nil_iff.mp hsplit.symm).1
        exact absurd hnil (matchAt?_text_ne_nil hp hm)
    simpa [segmentsFrom, hnone] using Segmented.done hnone
  | cons c rest ih =>
    cases skip with
    | succ skip =>
      have hrec := ih skip fresh (c :: before) (by simpa using hskip)
      simpa [segmentsFrom] using hrec
    | zero =>
      simp only [List.take_zero, List.reverse_nil, List.nil_append, List.drop_zero, segmentsFrom]
      cases hm : p.matchAt? ⟨before, c :: rest⟩ with
      | none =>
        have hrec := ih 0 true (c :: before) (Nat.zero_le _)
        exact Segmented.plain hm (by simpa using hrec)
      | some m =>
        have hne := matchAt?_text_ne_nil hp hm
        obtain ⟨tail, hsplit, -⟩ := matchAt?_some hm
        obtain ⟨d, u, htext⟩ := List.exists_cons_of_ne_nil hne
        rw [htext, List.cons_append, List.cons.injEq] at hsplit
        obtain ⟨rfl, rfl⟩ := hsplit
        have hlen : m.text.length = u.length + 1 := by rw [htext]; rfl
        have hrec := ih u.length false (c :: before) (by simp)
        have hseg : Segmented p before (m.text ++ tail)
            (.span m :: p.segmentsFrom u.length false (c :: before) (u ++ tail)) := by
          refine Segmented.span ?_ hne ?_
          · rw [htext]
            exact hm
          · rw [htext]
            simpa using hrec
        rw [htext] at hseg
        simpa [hlen] using hseg

/-- The segments of a text say how the matches of the pattern lie in it. -/
theorem segmented_segments {p : Pattern} (hp : p.consumes = true) (t : Text) :
    Segmented p [] t (p.segments t) := by
  simpa [segments] using segmented_segmentsFrom hp 0 true [] t (Nat.zero_le _)

theorem Segmented.join_eq {p : Pattern} {before after : Text} {segs : List (Segment Match)}
    (h : Segmented p before after segs) : Segment.join Match.text segs = after := by
  induction h with
  | done _ => rfl
  | plain _ _ ih => rw [Segment.join_plain, ih]
  | span _ _ _ ih => rw [Segment.join_span, ih]

theorem Segmented.eq_nil {p : Pattern} {before : Text} {segs : List (Segment Match)}
    (h : p.Segmented before [] segs) : segs = [] := by
  generalize htext : ([] : Text) = text at h
  cases h with
  | done _ => rfl
  | plain _ _ => simp at htext
  | span _ hne _ => exact absurd (List.append_eq_nil_iff.mp htext.symm).1 hne

/-- A character at which no match starts is passed. -/
theorem Segmented.past_char {p : Pattern} {before rest : Text} {c : Char}
    {segs : List (Segment Match)} (h : Segmented p before (c :: rest) segs)
    (hnone : p.matchAt? ⟨before, c :: rest⟩ = none) :
    ∃ more, segs = .plain c :: more ∧ Segmented p (c :: before) rest more := by
  generalize htext : c :: rest = text at h hnone
  cases h with
  | done => simp at htext
  | plain _ hrest =>
    obtain ⟨rfl, rfl⟩ := List.cons.inj htext
    exact ⟨_, rfl, hrest⟩
  | span hsome =>
    rw [hnone] at hsome
    cases hsome

/-- Where no match starts, the text is passed character by character. -/
theorem Segmented.past_plain {p : Pattern} {before front rest : Text} {segs : List (Segment Match)}
    (h : Segmented p before (front ++ rest) segs)
    (hnone : ∀ a c b, front = a ++ c :: b →
      p.matchAt? ⟨a.reverse ++ before, c :: (b ++ rest)⟩ = none) :
    ∃ more, segs = front.map .plain ++ more ∧ Segmented p (front.reverse ++ before) rest more := by
  induction front generalizing before segs with
  | nil => exact ⟨segs, rfl, h⟩
  | cons c front ih =>
    obtain ⟨segs, rfl, hrest⟩ := h.past_char (hnone [] c front rfl)
    have hbehind : ∀ a d b, front = a ++ d :: b →
        p.matchAt? ⟨a.reverse ++ c :: before, d :: (b ++ rest)⟩ = none := by
      intro a d b hfront
      simpa using hnone (c :: a) d b (by simp [hfront])
    obtain ⟨more, rfl, hmore⟩ := ih hrest hbehind
    exact ⟨more, rfl, by simpa using hmore⟩

/-- A match is passed as a whole. -/
theorem Segmented.past_match {p : Pattern} {before u rest : Text} {segs : List (Segment Match)}
    (h : Segmented p before (u ++ rest) segs) (hreads : p.Reads before u rest)
    (hunique : ∀ v rest', u ++ rest = v ++ rest' → p.Reads before v rest' → v = u) :
    ∃ m more, segs = .span m :: more ∧ m.text = u ∧ p.matchAt? ⟨before, u ++ rest⟩ = some m ∧
      Segmented p (u.reverse ++ before) rest more := by
  have hmatch : p.matchAt? ⟨before, u ++ rest⟩ ≠ none := fun hnone =>
    matchAt?_eq_none_iff.mp hnone u rest rfl hreads
  generalize htext : u ++ rest = text at h hmatch
  cases h with
  | done hnone => exact absurd hnone hmatch
  | plain hnone _ => exact absurd hnone hmatch
  | @span _ rest' m segs hsome _ hrest =>
    obtain ⟨rest'', hsplit, -, -, hm⟩ := matchAt?_some hsome
    obtain rfl := List.append_cancel_left hsplit
    obtain rfl := hunique m.text rest' htext hm
    rw [List.append_cancel_left htext]
    exact ⟨m, segs, rfl, rfl, hsome, hrest⟩

/-- The segments of a text make up the text. -/
theorem join_segments {p : Pattern} (hp : p.consumes = true) (t : Text) :
    Segment.join Match.text (p.segments t) = t :=
  (segmented_segments hp t).join_eq

/-- Every match that is singled out is read by the pattern. -/
theorem Segmented.reads_of_mem {p : Pattern} {before after : Text} {segs : List (Segment Match)}
    (h : Segmented p before after segs) {m : Match} (hm : m ∈ Segment.spans segs) :
    ∃ before' rest, p.matchAt? ⟨before', m.text ++ rest⟩ = some m ∧
      p.Reads before' m.text rest ∧ m.text ≠ [] := by
  induction h with
  | done _ => simp at hm
  | plain _ _ ih => exact ih hm
  | @span before rest m' segs hsome hne _ ih =>
    rcases List.mem_cons.mp hm with rfl | hm
    · obtain ⟨rest', hsplit, -, -, hreads⟩ := matchAt?_some hsome
      rw [List.append_cancel_left hsplit] at hsome
      exact ⟨before, rest', hsome, hreads, hne⟩
    · exact ih hm

theorem reads_of_mem_spans {p : Pattern} (hp : p.consumes = true) {t : Text} {m : Match}
    (hm : m ∈ Segment.spans (p.segments t)) :
    ∃ before rest, p.matchAt? ⟨before, m.text ++ rest⟩ = some m ∧
      p.Reads before m.text rest ∧ m.text ≠ [] :=
  (segmented_segments hp t).reads_of_mem hm

/-- A text without any stretch that the pattern reads is cut nowhere. -/
theorem segments_eq_map_plain {p : Pattern} (hp : p.consumes = true) {t : Text}
    (h : ∀ before u after, p.Reads before u after → ¬ u <:+: t) : p.segments t = t.map .plain := by
  have hspans : Segment.spans (p.segments t) = [] := by
    rw [List.eq_nil_iff_forall_not_mem]
    intro m hm
    obtain ⟨before, rest, -, hreads, -⟩ := reads_of_mem_spans hp hm
    have hwithin := Segment.infix_join Match.text hm
    rw [join_segments hp] at hwithin
    exact h before m.text rest hreads hwithin
  have hsegs := Segment.eq_map_plain Match.text hspans
  rw [join_segments hp] at hsegs
  exact hsegs

end Pattern

end MutationPreview
