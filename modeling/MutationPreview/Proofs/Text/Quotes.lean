import MutationPreview.Grammar
import MutationPreview.Proofs.Pattern.Segments

/-!
# Quoted spans of a text

Single quotes pair from left to right, and a quote that nothing closes is an ordinary character.
`outsideQuotes` is what is left of a text when its quoted spans are cut out, by one pass that only
knows whether it is inside a span. `Paired` is the same pairing span by span, and it is what the
pattern of literals finds (`paired_segments`).

Main statements: cutting out the matches of the pattern leaves what lies outside quotes
(`replaceAll_literal`), and a text whose quotes are all closed is left without the influence of
what comes before (`outsideQuotes_append`).
-/

namespace MutationPreview

/-! ## What lies outside quotes -/

/-- The text outside its quoted spans, for a text that starts inside a span or outside all spans. A
quote opens a span only if there is one to close it. -/
def outsideFrom : (quoted : Bool) → Text → Text
  | _, [] => []
  | true, c :: rest => outsideFrom (c != '\'') rest
  | false, c :: rest =>
    if c = '\'' ∧ rest.contains '\'' then outsideFrom true rest else c :: outsideFrom false rest

/-- The text outside its quoted spans. -/
def outsideQuotes (t : Text) : Text := outsideFrom false t

/-- A text between quotes. -/
def inQuotes (content : Text) : Text := '\'' :: (content ++ ['\''])

/-- A quoted span starts a text in one way only. -/
theorem inQuotes_append_inj {content content' rest rest' : Text} (h : '\'' ∉ content)
    (h' : '\'' ∉ content') (heq : inQuotes content ++ rest = inQuotes content' ++ rest') :
    content = content' ∧ rest = rest' := by
  simp only [inQuotes, List.cons_append, List.append_assoc, List.nil_append, List.cons.injEq,
    true_and] at heq
  obtain ⟨v, rfl, hv⟩ := Segment.prefix_of_notMem h heq
  cases v with
  | nil => exact ⟨by simp, by simpa using hv⟩
  | cons c v =>
    simp only [List.cons_append, List.cons.injEq] at hv
    exact absurd (by simp [← hv.1]) h'

@[simp] theorem outsideQuotes_nil : outsideQuotes [] = [] := rfl

theorem outsideQuotes_cons {c : Char} (hc : c ≠ '\'') (t : Text) :
    outsideQuotes (c :: t) = c :: outsideQuotes t := by
  simp [outsideQuotes, outsideFrom, hc]

theorem outsideQuotes_unclosed {t : Text} (h : '\'' ∉ t) :
    outsideQuotes ('\'' :: t) = '\'' :: outsideQuotes t := by
  simp [outsideQuotes, outsideFrom, h]

theorem outsideFrom_true_append {content : Text} (h : '\'' ∉ content) (t : Text) :
    outsideFrom true (content ++ '\'' :: t) = outsideQuotes t := by
  induction content with
  | nil => rfl
  | cons c content ih =>
    have hc : c ≠ '\'' := fun hc => h (by simp [hc])
    have hstay : (c != '\'') = true := by simpa using hc
    rw [List.cons_append, outsideFrom, hstay]
    exact ih fun hmem => h (List.mem_cons_of_mem _ hmem)

theorem outsideQuotes_inQuotes_append {content : Text} (h : '\'' ∉ content) (t : Text) :
    outsideQuotes (inQuotes content ++ t) = outsideQuotes t := by
  have hspan := outsideFrom_true_append h t
  simpa [outsideQuotes, inQuotes, outsideFrom] using hspan

theorem outsideQuotes_append_of_notMem {u : Text} (h : '\'' ∉ u) (t : Text) :
    outsideQuotes (u ++ t) = u ++ outsideQuotes t := by
  induction u with
  | nil => rfl
  | cons c u ih =>
    have hc : c ≠ '\'' := fun hc => h (by simp [hc])
    rw [List.cons_append, outsideQuotes_cons hc, ih fun hmem => h (List.mem_cons_of_mem _ hmem),
      List.cons_append]

theorem outsideFrom_sublist (quoted : Bool) (t : Text) : (outsideFrom quoted t).Sublist t := by
  induction t generalizing quoted with
  | nil => cases quoted <;> exact List.Sublist.refl _
  | cons c t ih =>
    cases quoted with
    | true => exact (ih _).cons _
    | false =>
      rw [outsideFrom]
      split
      · exact (ih true).cons _
      · exact (ih false).cons_cons _

theorem outsideQuotes_sublist (t : Text) : (outsideQuotes t).Sublist t := outsideFrom_sublist _ t

private theorem mem_of_count_odd {t : Text} {c : Char} (h : t.count c % 2 = 1) : c ∈ t := by
  apply List.count_pos_iff.mp
  omega

theorem outsideFrom_append {quoted : Bool} {a : Text}
    (h : a.count '\'' % 2 = if quoted then 1 else 0) (b : Text) :
    outsideFrom quoted (a ++ b) = outsideFrom quoted a ++ outsideQuotes b := by
  induction a generalizing quoted with
  | nil =>
    cases quoted with
    | true => simp at h
    | false => rfl
  | cons c a ih =>
    rw [List.count_cons] at h
    cases quoted with
    | true =>
      simp only [List.cons_append, outsideFrom]
      apply ih
      by_cases hc : c = '\''
      · simp [hc] at h ⊢
        omega
      · simp [hc] at h ⊢
        exact h
    | false =>
      by_cases hc : c = '\''
      · have hodd : a.count '\'' % 2 = 1 := by
          simp [hc] at h
          omega
        have hmem := mem_of_count_odd hodd
        have hrest := @ih true (by simpa using hodd)
        simpa [outsideFrom, hc, hmem] using hrest
      · have hrest := @ih false (by simpa [hc] using h)
        simpa [outsideFrom, hc] using hrest

/-- Behind a text whose quotes are all closed, quotes pair as if it were not there. -/
theorem outsideQuotes_append {a : Text} (h : a.count '\'' % 2 = 0) (b : Text) :
    outsideQuotes (a ++ b) = outsideQuotes a ++ outsideQuotes b :=
  outsideFrom_append (by simpa using h) b

/-! ## Pairing span by span -/

/-- The quoted spans of a text, singled out from left to right. -/
inductive Paired : Text → List (Segment Match) → Prop where
  | nil : Paired [] []
  | other {c : Char} {rest : Text} {segs : List (Segment Match)} (hc : c ≠ '\'')
      (hrest : Paired rest segs) : Paired (c :: rest) (.plain c :: segs)
  | unclosed {rest : Text} {segs : List (Segment Match)} (hnone : '\'' ∉ rest)
      (hrest : Paired rest segs) : Paired ('\'' :: rest) (.plain '\'' :: segs)
  | span {content rest : Text} {m : Match} {segs : List (Segment Match)}
      (hcontent : '\'' ∉ content) (hm : m.text = inQuotes content) (hrest : Paired rest segs) :
      Paired (inQuotes content ++ rest) (.span m :: segs)

theorem reads_literal {before u after : Text} :
    Grammar.literal.Reads before u after ↔ ∃ content, '\'' ∉ content ∧ u = inQuotes content := by
  simp only [Grammar.literal, Pattern.chain, Pattern.just, Pattern.Reads, beq_iff_eq, bne_iff_ne]
  constructor
  · rintro ⟨v, w, rfl, ⟨c, rfl, rfl⟩, content, w', rfl, hcontent, d, rfl, rfl⟩
    exact ⟨content, fun hmem => hcontent _ hmem rfl, rfl⟩
  · rintro ⟨content, hcontent, rfl⟩
    refine ⟨['\''], content ++ ['\''], rfl, ⟨_, rfl, rfl⟩, content, ['\''], rfl, ?_, _, rfl, rfl⟩
    rintro c hmem rfl
    exact hcontent hmem

theorem consumes_literal : Grammar.literal.consumes = true := rfl

theorem Paired.of_segmented {before t : Text} {segs : List (Segment Match)}
    (h : Grammar.literal.Segmented before t segs) : Paired t segs := by
  induction h with
  | done _ => exact Paired.nil
  | @plain before rest c segs hnone _ ih =>
    by_cases hc : c = '\''
    · subst hc
      refine Paired.unclosed ?_ ih
      intro hmem
      obtain ⟨content, after, rfl, hcontent⟩ := List.eq_append_cons_of_mem hmem
      have hread := Pattern.matchAt?_eq_none_iff.mp hnone (inQuotes content) after
        (by simp [inQuotes])
      exact hread (reads_literal.mpr ⟨content, hcontent, rfl⟩)
    · exact Paired.other hc ih
  | @span before rest m segs hsome _ _ ih =>
    obtain ⟨after, -, -, -, hreads⟩ := Pattern.matchAt?_some hsome
    obtain ⟨content, hcontent, htext⟩ := reads_literal.mp hreads
    rw [htext]
    exact Paired.span hcontent htext ih

/-- The pattern of literals singles out the quoted spans. -/
theorem paired_segments (t : Text) : Paired t (Grammar.literal.segments t) :=
  Paired.of_segmented (Pattern.segmented_segments consumes_literal t)

theorem Paired.join_eq {t : Text} {segs : List (Segment Match)} (h : Paired t segs) :
    Segment.join Match.text segs = t := by
  induction h with
  | nil => rfl
  | other _ _ ih => rw [Segment.join_plain, ih]
  | unclosed _ _ ih => rw [Segment.join_plain, ih]
  | span _ hm _ ih => rw [Segment.join_span, hm, ih]

theorem Paired.text_of_mem {t : Text} {segs : List (Segment Match)} (h : Paired t segs)
    {m : Match} (hmem : m ∈ Segment.spans segs) :
    ∃ content, '\'' ∉ content ∧ m.text = inQuotes content := by
  induction h with
  | nil => simp at hmem
  | other _ _ ih => exact ih hmem
  | unclosed _ _ ih => exact ih hmem
  | span hcontent hm _ ih =>
    rcases List.mem_cons.mp hmem with rfl | hmem
    · exact ⟨_, hcontent, hm⟩
    · exact ih hmem

/-- With the spans cut out, the text outside quotes is left. -/
theorem Paired.join_nil {t : Text} {segs : List (Segment Match)} (h : Paired t segs) :
    Segment.join (fun _ => []) segs = outsideQuotes t := by
  induction h with
  | nil => rfl
  | other hc _ ih => rw [Segment.join_plain, ih, outsideQuotes_cons hc]
  | unclosed hnone _ ih => rw [Segment.join_plain, ih, outsideQuotes_unclosed hnone]
  | span hcontent _ _ ih =>
    rw [Segment.join_span, ih, outsideQuotes_inQuotes_append hcontent, List.nil_append]

theorem replaceAll_literal (t : Text) :
    Grammar.literal.replaceAll (fun _ => []) t = outsideQuotes t :=
  (paired_segments t).join_nil

/-- Without quotes there are no spans. -/
theorem Paired.eq_map_plain {t : Text} {segs : List (Segment Match)} (h : Paired t segs)
    (hnone : '\'' ∉ t) : segs = t.map .plain := by
  induction h with
  | nil => rfl
  | other _ _ ih =>
    rw [ih fun hmem => hnone (List.mem_cons_of_mem _ hmem)]
    rfl
  | unclosed _ _ _ => simp at hnone
  | span _ _ _ _ => simp [inQuotes] at hnone

/-- A quote outside all spans has no quote behind it. -/
theorem Paired.unclosed_last {t : Text} {segs : List (Segment Match)} (h : Paired t segs)
    {A B : List (Segment Match)} (hsegs : segs = A ++ .plain '\'' :: B) :
    ∃ rest, '\'' ∉ rest ∧ B = rest.map .plain ∧ rest <:+ t := by
  induction h generalizing A with
  | nil => simp at hsegs
  | @other c rest segs hc _ ih =>
    cases A with
    | nil =>
      simp only [List.nil_append, List.cons.injEq, Segment.plain.injEq] at hsegs
      exact absurd hsegs.1 hc
    | cons s A =>
      simp only [List.cons_append, List.cons.injEq] at hsegs
      obtain ⟨rest', hnone, hB, hsuffix⟩ := ih hsegs.2
      exact ⟨rest', hnone, hB, hsuffix.trans (List.suffix_cons _ _)⟩
  | @unclosed rest segs hnone hrest ih =>
    cases A with
    | nil =>
      simp only [List.nil_append, List.cons.injEq, true_and] at hsegs
      exact ⟨rest, hnone, by rw [← hsegs, hrest.eq_map_plain hnone], List.suffix_cons _ _⟩
    | cons s A =>
      simp only [List.cons_append, List.cons.injEq] at hsegs
      obtain ⟨rest', hnone', hB, hsuffix⟩ := ih hsegs.2
      exact ⟨rest', hnone', hB, hsuffix.trans (List.suffix_cons _ _)⟩
  | @span content rest m segs _ _ _ ih =>
    cases A with
    | nil => simp at hsegs
    | cons s A =>
      simp only [List.cons_append, List.cons.injEq] at hsegs
      obtain ⟨rest', hnone, hB, hsuffix⟩ := ih hsegs.2
      exact ⟨rest', hnone, hB, hsuffix.trans (List.suffix_append _ _)⟩

/-! ## The pairing of quotes is unique -/

/-- What is told of a segment by its text: whether it is a character or a span, and which. -/
def Segment.textOf : Segment Match → Segment Text
  | .plain c => .plain c
  | .span m => .span m.text

theorem Segment.join_textOf (f : Text → Text) (segs : List (Segment Match)) :
    Segment.join f (segs.map Segment.textOf) = Segment.join (fun m => f m.text) segs := by
  induction segs with
  | nil => rfl
  | cons s segs ih => cases s <;> simp [Segment.textOf, ih]

theorem Segment.spans_textOf (segs : List (Segment Match)) :
    Segment.spans (segs.map Segment.textOf) = (Segment.spans segs).map Match.text := by
  induction segs with
  | nil => rfl
  | cons s segs ih => cases s <;> simp [Segment.textOf, ih]

/-- Two pairings of one text have the same texts at the same places. -/
theorem Paired.textOf_unique {t t' : Text} {segs segs' : List (Segment Match)} (h : Paired t segs)
    (h' : Paired t' segs') (heq : t = t') :
    segs.map Segment.textOf = segs'.map Segment.textOf := by
  induction h generalizing t' segs' with
  | nil =>
    cases h' with
    | nil => rfl
    | other _ _ | unclosed _ _ => simp at heq
    | span _ _ _ => simp [inQuotes] at heq
  | other hc _ ih =>
    cases h' with
    | nil => simp at heq
    | other _ hrest =>
      obtain ⟨rfl, rfl⟩ := List.cons.inj heq
      rw [List.map_cons, List.map_cons, ih hrest rfl]
    | unclosed _ _ | span _ _ _ => exact absurd (List.cons.inj heq).1 hc
  | unclosed hnone _ ih =>
    cases h' with
    | nil => simp at heq
    | other hc _ => exact absurd (List.cons.inj heq).1.symm hc
    | unclosed _ hrest =>
      obtain ⟨-, rfl⟩ := List.cons.inj heq
      rw [List.map_cons, List.map_cons, ih hrest rfl]
    | span _ _ _ =>
      obtain ⟨-, rfl⟩ := List.cons.inj heq
      simp at hnone
  | span hcontent hm _ ih =>
    cases h' with
    | nil => simp [inQuotes] at heq
    | other hc _ => exact absurd (List.cons.inj heq).1.symm hc
    | unclosed hnone _ =>
      obtain ⟨-, rfl⟩ := List.cons.inj heq
      simp at hnone
    | span hcontent' hm' hrest =>
      obtain ⟨rfl, rfl⟩ := inQuotes_append_inj hcontent hcontent' heq
      rw [List.map_cons, List.map_cons, ih hrest rfl, Segment.textOf, Segment.textOf, hm, hm']

/-! ## Texts with their literals hidden -/

/-- The text with one quote in place of each of its literals. -/
def hideLiterals (t : Text) : Text := Grammar.literal.replaceAll (fun _ => ['\'']) t

theorem Paired.hideLiterals_eq {t : Text} {segs : List (Segment Match)} (h : Paired t segs) :
    hideLiterals t = Segment.join (fun _ => ['\'']) segs := by
  rw [hideLiterals, Pattern.replaceAll, ← Segment.join_textOf (fun _ => ['\'']),
    ← Segment.join_textOf (fun _ => ['\'']), (paired_segments t).textOf_unique h rfl]

@[simp] theorem hideLiterals_nil : hideLiterals [] = [] := Paired.nil.hideLiterals_eq

theorem hideLiterals_cons {c : Char} (hc : c ≠ '\'') (t : Text) :
    hideLiterals (c :: t) = c :: hideLiterals t :=
  (Paired.other hc (paired_segments t)).hideLiterals_eq

theorem hideLiterals_unclosed {t : Text} (h : '\'' ∉ t) :
    hideLiterals ('\'' :: t) = '\'' :: hideLiterals t :=
  (Paired.unclosed h (paired_segments t)).hideLiterals_eq

theorem hideLiterals_inQuotes_append {content : Text} (h : '\'' ∉ content) (t : Text) :
    hideLiterals (inQuotes content ++ t) = '\'' :: hideLiterals t := by
  let m : Match := ⟨⟨[], inQuotes content⟩, ⟨[], []⟩, []⟩
  have hm : m.text = inQuotes content := by simp [m, Match.text, Cursor.upTo]
  exact (Paired.span h hm (paired_segments t)).hideLiterals_eq

end MutationPreview
