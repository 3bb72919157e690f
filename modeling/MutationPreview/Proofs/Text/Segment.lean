import MutationPreview.Proofs.Text.Basic
import MutationPreview.Text.Segment

/-!
# Segments and the text that they make up

A text put together from segments is read back here: where a given stretch of the text can lie. If
no span starts or ends with a character of the stretch, the stretch lies between the spans or
strictly inside one of them (`Segment.split_join`).
-/

namespace MutationPreview

namespace Segment

variable {α β : Type}

@[simp] theorem join_nil (cover : α → Text) : join cover [] = [] := rfl

@[simp] theorem join_plain (cover : α → Text) (c : Char) (segs : List (Segment α)) :
    join cover (plain c :: segs) = c :: join cover segs := rfl

@[simp] theorem join_span (cover : α → Text) (a : α) (segs : List (Segment α)) :
    join cover (span a :: segs) = cover a ++ join cover segs := rfl

@[simp] theorem join_map_plain (cover : α → Text) (t : Text) :
    join cover (t.map plain) = t := by
  induction t with
  | nil => rfl
  | cons c t ih => simp [ih]

@[simp] theorem spans_nil : spans ([] : List (Segment α)) = [] := rfl

@[simp] theorem spans_plain (c : Char) (segs : List (Segment α)) :
    spans (plain c :: segs) = spans segs := rfl

@[simp] theorem spans_span (a : α) (segs : List (Segment α)) :
    spans (span a :: segs) = a :: spans segs := rfl

@[simp] theorem spans_append (a b : List (Segment α)) : spans (a ++ b) = spans a ++ spans b := by
  induction a with
  | nil => rfl
  | cons s a ih => cases s <;> simp [ih]

@[simp] theorem spans_map_plain (t : Text) : spans (t.map plain : List (Segment α)) = [] := by
  induction t with
  | nil => rfl
  | cons c t ih => simp [ih]

@[simp] theorem join_map_span (cover : α → Text) (as : List α) :
    join cover (as.map span) = as.flatMap cover := by
  induction as with
  | nil => rfl
  | cons a as ih => simp [ih]

@[simp] theorem spans_map_span (as : List α) : spans (as.map span) = as := by
  induction as with
  | nil => rfl
  | cons a as ih => simp [ih]

theorem mem_spans {a : α} {segs : List (Segment α)} : a ∈ spans segs ↔ span a ∈ segs := by
  induction segs with
  | nil => simp
  | cons s segs ih => cases s <;> simp [ih]

/-- A list of segments without spans is its text. -/
theorem eq_map_plain {segs : List (Segment α)} (cover : α → Text) (h : spans segs = []) :
    segs = (join cover segs).map plain := by
  induction segs with
  | nil => rfl
  | cons s segs ih =>
    cases s with
    | plain c =>
      rw [join_plain, List.map_cons, ← ih h]
    | span a => simp at h

theorem mem_join {cover : α → Text} {segs : List (Segment α)} {c : Char} :
    c ∈ join cover segs ↔ plain c ∈ segs ∨ ∃ a ∈ spans segs, c ∈ cover a := by
  induction segs with
  | nil => simp
  | cons s segs ih =>
    cases s with
    | plain d => simp [ih, or_assoc]
    | span a =>
      simp only [join_span, List.mem_append, ih, List.mem_cons, reduceCtorEq, false_or, spans_span,
        exists_eq_or_imp]
      exact or_left_comm

/-- A character at the end of a text that no span ends with is a segment of its own. -/
theorem exists_concat_plain {cover : α → Text} {segs : List (Segment α)} {u : Text} {x : Char}
    (hcover : ∀ a ∈ spans segs, ∃ v c, cover a = v ++ [c] ∧ c ≠ x)
    (h : join cover segs = u ++ [x]) :
    ∃ segs', segs = segs' ++ [plain x] ∧ join cover segs' = u := by
  rcases List.eq_nil_or_concat segs with rfl | ⟨segs', s, rfl⟩
  · simp at h
  · rw [List.concat_eq_append, join_append] at h
    cases s with
    | plain c =>
      obtain ⟨hjoin, hc⟩ := List.append_inj' h rfl
      obtain rfl : c = x := by simpa using hc
      exact ⟨segs', by simp, hjoin⟩
    | span a =>
      obtain ⟨v, c, hv, hc⟩ := hcover a (by simp)
      rw [join_span, hv, join_nil, List.append_nil, ← List.append_assoc] at h
      obtain ⟨-, hlast⟩ := List.append_inj' h rfl
      exact absurd (by simpa using hlast) hc

/-- The text of a span is a stretch of the whole text. -/
theorem infix_join (cover : α → Text) {segs : List (Segment α)} {a : α} (h : a ∈ spans segs) :
    cover a <:+: join cover segs := by
  obtain ⟨A, B, rfl⟩ := List.append_of_mem (mem_spans.mp h)
  refine ⟨join cover A, join cover B, ?_⟩
  rw [join_append, join_span, List.append_assoc]

/-- The text before the first span. -/
def firstGap : List (Segment α) → Text
  | [] => []
  | plain c :: segs => c :: firstGap segs
  | span _ :: _ => []

/-- The texts between the spans and after the last. -/
def laterGaps : List (Segment α) → List Text
  | [] => []
  | plain _ :: segs => laterGaps segs
  | span _ :: segs => firstGap segs :: laterGaps segs

theorem gaps_eq (segs : List (Segment α)) : gaps segs = firstGap segs :: laterGaps segs := by
  induction segs with
  | nil => rfl
  | cons s segs ih => cases s <;> simp [gaps, firstGap, laterGaps, ih]

theorem firstGap_prefix_join (cover : α → Text) (segs : List (Segment α)) :
    firstGap segs <+: join cover segs := by
  induction segs with
  | nil => exact List.prefix_rfl
  | cons s segs ih =>
    cases s with
    | plain c => exact List.cons_prefix_cons.mpr ⟨rfl, ih⟩
    | span a => exact List.nil_prefix

@[simp] theorem gaps_map_plain (t : Text) : gaps (t.map plain : List (Segment α)) = [t] := by
  induction t with
  | nil => rfl
  | cons c t ih => simp [gaps, ih]

/-- Two covers that agree on the spans give the same text. -/
theorem join_congr {f g : α → Text} {segs : List (Segment α)}
    (h : ∀ a ∈ spans segs, f a = g a) : join f segs = join g segs := by
  induction segs with
  | nil => rfl
  | cons s segs ih =>
    cases s with
    | plain c => rw [join_plain, join_plain, ih h]
    | span a =>
      rw [join_span, join_span, h a (by simp), ih fun b hb => h b (by simp [hb])]

theorem join_eq_nil_iff {cover : α → Text} {segs : List (Segment α)}
    (hcover : ∀ a ∈ spans segs, cover a ≠ []) : join cover segs = [] ↔ segs = [] := by
  cases segs with
  | nil => simp
  | cons s segs =>
    cases s with
    | plain c => simp
    | span a =>
      have hne := hcover a (by simp)
      simp [hne]

/-- Every list of segments starts with a run of characters, up to the first span or the end. -/
theorem exists_run (segs : List (Segment α)) :
    ∃ (run : Text) (tail : List (Segment α)), segs = run.map plain ++ tail ∧
      (tail = [] ∨ ∃ a rest, tail = span a :: rest) := by
  induction segs with
  | nil => exact ⟨[], [], rfl, Or.inl rfl⟩
  | cons s segs ih =>
    cases s with
    | plain c =>
      obtain ⟨run, tail, rfl, htail⟩ := ih
      exact ⟨c :: run, tail, rfl, htail⟩
    | span a => exact ⟨[], span a :: segs, rfl, Or.inr ⟨a, segs, rfl⟩⟩

/-! ## Where a stretch of the text lies -/

/-- A text without `c` that starts a text ends before its first `c`. -/
theorem prefix_of_notMem {w y z rest : Text} {c : Char} (hc : c ∉ w)
    (h : w ++ y = z ++ c :: rest) : ∃ v, z = w ++ v ∧ y = v ++ c :: rest := by
  rcases List.append_eq_append_iff.mp h with ⟨v, rfl, hy⟩ | ⟨v, rfl, hc'⟩
  · exact ⟨v, rfl, hy⟩
  · cases v with
    | nil => exact ⟨[], by simp, hc'.symm⟩
    | cons d v =>
      simp only [List.cons_append, List.cons.injEq] at hc'
      exact absurd (by simp [hc'.1]) hc

/-- A character of a joined text lies between the spans or in one. -/
theorem split_join_at {cover : α → Text} {c : Char} {segs : List (Segment α)} {x y : Text}
    (h : join cover segs = x ++ c :: y) :
    (∃ A B, segs = A ++ plain c :: B ∧ x = join cover A ∧ y = join cover B) ∨
      ∃ A a B p q, segs = A ++ span a :: B ∧ cover a = p ++ c :: q ∧ x = join cover A ++ p ∧
        y = q ++ join cover B := by
  induction segs generalizing x with
  | nil => simp at h
  | cons s segs ih =>
    -- what is found behind the first segment is found in the whole list
    have lift : ∀ x', x = join cover [s] ++ x' → join cover segs = x' ++ c :: y →
        (∃ A B, s :: segs = A ++ plain c :: B ∧ x = join cover A ∧ y = join cover B) ∨
          ∃ A a B p q, s :: segs = A ++ span a :: B ∧ cover a = p ++ c :: q ∧
            x = join cover A ++ p ∧ y = q ++ join cover B := by
      intro x' hx' hjoin
      rcases ih hjoin with ⟨A, B, rfl, rfl, hy⟩ | ⟨A, a, B, p, q, rfl, ha, rfl, hy⟩
      · refine Or.inl ⟨s :: A, B, by simp, ?_, hy⟩
        rw [hx', ← join_append, List.singleton_append]
      · refine Or.inr ⟨s :: A, a, B, p, q, by simp, ha, ?_, hy⟩
        rw [hx', ← List.append_assoc, ← join_append, List.singleton_append]
    cases s with
    | plain d =>
      cases x with
      | nil =>
        rw [join_plain, List.nil_append, List.cons.injEq] at h
        obtain ⟨rfl, rfl⟩ := h
        exact Or.inl ⟨[], segs, rfl, rfl, rfl⟩
      | cons e x =>
        rw [join_plain, List.cons_append, List.cons.injEq] at h
        obtain ⟨rfl, h⟩ := h
        exact lift x rfl h
    | span a =>
      rw [join_span] at h
      rcases Text.append_cases h with ⟨v, rfl, hv⟩ | ⟨d, v, ha, hv⟩
      · exact lift v (by simp) hv
      · rw [List.cons_append, List.cons.injEq] at hv
        obtain ⟨rfl, rfl⟩ := hv
        exact Or.inr ⟨[], a, segs, x, v, rfl, ha, rfl, rfl⟩

/-- A character that no span has lies between the spans. -/
theorem split_join_char {cover : α → Text} {c : Char} {segs : List (Segment α)} {x y : Text}
    (hspan : ∀ a ∈ spans segs, c ∉ cover a) (h : join cover segs = x ++ c :: y) :
    ∃ A B, segs = A ++ plain c :: B ∧ x = join cover A ∧ y = join cover B := by
  rcases split_join_at h with hplain | ⟨A, a, B, p, q, rfl, ha, -, -⟩
  · exact hplain
  · exact absurd (by simp [ha]) (hspan a (by simp))

section Split

variable {cover : α → Text} {w : Text}

/-- A stretch at the start of the text, if no span starts with one of its characters. -/
theorem split_join_start {segs : List (Segment α)} {y : Text}
    (hspan : ∀ a ∈ spans segs, ∃ o rest, cover a = o :: rest ∧ o ∉ w)
    (h : join cover segs = w ++ y) :
    ∃ tail, segs = w.map plain ++ tail ∧ y = join cover tail := by
  induction w generalizing segs with
  | nil => exact ⟨segs, rfl, h.symm⟩
  | cons d w ih =>
    cases segs with
    | nil => simp at h
    | cons s segs =>
      cases s with
      | plain c =>
        simp only [join_plain, List.cons_append, List.cons.injEq] at h
        obtain ⟨rfl, h⟩ := h
        have hspan' : ∀ a ∈ spans segs, ∃ o rest, cover a = o :: rest ∧ o ∉ w := by
          intro a ha
          obtain ⟨o, rest, hcover, ho⟩ := hspan a ha
          exact ⟨o, rest, hcover, fun hmem => ho (List.mem_cons_of_mem _ hmem)⟩
        obtain ⟨tail, rfl, hy⟩ := ih hspan' h
        exact ⟨tail, rfl, hy⟩
      | span a =>
        obtain ⟨o, rest, hcover, ho⟩ := hspan a (by simp)
        rw [join_span, hcover, List.cons_append, List.cons_append, List.cons.injEq] at h
        exact absurd (by simp [h.1]) ho

/-- A stretch of the text lies between the spans or strictly inside one, if no span starts or ends
with one of its characters. -/
theorem split_join {segs : List (Segment α)} {x y : Text} (hw : w ≠ [])
    (hspan : ∀ a ∈ spans segs, ∃ o body c, cover a = o :: (body ++ [c]) ∧ o ∉ w ∧ c ∉ w)
    (h : join cover segs = x ++ w ++ y) :
    (∃ A B, segs = A ++ w.map plain ++ B ∧ x = join cover A ∧ y = join cover B) ∨
      ∃ A a B o u v c, segs = A ++ span a :: B ∧ cover a = o :: (u ++ w ++ v ++ [c]) ∧
        x = join cover A ++ o :: u ∧ y = v ++ c :: join cover B := by
  obtain ⟨d, w, rfl⟩ := List.exists_cons_of_ne_nil hw
  rw [List.append_assoc, List.cons_append] at h
  -- where its first character stands settles the rest
  rcases split_join_at h with ⟨A, B, rfl, rfl, hy⟩ | ⟨A, a, B, p, q, rfl, ha, rfl, hy⟩
  · have hstart : ∀ a ∈ spans B, ∃ o rest, cover a = o :: rest ∧ o ∉ w := by
      intro a ha
      obtain ⟨o, body, e, hcover, ho, -⟩ := hspan a (by simp [ha])
      exact ⟨o, body ++ [e], hcover, fun hmem => ho (by simp [hmem])⟩
    obtain ⟨tail, rfl, rfl⟩ := split_join_start hstart hy.symm
    exact Or.inl ⟨A, tail, by simp, rfl, rfl⟩
  · obtain ⟨o, body, e, hcover, ho, he⟩ := hspan a (by simp)
    obtain ⟨u, rfl⟩ : ∃ u, p = o :: u := by
      cases p with
      | nil =>
        rw [hcover, List.nil_append, List.cons.injEq] at ha
        exact absurd (by simp [ha.1]) ho
      | cons o' u =>
        rw [hcover, List.cons_append, List.cons.injEq] at ha
        exact ⟨u, by rw [ha.1]⟩
    obtain ⟨q, rfl⟩ : ∃ q', q = q' ++ [e] := by
      rw [hcover, ← List.cons_append] at ha
      rcases List.eq_nil_or_concat q with rfl | ⟨q', e', rfl⟩
      · obtain rfl : e = d := by simpa using List.append_inj_right' ha rfl
        exact absurd (by simp) he
      · rw [List.concat_eq_append, ← List.cons_append, ← List.append_assoc] at ha
        obtain rfl : e = e' := by simpa using List.append_inj_right' ha rfl
        exact ⟨q', List.concat_eq_append⟩
    -- the span reaches past the stretch, because its last character is none of it
    have hew : e ∉ w := fun hmem => he (by simp [hmem])
    obtain ⟨v, rfl, rfl⟩ := prefix_of_notMem hew (by simpa using hy)
    exact Or.inr ⟨A, a, B, o, u, v, e, rfl, by simpa using ha, rfl, rfl⟩

end Split

/-! ## Where the spans lie -/

theorem byteSpans_append (cover : α → Text) (A B : List (Segment α)) (offset : Nat) :
    byteSpans cover offset (A ++ B) =
      byteSpans cover offset A ++ byteSpans cover (offset + Text.bytes (join cover A)) B := by
  induction A generalizing offset with
  | nil => rfl
  | cons s A ih =>
    cases s with
    | plain c =>
      rw [List.cons_append, byteSpans, byteSpans, ih, join_plain, Text.bytes, Nat.add_assoc]
    | span a =>
      rw [List.cons_append, byteSpans, byteSpans, ih, join_span, Text.bytes_append, Nat.add_assoc]
      rfl

@[simp] theorem byteSpans_map_plain (cover : α → Text) (offset : Nat) (t : Text) :
    byteSpans cover offset (t.map plain) = [] := by
  induction t generalizing offset with
  | nil => rfl
  | cons c t ih => exact ih _

/-- The first offset of a span counts the text before it, and the last one the text of the span as
well. -/
theorem mem_byteSpans {cover : α → Text} {offset lo hi : Nat} {segs : List (Segment α)} :
    (lo, hi) ∈ byteSpans cover offset segs ↔ ∃ A a B, segs = A ++ span a :: B ∧
      lo = offset + Text.bytes (join cover A) ∧
      hi = offset + Text.bytes (join cover A ++ cover a) := by
  constructor
  · induction segs generalizing offset with
    | nil => simp [byteSpans]
    | cons s segs ih =>
      cases s with
      | plain c =>
        intro h
        obtain ⟨A, a, B, rfl, hlo, hhi⟩ := ih h
        refine ⟨plain c :: A, a, B, rfl, ?_, ?_⟩
        · rw [hlo, join_plain, Text.bytes, Nat.add_assoc]
        · rw [hhi, join_plain, List.cons_append, Text.bytes, Nat.add_assoc]
      | span b =>
        intro h
        rw [byteSpans, List.mem_cons, Prod.mk.injEq] at h
        rcases h with ⟨rfl, rfl⟩ | h
        · exact ⟨[], b, segs, rfl, by simp [Text.bytes], by simp⟩
        · obtain ⟨A, a, B, rfl, hlo, hhi⟩ := ih h
          refine ⟨span b :: A, a, B, rfl, ?_, ?_⟩
          · rw [hlo, join_span, Text.bytes_append, Nat.add_assoc]
          · rw [hhi, join_span, List.append_assoc, Text.bytes_append (cover b), Nat.add_assoc]
  · rintro ⟨A, a, B, rfl, rfl, rfl⟩
    rw [byteSpans_append, byteSpans, Text.bytes_append, Nat.add_assoc]
    simp

/-- The spans are disjoint, and their offsets go up with their order. -/
theorem pairwise_byteSpans (cover : α → Text) (offset : Nat) (segs : List (Segment α)) :
    (byteSpans cover offset segs).Pairwise fun p q => p.2 ≤ q.1 := by
  induction segs generalizing offset with
  | nil => exact List.Pairwise.nil
  | cons s segs ih =>
    cases s with
    | plain c => exact ih _
    | span a =>
      refine List.Pairwise.cons ?_ (ih _)
      rintro ⟨lo, hi⟩ hmem
      obtain ⟨A, b, B, -, rfl, -⟩ := mem_byteSpans.mp hmem
      exact Nat.le_add_right _ _

end Segment

end MutationPreview
