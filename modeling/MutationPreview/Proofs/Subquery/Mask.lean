import MutationPreview.Proofs.Subquery.Outermost
import MutationPreview.Proofs.Text.Bytes

/-!
# Masked subqueries

A masked text has spaces in place of its outermost subqueries, as many as they have bytes. So no
position counted in bytes moves (`Subquery.bytes_join_blank`), and outside the subqueries every byte
stays (`Subquery.utf8_mask`). A space is no part of a word, and neither is a bracket: the edges of
words stay where they are as well (`Subquery.head?_join_blank`, `Subquery.getLast?_join_blank`).
-/

namespace MutationPreview

namespace Segment

variable {α : Type} {f g : α → Text} {segs : List (Segment α)}

theorem bytes_join_congr (h : ∀ a, Text.bytes (f a) = Text.bytes (g a)) (segs : List (Segment α)) :
    Text.bytes (join f segs) = Text.bytes (join g segs) := by
  induction segs with
  | nil => rfl
  | cons s segs ih =>
    cases s with
    | plain c => rw [join_plain, join_plain, Text.bytes, Text.bytes, ih]
    | span a => rw [join_span, join_span, Text.bytes_append, Text.bytes_append, ih, h]

/-- Outside the spans, two covers of the same length in bytes give the same bytes. -/
theorem utf8_join_congr (h : ∀ a, Text.bytes (f a) = Text.bytes (g a)) (offset k : Nat)
    (hk : ∀ p ∈ byteSpans g offset segs, offset + k < p.1 ∨ p.2 ≤ offset + k) :
    (Text.utf8 (join f segs))[k]? = (Text.utf8 (join g segs))[k]? := by
  induction segs generalizing offset k with
  | nil => rfl
  | cons s segs ih =>
    cases s with
    | plain c =>
      have hcons : ∀ t : Text, Text.utf8 (c :: t) = String.utf8EncodeChar c ++ Text.utf8 t :=
        fun t => List.flatMap_cons
      rw [join_plain, join_plain, hcons, hcons]
      by_cases hlt : k < (String.utf8EncodeChar c).length
      · rw [List.getElem?_append_left hlt, List.getElem?_append_left hlt]
      · have hle : (String.utf8EncodeChar c).length ≤ k := Nat.le_of_not_lt hlt
        rw [List.getElem?_append_right hle, List.getElem?_append_right hle]
        rw [String.length_utf8EncodeChar] at hle ⊢
        refine ih (offset + c.utf8Size) _ fun p hp => ?_
        have houtside := hk p hp
        omega
    | span a =>
      rw [byteSpans, List.forall_mem_cons] at hk
      have hle : Text.bytes (g a) ≤ k := by
        have houtside := hk.1
        omega
      rw [join_span, join_span, Text.utf8_append, Text.utf8_append,
        List.getElem?_append_right (by rw [Text.length_utf8, h]; exact hle),
        List.getElem?_append_right (by rw [Text.length_utf8]; exact hle), Text.length_utf8,
        Text.length_utf8, h]
      refine ih (offset + Text.bytes (g a)) _ fun p hp => ?_
      have houtside := hk.2 p hp
      omega

/-- Two kinds of spans start alike as far as a class goes, and so do the joined texts. -/
theorem head?_any_join_congr {p : Char → Bool}
    (h : ∀ a, ∃ c d v w, f a = c :: v ∧ g a = d :: w ∧ p c = p d) :
    (join f segs).head?.any p = (join g segs).head?.any p := by
  cases segs with
  | nil => rfl
  | cons s segs =>
    cases s with
    | plain c => rfl
    | span a =>
      obtain ⟨c, d, v, w, hf, hg, hcd⟩ := h a
      rw [join_span, join_span, hf, hg]
      simpa using hcd

/-- Likewise for their ends. -/
theorem getLast?_any_join_congr {p : Char → Bool}
    (h : ∀ a, ∃ v c w d, f a = v ++ [c] ∧ g a = w ++ [d] ∧ p c = p d) :
    (join f segs).getLast?.any p = (join g segs).getLast?.any p := by
  rcases List.eq_nil_or_concat' segs with rfl | ⟨segs, s, rfl⟩
  · rfl
  · rw [join_append, join_append]
    cases s with
    | plain c => simp
    | span a =>
      obtain ⟨v, c, w, d, hf, hg, hcd⟩ := h a
      rw [join_span, join_span, hf, hg]
      simpa [← List.append_assoc] using hcd

end Segment

namespace Subquery

/-- The spaces that stand for a subquery with a given body. -/
def blank (body : Text) : Text := List.replicate (Text.bytes (cover body)) ' '

theorem mask_eq (t : Text) : mask t = Segment.join blank (segments t) := rfl

@[simp] theorem bytes_blank (body : Text) : Text.bytes (blank body) = Text.bytes (cover body) := by
  rw [blank]
  induction Text.bytes (cover body) with
  | zero => rfl
  | succ n ih => rw [List.replicate_succ, Text.bytes, ih, show ' '.utf8Size = 1 from rfl, Nat.add_comm]

/-- The spaces for the two brackets are the first and the last one. -/
theorem exists_blank (body : Text) : ∃ n, blank body = ' ' :: (List.replicate n ' ' ++ [' ']) := by
  refine ⟨Text.bytes body, ?_⟩
  have hbytes : Text.bytes (cover body) = Text.bytes body + 1 + 1 := by
    rw [cover, List.cons_append, Text.bytes, Text.bytes_append, show '('.utf8Size = 1 from rfl]
    exact Nat.add_comm _ _
  rw [blank, hbytes, List.replicate_succ, List.replicate_succ']

theorem bytes_join_blank (segs : List (Segment Text)) :
    Text.bytes (Segment.join blank segs) = Text.bytes (Segment.join cover segs) :=
  Segment.bytes_join_congr bytes_blank segs

theorem head?_join_blank (segs : List (Segment Text)) :
    (Segment.join blank segs).head?.any isWord = (Segment.join cover segs).head?.any isWord := by
  refine Segment.head?_any_join_congr fun body => ?_
  obtain ⟨n, hn⟩ := exists_blank body
  exact ⟨' ', '(', _, body ++ [')'], hn, rfl, by decide⟩

theorem getLast?_join_blank (segs : List (Segment Text)) :
    (Segment.join blank segs).getLast?.any isWord =
      (Segment.join cover segs).getLast?.any isWord := by
  refine Segment.getLast?_any_join_congr fun body => ?_
  obtain ⟨n, hn⟩ := exists_blank body
  exact ⟨' ' :: List.replicate n ' ', ' ', '(' :: body, ')', hn, rfl, by decide⟩

/-- Masking keeps the length in bytes, and every byte outside the outermost subqueries. -/
theorem utf8_mask (t : Text) :
    (Text.utf8 (mask t)).length = (Text.utf8 t).length ∧
      ∀ k, (∀ p ∈ Segment.byteSpans cover 0 (segments t), k < p.1 ∨ p.2 ≤ k) →
        (Text.utf8 (mask t))[k]? = (Text.utf8 t)[k]? := by
  have hjoin : Segment.join cover (segments t) = t := join_segments t
  constructor
  · rw [Text.length_utf8, Text.length_utf8, mask_eq, bytes_join_blank, hjoin]
  · intro k hk
    have hsame : (Text.utf8 (mask t))[k]? = (Text.utf8 (Segment.join cover (segments t)))[k]? :=
      Segment.utf8_join_congr bytes_blank 0 k (by simpa using hk)
    rw [hjoin] at hsame
    exact hsame

/-- A text without an opening bracket keeps its segments apart from those behind it. -/
theorem segments_append_of_notMem {u : Text} (hu : '(' ∉ u) (t : Text) :
    segments (u ++ t) = u.map .plain ++ segments t := by
  induction u with
  | nil => rfl
  | cons c u ih =>
    rw [List.mem_cons, not_or] at hu
    rw [List.cons_append, segments_char (Ne.symm hu.1), ih hu.2]
    rfl

/-- What stands before the first bracket stays. -/
theorem mask_append_of_notMem {u : Text} (hu : '(' ∉ u) (t : Text) : mask (u ++ t) = u ++ mask t := by
  rw [mask_eq, segments_append_of_notMem hu, Segment.join_append, Segment.join_map_plain, mask_eq]

end Subquery

end MutationPreview
