import Mathlib.Data.List.Infix
import MutationPreview.Proofs.Text.Segment

/-!
# Texts by their bytes

Positions in a text count the bytes of its UTF-8 form (`Text.utf8`). A position between two
characters cuts the text there (`Text.IsBoundary`); cutting the text and cutting its bytes is then
the same (`Text.utf8_dropBytes`). Ascending ranges of bytes single out spans of a text, and are the
ranges of these spans (`Segment.cutAt_spec`).
-/

namespace MutationPreview

namespace Text

/-! ## Bytes -/

/-- The UTF-8 form of a text. -/
def utf8 (t : Text) : List UInt8 := t.flatMap String.utf8EncodeChar

@[simp] theorem utf8_append (a b : Text) : utf8 (a ++ b) = utf8 a ++ utf8 b := List.flatMap_append

@[simp] theorem length_utf8 (t : Text) : (utf8 t).length = bytes t := by
  induction t with
  | nil => rfl
  | cons c t ih =>
    rw [utf8, List.flatMap_cons, List.length_append, String.length_utf8EncodeChar, bytes, ← ih, utf8]

theorem bytes_eq_zero_iff {t : Text} : bytes t = 0 ↔ t = [] := by
  cases t with
  | nil => simp [bytes]
  | cons c t =>
    have hpos := c.utf8Size_pos
    simp only [bytes, List.cons_ne_nil, iff_false]
    omega

@[simp] theorem bytes_reverse (t : Text) : bytes t.reverse = bytes t := by
  induction t with
  | nil => rfl
  | cons c t ih => rw [List.reverse_cons, bytes_append, ih, bytes, bytes, bytes, Nat.add_zero, Nat.add_comm]

/-- Of two starts of one text, the one with fewer bytes starts the other one. -/
theorem prefix_of_bytes_le {u v t : Text} (hu : u <+: t) (hv : v <+: t) (h : bytes u ≤ bytes v) :
    u <+: v := by
  rcases List.prefix_or_prefix_of_prefix hu hv with huv | ⟨w, rfl⟩
  · exact huv
  · rw [bytes_append] at h
    have hw : w = [] := bytes_eq_zero_iff.mp (by omega)
    rw [hw, List.append_nil]

/-! ## Cutting at a byte -/

/-- The characters that cover the first `n` bytes. -/
def takeBytes : Text → Nat → Text
  | [], _ => []
  | c :: rest, n => if n = 0 then [] else c :: takeBytes rest (n - c.utf8Size)

@[simp] theorem dropBytes_append (x y : Text) : dropBytes (x ++ y) (bytes x) = y := by
  induction x with
  | nil => cases y <;> rfl
  | cons c x ih =>
    have hpos := c.utf8Size_pos
    rw [List.cons_append, dropBytes, bytes, if_neg (by omega), Nat.add_sub_cancel_left, ih]

@[simp] theorem takeBytes_append (x y : Text) : takeBytes (x ++ y) (bytes x) = x := by
  induction x with
  | nil => cases y <;> rfl
  | cons c x ih =>
    have hpos := c.utf8Size_pos
    rw [List.cons_append, takeBytes, bytes, if_neg (by omega), Nat.add_sub_cancel_left, ih]

/-- Whether a position counted in bytes lies between two characters or at an end of the text. -/
def IsBoundary (t : Text) (n : Nat) : Prop := ∃ front, front <+: t ∧ bytes front = n

instance (t : Text) (n : Nat) : Decidable (IsBoundary t n) :=
  decidable_of_iff (∃ front ∈ t.inits, bytes front = n) (by simp only [IsBoundary, List.mem_inits])

/-- A cut between two characters gives the same bytes as a cut of the UTF-8 form. -/
theorem utf8_dropBytes {t : Text} {n : Nat} (h : IsBoundary t n) :
    utf8 (dropBytes t n) = (utf8 t).drop n := by
  obtain ⟨front, ⟨back, rfl⟩, rfl⟩ := h
  rw [dropBytes_append, utf8_append, List.drop_left' (length_utf8 front)]

/-- The text from one position up to another. -/
def slice (t : Text) (lo hi : Nat) : Text := takeBytes (dropBytes t lo) (hi - lo)

theorem slice_append (x y z : Text) : slice (x ++ (y ++ z)) (bytes x) (bytes (x ++ y)) = y := by
  rw [slice, dropBytes_append, bytes_append, Nat.add_sub_cancel_left, takeBytes_append]

/-! ## Ranges -/

/-- Whether ranges of bytes single out spans of a text: they ascend without overlapping, none is
empty, and none divides a character. -/
structure AreRanges (t : Text) (ranges : List (Nat × Nat)) : Prop where
  ascending : ranges.Pairwise fun p q => p.2 ≤ q.1
  nonempty : ∀ p ∈ ranges, p.1 < p.2
  boundary : ∀ p ∈ ranges, IsBoundary t p.1 ∧ IsBoundary t p.2

theorem AreRanges.tail {t : Text} {p : Nat × Nat} {ranges : List (Nat × Nat)}
    (h : AreRanges t (p :: ranges)) : AreRanges t ranges where
  ascending := h.ascending.of_cons
  nonempty q hq := h.nonempty q (List.mem_cons_of_mem _ hq)
  boundary q hq := h.boundary q (List.mem_cons_of_mem _ hq)

/-- The first range divides what is left of the text. -/
theorem AreRanges.exists_split {front back : Text} {lo hi : Nat} {ranges : List (Nat × Nat)}
    (h : AreRanges (front ++ back) ((lo, hi) :: ranges)) (hfront : bytes front ≤ lo) :
    ∃ gap body rest, back = gap ++ (body ++ rest) ∧ lo = bytes (front ++ gap) ∧
      hi = bytes (front ++ gap ++ body) := by
  obtain ⟨⟨upToLo, hlo, rfl⟩, ⟨upToHi, hhi, rfl⟩⟩ := h.boundary (lo, hi) List.mem_cons_self
  have hle := Nat.le_of_lt (h.nonempty _ List.mem_cons_self)
  obtain ⟨gap, rfl⟩ := prefix_of_bytes_le (List.prefix_append front back) hlo hfront
  obtain ⟨body, rfl⟩ := prefix_of_bytes_le hlo hhi hle
  obtain ⟨rest, hrest⟩ := hhi
  refine ⟨gap, body, rest, ?_, rfl, rfl⟩
  rw [List.append_assoc, List.append_assoc] at hrest
  exact (List.append_cancel_left hrest).symm

end Text

namespace Segment

/-- What is left of a text from byte `last` on, with the ranges as its spans. -/
def cutFrom (t : Text) : (last : Nat) → (ranges : List (Nat × Nat)) → List (Segment Text)
  | last, [] => (Text.dropBytes t last).map plain
  | last, (lo, hi) :: ranges =>
    (Text.slice t last lo).map plain ++ span (Text.slice t lo hi) :: cutFrom t hi ranges

/-- A text with ranges of its bytes as spans. -/
def cutAt (t : Text) (ranges : List (Nat × Nat)) : List (Segment Text) := cutFrom t 0 ranges

theorem cutFrom_spec (front back : Text) {ranges : List (Nat × Nat)}
    (h : Text.AreRanges (front ++ back) ranges) (hfront : ∀ p ∈ ranges, Text.bytes front ≤ p.1) :
    join id (cutFrom (front ++ back) (Text.bytes front) ranges) = back ∧
      byteSpans id (Text.bytes front) (cutFrom (front ++ back) (Text.bytes front) ranges) =
        ranges := by
  induction ranges generalizing front back with
  | nil => simp [cutFrom]
  | cons p ranges ih =>
    obtain ⟨lo, hi⟩ := p
    obtain ⟨gap, body, rest, rfl, rfl, rfl⟩ := h.exists_split (hfront (lo, hi) List.mem_cons_self)
    have hgap : Text.slice (front ++ (gap ++ (body ++ rest))) (Text.bytes front)
        (Text.bytes (front ++ gap)) = gap := Text.slice_append front gap (body ++ rest)
    have hbody : Text.slice (front ++ (gap ++ (body ++ rest))) (Text.bytes (front ++ gap))
        (Text.bytes (front ++ gap ++ body)) = body := by
      rw [← List.append_assoc, Text.slice_append]
    have hassoc : front ++ (gap ++ (body ++ rest)) = front ++ gap ++ body ++ rest := by simp
    obtain ⟨hjoin, hspans⟩ := ih (front ++ gap ++ body) rest (hassoc ▸ h.tail)
      fun q hq => (List.pairwise_cons.mp h.ascending).1 q hq
    rw [cutFrom, hgap, hbody, hassoc]
    constructor
    · rw [join_append, join_map_plain, join_span, hjoin, id_eq]
    · rw [byteSpans_append, byteSpans_map_plain, join_map_plain, byteSpans, id_eq,
        ← Text.bytes_append, ← Text.bytes_append, hspans, List.nil_append]

/-- Cutting at ranges keeps the text, and the spans lie where the ranges do. -/
theorem cutAt_spec {t : Text} {ranges : List (Nat × Nat)} (h : t.AreRanges ranges) :
    join id (cutAt t ranges) = t ∧ byteSpans id 0 (cutAt t ranges) = ranges :=
  cutFrom_spec [] t h fun _ _ => Nat.zero_le _

end Segment

end MutationPreview
