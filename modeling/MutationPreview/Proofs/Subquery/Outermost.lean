import MutationPreview.Proofs.Text.Brackets
import MutationPreview.Proofs.Text.Segment
import MutationPreview.Subquery

/-!
# Outermost subqueries

The scan goes through a text once, with a frame for each bracket still open. What it singles out is
said here without the scan: the pairs of matched brackets that open a select and lie in no other such
pair (`Subquery.IsOutermost`). The spans of the scan are these, in order and by their byte offsets
(`Subquery.byteSpans_segments_iff`).

The scan of a balanced text only adds segments to what it has (`Scan.run_balanced`), and so the
segments of a text are known from how the text is put together at its brackets (`segments_char`,
`segments_pair`, `segments_opened`). From there on the scan is not opened again.
-/

namespace MutationPreview

/-! ## What opens a select -/

/-- Only the text up to a closing bracket decides whether a bracket opens a select. -/
theorem opensSelect_closed (u v : Text) :
    opensSelect (u ++ ')' :: v) = opensSelect (u ++ [')']) := by
  have hnone : ∀ {w x : Text}, w.length < 6 →
      Text.sameAscii ((w ++ ')' :: x).take 6) "select".toList = false := by
    intro w x hw
    have hmem : ')' ∈ (w ++ ')' :: x).take 6 := by
      rw [List.take_append, show 6 - w.length = (5 - w.length) + 1 by omega]
      simp
    rw [Text.sameAscii, beq_eq_false_iff_ne]
    intro heq
    have hletter := List.mem_map_of_mem (f := Char.toLower) hmem
    rw [heq] at hletter
    exact absurd hletter (by decide)
  have hstart : ∀ x, (u ++ ')' :: x).dropWhile isBlank = u.dropWhile isBlank ++ ')' :: x := by
    intro x
    rw [List.dropWhile_append]
    split
    · rename_i hblank
      rw [List.isEmpty_iff.mp hblank, List.dropWhile_cons_of_neg (by decide)]
      rfl
    · rfl
  unfold opensSelect
  simp only [hstart]
  generalize u.dropWhile isBlank = w
  by_cases hw : w.length < 6
  · rw [hnone hw, hnone hw]
    rfl
  · have hlen : 6 ≤ w.length := by omega
    rw [List.take_append_of_le_length hlen, List.take_append_of_le_length hlen,
      List.drop_append_of_le_length hlen, List.drop_append_of_le_length hlen, List.head?_append,
      List.head?_append]
    rfl

namespace Subquery

/-! ## Scanning balanced texts -/

namespace Scan

@[simp] theorem write_nil (s : Scan) : s.write [] = s := by
  rcases s with ⟨ground, _ | ⟨f, frames⟩⟩ <;> rfl

theorem write_write (s : Scan) (new more : List (Segment Text)) :
    (s.write new).write more = s.write (more ++ new) := by
  rcases s with ⟨ground, _ | ⟨f, frames⟩⟩ <;> simp [write]

theorem segments_write (s : Scan) (new : List (Segment Text)) :
    (s.write new).segments = s.segments ++ new.reverse := by
  rcases s with ⟨ground, _ | ⟨f, frames⟩⟩ <;> simp [write, segments]

theorem run_char (s : Scan) {c : Char} (hopen : c ≠ '(') (hclose : c ≠ ')') (t : Text) :
    s.run (c :: t) = (s.write [.plain c]).run t := by
  rw [run]
  unfold step
  rw [if_neg hopen, if_neg hclose]

theorem run_opened (s : Scan) (t : Text) :
    s.run ('(' :: t) = run { s with frames := ⟨opensSelect t, []⟩ :: s.frames } t := rfl

/-- A closing bracket closes the innermost frame. -/
theorem run_closing (s : Scan) (f : Frame) (t : Text) :
    run { s with frames := f :: s.frames } (')' :: t) = (s.write f.close).run t := rfl

/-- A closing bracket outside all others is an ordinary character. -/
theorem run_ground {c : Char} (hopen : c ≠ '(') (ground : List (Segment Text)) (t : Text) :
    run ⟨ground, []⟩ (c :: t) = run ⟨.plain c :: ground, []⟩ t := by
  by_cases hclose : c = ')'
  · subst hclose
    rfl
  · exact run_char _ hopen hclose t

theorem segments_opened (s : Scan) (select : Bool) :
    segments { s with frames := ⟨select, []⟩ :: s.frames } = s.segments ++ [.plain '('] := by
  simp [segments]

/-- Scanning a balanced text writes segments that depend on the text alone. -/
theorem exists_run_balanced {a : Text} (ha : Balanced a) :
    ∃ segs, ∀ (s : Scan) (t : Text), s.run (a ++ t) = (s.write segs).run t := by
  induction ha with
  | nil => exact ⟨[], fun s t => by simp⟩
  | @char c a hopen hclose _ ih =>
    obtain ⟨segs, hsegs⟩ := ih
    refine ⟨segs ++ [.plain c], fun s t => ?_⟩
    rw [List.cons_append, run_char s hopen hclose, hsegs, write_write]
  | @pair a b _ _ iha ihb =>
    obtain ⟨inner, hinner⟩ := iha
    obtain ⟨behind, hbehind⟩ := ihb
    refine ⟨behind ++ Frame.close ⟨opensSelect (a ++ [')']), inner⟩, fun s t => ?_⟩
    have hsplit : '(' :: (a ++ ')' :: b) ++ t = '(' :: (a ++ ')' :: (b ++ t)) := by simp
    rw [hsplit, run_opened, opensSelect_closed, hinner, write, List.append_nil, run_closing, hbehind,
      write_write]

end Scan

theorem segments_nil : segments [] = [] := rfl

/-- Scanning a balanced text writes its segments. -/
theorem Scan.run_balanced {a : Text} (ha : Balanced a) (s : Scan) (t : Text) :
    s.run (a ++ t) = (s.write (Subquery.segments a).reverse).run t := by
  obtain ⟨segs, hsegs⟩ := exists_run_balanced ha
  have hself := hsegs ⟨[], []⟩ []
  rw [List.append_nil, Scan.run] at hself
  rw [hsegs, Subquery.segments, hself, segments_write]
  simp [Scan.segments]

/-- What a pair of brackets around a balanced text becomes, latest first. -/
def closed (a : Text) : List (Segment Text) :=
  Frame.close ⟨opensSelect (a ++ [')']), (segments a).reverse⟩

theorem Scan.run_pair {a : Text} (ha : Balanced a) (s : Scan) (t : Text) :
    s.run ('(' :: (a ++ ')' :: t)) = (s.write (closed a)).run t := by
  rw [run_opened, opensSelect_closed, run_balanced ha, write, List.append_nil, run_closing]
  rfl

/-- Behind anything, a text that closes only its own brackets has its own segments. -/
theorem Scan.segments_run_unclosed {t : Text} (ht : Unclosed t) (s : Scan) :
    (s.run t).segments = s.segments ++ Subquery.segments t := by
  have hempty : segments ⟨[], []⟩ = [] := rfl
  induction ht generalizing s with
  | nil => simp [Scan.run, segments_nil]
  | char hopen hclose _ ih =>
    rw [Subquery.segments, run_char _ hopen hclose, run_char _ hopen hclose, ih, ih, segments_write,
      segments_write, hempty]
    simp
  | pair ha _ ih =>
    rw [Subquery.segments, run_pair ha, run_pair ha, ih, ih, segments_write, segments_write, hempty]
    simp
  | opened _ ih =>
    rw [Subquery.segments, run_opened, run_opened, ih, ih, segments_opened, segments_opened, hempty]
    simp

/-- Outside all brackets, every text has its own segments. -/
theorem Scan.segments_run_ground (t : Text) (ground : List (Segment Text)) :
    (Scan.run ⟨ground, []⟩ t).segments = ground.reverse ++ Subquery.segments t := by
  have hground : ∀ g, segments ⟨g, []⟩ = g.reverse := fun g => by simp [segments]
  induction t using bracket_induction generalizing ground with
  | nil => simp [Scan.run, hground, segments_nil]
  | char c t hopen ih =>
    rw [Subquery.segments, run_ground hopen, run_ground hopen, ih, ih]
    simp
  | pair a t ha _ ih =>
    rw [Subquery.segments, run_pair ha, run_pair ha, write, write, ih, ih]
    simp
  | opened t ht _ =>
    rw [Subquery.segments, run_opened, run_opened, segments_run_unclosed ht,
      segments_run_unclosed ht, segments_opened, segments_opened, hground, hground]
    simp

/-! ## The segments of a text -/

theorem segments_char {c : Char} (hopen : c ≠ '(') (t : Text) :
    segments (c :: t) = .plain c :: segments t := by
  rw [segments, Scan.run_ground hopen, Scan.segments_run_ground]
  rfl

theorem segments_pair {a : Text} (ha : Balanced a) (t : Text) :
    segments ('(' :: (a ++ ')' :: t)) =
      (if opensSelect (a ++ [')']) then [.span a] else .plain '(' :: segments a ++ [.plain ')']) ++
        segments t := by
  rw [segments, Scan.run_pair ha, Scan.write, Scan.segments_run_ground, List.append_nil, closed,
    Frame.close]
  dsimp only
  split
  · rw [List.reverse_reverse, join_segments]
    rfl
  · simp

theorem segments_opened {t : Text} (ht : Unclosed t) :
    segments ('(' :: t) = .plain '(' :: segments t := by
  rw [segments, Scan.run_opened, Scan.segments_run_unclosed ht, Scan.segments_opened]
  rfl

/-- A bracket that never closes divides the segments of the text: it neither hides nor joins what
stands before and behind it. -/
theorem segments_append_opened {v : Text} (hv : Unclosed v) (u : Text) :
    segments (u ++ '(' :: v) = segments u ++ .plain '(' :: segments v := by
  induction u using bracket_induction with
  | nil => exact segments_opened hv
  | char c u hopen ih => rw [List.cons_append, segments_char hopen, segments_char hopen, ih]; rfl
  | pair a u ha _ ih =>
    rw [List.cons_append, List.append_assoc, List.cons_append, segments_pair ha, segments_pair ha, ih,
      List.append_assoc]
  | opened u hu ih =>
    rw [List.cons_append, segments_opened (hu.append (.opened hv)), segments_opened hu, ih]
    rfl

/-! ## Pairs that open a select -/

/-- The brackets at two places are matched and open a select. -/
def IsSelect (t : Text) (first second : Nat) : Prop :=
  Matched t first second ∧ opensSelect (t.drop (first + 1)) = true

/-- The brackets at two places are matched, open a select, and lie in no other such pair. -/
def IsOutermost (t : Text) (first second : Nat) : Prop :=
  IsSelect t first second ∧
    ∀ before behind, IsSelect t before behind → ¬ (before < first ∧ second < behind)

theorem isSelect_iff {t : Text} {first second : Nat} :
    IsSelect t first second ↔ ∃ x a y, t = x ++ (cover a ++ y) ∧ Balanced a ∧
      opensSelect (a ++ ')' :: y) = true ∧ x.length = first ∧
      (x ++ cover a).length = second + 1 := by
  have hcover : ∀ a y, cover a ++ y = '(' :: (a ++ ')' :: y) := fun a y => by simp [cover]
  rw [IsSelect, matched_iff]
  constructor
  · rintro ⟨⟨x, a, y, rfl, ha, rfl, rfl⟩, hselect⟩
    rw [List.drop_append, List.drop_of_length_le (by simp)] at hselect
    refine ⟨x, a, y, by rw [hcover], ha, by simpa using hselect, rfl, ?_⟩
    simp [cover]
    omega
  · rintro ⟨x, a, y, rfl, ha, hselect, rfl, hsecond⟩
    refine ⟨⟨x, a, y, by rw [hcover], ha, rfl, ?_⟩, ?_⟩
    · simp [cover] at hsecond ⊢
      omega
    · rw [hcover, List.drop_append, List.drop_of_length_le (by simp)]
      simpa using hselect

/-! ## The spans are the outermost pairs -/

/-- What a segment is, given the text behind it: the body of a span is balanced and opens a select,
and a bracket that is no part of a span opens none that is closed. -/
def Fits : Segment Text → Text → Prop
  | .span a, rest => Balanced a ∧ opensSelect (a ++ ')' :: rest) = true
  | .plain c, rest => c = '(' → opensSelect rest = true → Unclosed rest

/-- Each of a list of segments is what it is, given the segments and the text behind it. -/
def AllFit : List (Segment Text) → Text → Prop
  | [], _ => True
  | s :: segs, rest => Fits s (Segment.join cover segs ++ rest) ∧ AllFit segs rest

theorem allFit_append {A B : List (Segment Text)} {rest : Text} :
    AllFit (A ++ B) rest ↔ AllFit A (Segment.join cover B ++ rest) ∧ AllFit B rest := by
  induction A with
  | nil => simp [AllFit]
  | cons s A ih =>
    rw [List.cons_append, AllFit, AllFit, ih, Segment.join_append, List.append_assoc, and_assoc]

/-- Behind a balanced text, a closing bracket changes nothing: each bracket of the text has been
closed before. -/
theorem AllFit.closed {segs : List (Segment Text)} (h : AllFit segs []) {x : Text}
    (hbalanced : Balanced (x ++ Segment.join cover segs)) (rest : Text) :
    AllFit segs (')' :: rest) := by
  induction segs generalizing x with
  | nil => trivial
  | cons s segs ih =>
    obtain ⟨hs, hsegs⟩ := h
    rw [List.append_nil] at hs
    cases s with
    | span a =>
      refine ⟨⟨hs.1, ?_⟩, ih hsegs (x := x ++ cover a) (by simpa using hbalanced)⟩
      have hselect := hs.2
      rw [opensSelect_closed] at hselect ⊢
      exact hselect
    | plain c =>
      refine ⟨?_, ih hsegs (x := x ++ [c]) (by simpa using hbalanced)⟩
      rintro rfl hselect
      obtain ⟨a, y, hjoin, ha⟩ := hbalanced.exists_closed
      rw [hjoin, List.append_assoc, List.cons_append, opensSelect_closed] at hselect
      have hopens : opensSelect (Segment.join cover segs) = true := by
        rw [hjoin, opensSelect_closed, hselect]
      exact absurd hjoin ((hs rfl hopens).ne_closed ha)

theorem allFit_segments (t : Text) : AllFit (segments t) [] := by
  induction t using bracket_induction with
  | nil => trivial
  | char c t hopen ih =>
    rw [segments_char hopen]
    exact ⟨fun hc => absurd hc hopen, ih⟩
  | pair a t ha iha iht =>
    have hjoin : ∀ u, Segment.join cover (segments u) ++ [] = u := fun u => by
      rw [join_segments, List.append_nil]
    rw [segments_pair ha, allFit_append]
    refine ⟨?_, iht⟩
    rw [hjoin]
    split
    · rename_i hselect
      exact ⟨⟨ha, by rw [Segment.join_nil, List.nil_append, opensSelect_closed, hselect]⟩, trivial⟩
    · rename_i hselect
      rw [List.cons_append, AllFit, allFit_append, Segment.join_append, join_segments]
      refine ⟨fun _ hopens => ?_, ?_, fun hc => absurd hc (by decide), trivial⟩
      · rw [List.append_assoc] at hopens
        exact absurd ((opensSelect_closed a t).symm.trans hopens) hselect
      · exact iha.closed (x := []) (by rwa [List.nil_append, join_segments]) t
  | opened t ht ih =>
    rw [segments_opened ht]
    refine ⟨fun _ _ => ?_, ih⟩
    rwa [join_segments, List.append_nil]

theorem fits_of_segments {t : Text} {A B : List (Segment Text)} {s : Segment Text}
    (h : segments t = A ++ s :: B) : Fits s (Segment.join cover B) := by
  have hfit := allFit_segments t
  rw [h, allFit_append] at hfit
  simpa using hfit.2.1

/-- Every pair that opens a select lies in a span. -/
theorem exists_span_around {x a y : Text} (ha : Balanced a)
    (hselect : opensSelect (a ++ ')' :: y) = true) :
    ∃ A b B u v, segments (x ++ (cover a ++ y)) = A ++ .span b :: B ∧
      x = Segment.join cover A ++ u ∧ cover b = u ++ (cover a ++ v) ∧
      y = v ++ Segment.join cover B := by
  have hjoin : Segment.join cover (segments (x ++ (cover a ++ y))) = x ++ '(' :: (a ++ ')' :: y) := by
    rw [join_segments]
    simp [cover]
  rcases Segment.split_join_at hjoin with ⟨A, B, hsegs, -, hB⟩ | ⟨A, b, B, u, w, hsegs, hb, hx, hw⟩
  · -- a bracket outside all spans that opens a select is not closed
    exfalso
    have hfits := fits_of_segments hsegs
    rw [← hB] at hfits
    exact (hfits rfl hselect).ne_closed ha rfl
  · obtain ⟨hbalanced, -⟩ := fits_of_segments hsegs
    have hcover : Balanced (u ++ '(' :: w) := by
      rw [← hb]
      exact .pair hbalanced .nil
    obtain ⟨a', v, rfl, ha'⟩ := hcover.exists_closed
    rw [List.append_assoc, List.cons_append] at hw
    obtain ⟨rfl, rfl⟩ := ha.unique ha' hw
    exact ⟨A, b, B, u, v, hsegs, hx, by rw [hb]; simp [cover], rfl⟩

/-- A span is a pair that opens a select. -/
theorem isSelect_of_segments {t : Text} {A B : List (Segment Text)} {b : Text}
    (h : segments t = A ++ .span b :: B) :
    IsSelect t (Segment.join cover A).length
      ((Segment.join cover A).length + (cover b).length - 1) := by
  obtain ⟨hb, hselect⟩ := fits_of_segments h
  refine isSelect_iff.mpr ⟨_, b, Segment.join cover B, ?_, hb, hselect, rfl, ?_⟩
  · rw [← join_segments t, h, Segment.join_append, Segment.join_span]
  · simp [cover]
    omega

/-- No span lies strictly inside another. -/
theorem not_within_span {t : Text} {A B A' B' : List (Segment Text)} {b b' : Text}
    (h : segments t = A ++ .span b :: B) (h' : segments t = A' ++ .span b' :: B')
    (hbefore : (Segment.join cover A').length < (Segment.join cover A).length) :
    (Segment.join cover A').length + (cover b').length ≤ (Segment.join cover A).length := by
  rw [h] at h'
  rcases List.append_eq_append_iff.mp h' with ⟨C, rfl, -⟩ | ⟨C, rfl, hC⟩
  · rw [Segment.join_append, List.length_append] at hbefore
    omega
  · cases C with
    | nil => simp at hbefore
    | cons s C =>
      obtain ⟨rfl, -⟩ := List.cons.inj hC
      rw [Segment.join_append, Segment.join_span]
      simp

/-- The spans are the outermost pairs that open a select. -/
theorem isOutermost_iff {t : Text} {first second : Nat} :
    IsOutermost t first second ↔ ∃ A b B, segments t = A ++ .span b :: B ∧
      first = (Segment.join cover A).length ∧
      second + 1 = (Segment.join cover A).length + (cover b).length := by
  constructor
  · rintro ⟨hselect, houtermost⟩
    obtain ⟨x, a, y, rfl, ha, hopens, rfl, hsecond⟩ := isSelect_iff.mp hselect
    obtain ⟨A, b, B, u, v, hsegs, hx, hb, -⟩ := exists_span_around (x := x) ha hopens
    have hlength := congrArg List.length hb
    rw [List.length_append] at hsecond
    simp only [List.length_append] at hlength
    have hxlength : x.length = (Segment.join cover A).length + u.length := by
      rw [hx, List.length_append]
    -- the span around the pair is no other pair
    have hsame : u = [] ∧ v = [] := by
      obtain ⟨hbalanced, -⟩ := fits_of_segments hsegs
      have hnot := houtermost _ _ (isSelect_of_segments hsegs)
      cases u with
      | nil =>
        have hbody : a ++ ')' :: v = b ++ ')' :: [] := by simpa [cover] using hb.symm
        exact ⟨rfl, (ha.unique hbalanced hbody).2⟩
      | cons c u =>
        exfalso
        rcases List.eq_nil_or_concat' v with rfl | ⟨v, d, rfl⟩
        · -- the brackets would close together
          have hinner : b ++ [')'] = u ++ (cover a ++ []) := (List.cons.inj hb).2
          rw [List.append_nil, cover, ← List.append_assoc] at hinner
          have hbody : b = u ++ '(' :: a := (List.append_inj' hinner rfl).1
          have hnone := hbalanced.openersFrom_eq [] 0
          have hopened := ha.openers_eq u
          rw [← hbody, openers, hnone] at hopened
          exact absurd hopened (by simp)
        · simp only [List.length_cons, List.length_append, List.length_nil] at hlength hxlength
          exact hnot ⟨by omega, by omega⟩
    obtain ⟨rfl, rfl⟩ := hsame
    exact ⟨A, b, B, hsegs, by simpa using hxlength, by simp at hlength hxlength; omega⟩
  · rintro ⟨A, b, B, hsegs, rfl, hsecond⟩
    have hselect := isSelect_of_segments hsegs
    rw [← hsecond, Nat.add_sub_cancel] at hselect
    refine ⟨hselect, ?_⟩
    rintro before behind houter ⟨hbefore, hbehind⟩
    obtain ⟨x, a, y, rfl, ha, hopens, rfl, hend⟩ := isSelect_iff.mp houter
    obtain ⟨A', b', B', u, v, hsegs', hx, hb, -⟩ := exists_span_around (x := x) ha hopens
    have hlength := congrArg List.length hb
    have hxlength := congrArg List.length hx
    simp only [List.length_append] at hlength hxlength hend
    have hle := not_within_span hsegs hsegs' (by omega)
    omega

/-- The text before a span and the span itself, cut off at the places of its brackets. -/
theorem take_of_segments {t : Text} {A B : List (Segment Text)} {b : Text}
    (h : segments t = A ++ .span b :: B) :
    t.take (Segment.join cover A).length = Segment.join cover A ∧
      t.take ((Segment.join cover A).length + (cover b).length) = Segment.join cover A ++ cover b := by
  have ht : t = Segment.join cover A ++ cover b ++ Segment.join cover B := by
    rw [← join_segments t, h, Segment.join_append, Segment.join_span, List.append_assoc]
  constructor
  · rw [ht, List.append_assoc, List.take_left]
  · rw [ht, ← List.length_append, List.take_left]

/-- Byte offsets bound a span exactly when the brackets there are an outermost pair. -/
theorem mem_byteSpans_segments {t : Text} {lo hi : Nat} :
    (lo, hi) ∈ Segment.byteSpans cover 0 (segments t) ↔
      ∃ first second, IsOutermost t first second ∧ lo = Text.bytes (t.take first) ∧
        hi = Text.bytes (t.take (second + 1)) := by
  simp only [Segment.mem_byteSpans, Nat.zero_add]
  constructor
  · rintro ⟨A, b, B, hsegs, rfl, rfl⟩
    obtain ⟨hfirst, hsecond⟩ := take_of_segments hsegs
    have hpos : (Segment.join cover A).length + (cover b).length - 1 + 1 =
        (Segment.join cover A).length + (cover b).length := by
      simp [cover]
      omega
    refine ⟨_, _, isOutermost_iff.mpr ⟨A, b, B, hsegs, rfl, hpos⟩, ?_, ?_⟩
    · rw [hfirst]
    · rw [hpos, hsecond]
  · rintro ⟨first, second, houtermost, rfl, rfl⟩
    obtain ⟨A, b, B, hsegs, rfl, hsecond⟩ := isOutermost_iff.mp houtermost
    obtain ⟨hfront, hback⟩ := take_of_segments hsegs
    exact ⟨A, b, B, hsegs, by rw [hfront], by rw [hsecond, hback]⟩

/-- A bracket that is matched with none is never closed. -/
theorem unclosed_of_unmatched {u v : Text}
    (h : ∀ second, ¬ Matched (u ++ '(' :: v) u.length second) : Unclosed v := by
  refine (unclosed_or_closed v).resolve_right ?_
  rintro ⟨a, y, rfl, ha⟩
  exact h _ (matched_iff.mpr ⟨u, a, y, rfl, ha, rfl, rfl⟩)

/-- The scan finds the outermost pairs that open a select. It gives their byte offsets from left to
right, each span is a balanced text in brackets, and a bracket that never closes divides the text:
what stands before it and behind it has the same spans as on its own. -/
theorem byteSpans_segments_iff (t : Text) :
    (∀ lo hi, (lo, hi) ∈ Segment.byteSpans cover 0 (segments t) ↔
      ∃ first second, IsOutermost t first second ∧ lo = Text.bytes (t.take first) ∧
        hi = Text.bytes (t.take (second + 1))) ∧
    (Segment.byteSpans cover 0 (segments t)).Pairwise (fun p q => p.1 < q.1 ∧ p.2 ≤ q.1) ∧
    (∀ lo hi, (lo, hi) ∈ Segment.byteSpans cover 0 (segments t) →
      ∃ x a y, t = x ++ '(' :: (a ++ ')' :: y) ∧ Balanced a ∧ lo = Text.bytes x ∧
        hi = Text.bytes (x ++ '(' :: (a ++ [')']))) ∧
    ∀ u v, t = u ++ '(' :: v → (∀ second, ¬ Matched t u.length second) →
      Segment.byteSpans cover 0 (segments t) =
        Segment.byteSpans cover 0 (segments u) ++
          Segment.byteSpans cover (Text.bytes u + 1) (segments v) := by
  have hbetween : ∀ lo hi, (lo, hi) ∈ Segment.byteSpans cover 0 (segments t) →
      ∃ x a y, t = x ++ '(' :: (a ++ ')' :: y) ∧ Balanced a ∧ lo = Text.bytes x ∧
        hi = Text.bytes (x ++ '(' :: (a ++ [')'])) := by
    intro lo hi hmem
    obtain ⟨A, b, B, hsegs, rfl, rfl⟩ := Segment.mem_byteSpans.mp hmem
    refine ⟨Segment.join cover A, b, Segment.join cover B, ?_, (fits_of_segments hsegs).1, ?_, ?_⟩
    · rw [← join_segments t, hsegs]
      simp [Segment.join_append, cover]
    · rw [Nat.zero_add]
    · rw [Nat.zero_add]
      rfl
  refine ⟨fun lo hi => mem_byteSpans_segments, ?_, hbetween, ?_⟩
  · -- a span is not empty, so that the next one starts behind where it starts
    refine (Segment.pairwise_byteSpans cover 0 (segments t)).imp_of_mem ?_
    rintro ⟨lo, hi⟩ q hmem - hle
    obtain ⟨x, a, y, -, -, rfl, rfl⟩ := hbetween lo hi hmem
    have hsize : 0 < Char.utf8Size '(' := by decide
    rw [Text.bytes_append, Text.bytes] at hle
    dsimp only at hle ⊢
    exact ⟨by omega, by rw [Text.bytes_append, Text.bytes]; omega⟩
  · rintro u v rfl hunmatched
    rw [segments_append_opened (unclosed_of_unmatched hunmatched), Segment.byteSpans_append,
      join_segments, Nat.zero_add]
    rfl

/-- Of two brackets that open a select the first never closes, and the second is found. -/
theorem byteSpans_segments_broken :
    let t := "(select é (select a from t)".toList
    (∀ second, ¬ Matched t 0 second) ∧ Segment.byteSpans cover 0 (segments t) = [(11, 28)] ∧
      Segment.byteSpans cover 0 (segments t) =
        Segment.byteSpans cover 0 (segments []) ++
          Segment.byteSpans cover 1 (segments "select é (select a from t)".toList) := by
  repeat rw [String.toList_ofList]
  intro t
  have hwithin : ∀ second < t.length, ¬ Matched t 0 second := by decide
  have hnone : ∀ second, ¬ Matched t 0 second := fun second h =>
    hwithin second (List.getElem?_eq_some_iff.mp h.1).1 h
  exact ⟨hnone, by decide, (byteSpans_segments_iff t).2.2.2 [] _ rfl hnone⟩

end Subquery

end MutationPreview
