import MutationPreview.Proofs.Ledger.Basic

/-!
# What a replacement finds, and erasing marks

A replacement reads a text from left to right as the occurrences that it replaces and the characters
between them (`Text.Found`). To erase a mark is to replace it by nothing.

Putting a mark in front of the occurrences of another text and erasing the mark again are compared
here. Erasing goes through a joint unless the joint lies across a mark (`Text.erase_append`). So the
marks that are put in can be erased again if none of them is put inside a mark that stands in the
text already (`Text.erase_fill`), and they cannot otherwise (`Text.length_erase_fill_lt`); and the
marks of the new text are those of the old one and those that were put in (`Text.markedAt_fill_iff`).
-/

namespace MutationPreview

namespace Text

variable {m old g t a b c d w x y z : Text} {segs : List (Segment Unit)}

/-! ## What a replacement finds -/

/-- The text of segments with `u` in each span. -/
def fill (u : Text) (segs : List (Segment Unit)) : Text := Segment.join (fun _ => u) segs

@[simp] theorem fill_nil (u : Text) : fill u [] = [] := rfl

@[simp] theorem fill_plain (u : Text) (k : Char) (segs : List (Segment Unit)) :
    fill u (.plain k :: segs) = k :: fill u segs := rfl

@[simp] theorem fill_span (u : Text) (i : Unit) (segs : List (Segment Unit)) :
    fill u (.span i :: segs) = u ++ fill u segs := rfl

@[simp] theorem fill_append (u : Text) (A B : List (Segment Unit)) :
    fill u (A ++ B) = fill u A ++ fill u B := Segment.join_append _ A B

@[simp] theorem fill_map_plain (u w : Text) : fill u (w.map .plain) = w := Segment.join_map_plain _ w

/-- A text as a replacement of `old` reads it: the spans are the occurrences that it replaces, and
`old` starts at no character between them. -/
inductive Found (old : Text) : Text → List (Segment Unit) → Prop
  | nil : Found old [] []
  | plain {k : Char} {rest : Text} {segs : List (Segment Unit)} :
      ¬ old <+: k :: rest → Found old rest segs → Found old (k :: rest) (.plain k :: segs)
  | span {rest : Text} {segs : List (Segment Unit)} :
      Found old rest segs → Found old (old ++ rest) (.span () :: segs)

theorem exists_found (hold : old ≠ []) (t : Text) : ∃ segs, Found old t segs := by
  -- each step of the reading shortens the text
  induction hn : t.length using Nat.strongRecOn generalizing t with
  | ind n ih =>
    cases t with
    | nil => exact ⟨[], .nil⟩
    | cons k rest =>
      by_cases hpre : old <+: k :: rest
      · obtain ⟨behind, hbehind⟩ := hpre
        have hshort : behind.length < n := by
          have hpos := List.length_pos_iff.mpr hold
          rw [← hn, ← hbehind, List.length_append]
          omega
        obtain ⟨segs, h⟩ := ih behind.length hshort behind rfl
        rw [← hbehind]
        exact ⟨.span () :: segs, .span h⟩
      · obtain ⟨segs, h⟩ := ih rest.length (by rw [← hn]; exact Nat.lt_succ_self _) rest rfl
        exact ⟨.plain k :: segs, .plain hpre h⟩

theorem Found.fill_eq (h : Found old t segs) : fill old segs = t := by
  induction h with
  | nil => rfl
  | plain _ _ ih => rw [fill_plain, ih]
  | span _ ih => rw [fill_span, ih]

theorem Found.replace_eq (hold : old ≠ []) (new : Text) (h : Found old t segs) :
    Text.replace old new t = fill new segs := by
  induction h with
  | nil => rfl
  | plain hnot _ ih => rw [Text.replace_cons hnot, ih, fill_plain]
  | span _ ih => rw [Text.replace_append hold, ih, fill_span]

/-- The first segments are what is found in the front of the text. -/
theorem Found.left {A B : List (Segment Unit)} (h : Found old t (A ++ B)) :
    Found old (fill old A) A := by
  induction A generalizing t with
  | nil => exact .nil
  | cons s A ih =>
    rw [List.cons_append] at h
    cases h with
    | plain hnot h =>
      refine .plain ?_ (ih h)
      intro hpre
      apply hnot
      rw [← h.fill_eq, fill_append]
      exact hpre.trans (List.prefix_append (_ :: fill old A) _)
    | span h => exact .span (ih h)

/-- An occurrence is replaced, or it starts inside one that is. -/
theorem Found.of_occurrence (h : Found old t segs) (hold : old ≠ []) (ht : t = x ++ (old ++ y)) :
    (∃ A B, segs = A ++ .span () :: B ∧ fill old A = x) ∨
      ∃ A B u v, segs = A ++ .span () :: B ∧ u ≠ [] ∧ v ≠ [] ∧ old = u ++ v ∧
        x = fill old A ++ u := by
  induction h generalizing x with
  | nil =>
    have hnone : old = [] := by
      rw [eq_comm, List.append_eq_nil_iff, List.append_eq_nil_iff] at ht
      exact ht.2.1
    exact absurd hnone hold
  | @plain k rest segs hnot _ ih =>
    cases x with
    | nil => exact absurd ⟨y, ht.symm⟩ hnot
    | cons k' x =>
      rw [List.cons_append, List.cons.injEq] at ht
      obtain ⟨rfl, ht⟩ := ht
      rcases ih ht with ⟨A, B, rfl, hA⟩ | ⟨A, B, u, v, rfl, hu, hv, hsplit, hA⟩
      · exact Or.inl ⟨.plain k :: A, B, rfl, by rw [fill_plain, hA]⟩
      · exact Or.inr ⟨.plain k :: A, B, u, v, rfl, hu, hv, hsplit, by rw [fill_plain, hA]; rfl⟩
  | @span rest segs _ ih =>
    rcases append_cases ht with ⟨v, rfl, hrest⟩ | ⟨k, v, hinside, -⟩
    · rcases ih hrest with ⟨A, B, rfl, hA⟩ | ⟨A, B, u, v', rfl, hu, hv, hsplit, hA⟩
      · exact Or.inl ⟨.span () :: A, B, rfl, by rw [fill_span, hA]⟩
      · refine Or.inr ⟨.span () :: A, B, u, v', rfl, hu, hv, hsplit, ?_⟩
        rw [fill_span, hA, List.append_assoc]
    · cases x with
      | nil => exact Or.inl ⟨[], segs, rfl, rfl⟩
      | cons k' x =>
        exact Or.inr ⟨[], segs, k' :: x, k :: v, rfl, List.cons_ne_nil _ _, List.cons_ne_nil _ _,
          hinside, rfl⟩

/-! ## Joints across a mark -/

/-- Whether the joint of two texts lies inside an occurrence of `m`. -/
def Across (m a b : Text) : Prop :=
  ∃ u v, u ≠ [] ∧ v ≠ [] ∧ m = u ++ v ∧ u <:+ a ∧ v <+: b

theorem Across.extend_left (h : Across m a b) (x : Text) : Across m (x ++ a) b := by
  obtain ⟨u, v, hu, hv, hm, hsuf, hpre⟩ := h
  exact ⟨u, v, hu, hv, hm, hsuf.trans (List.suffix_append x a), hpre⟩

theorem Across.extend_right (h : Across m a b) (y : Text) : Across m a (b ++ y) := by
  obtain ⟨u, v, hu, hv, hm, hsuf, hpre⟩ := h
  exact ⟨u, v, hu, hv, hm, hsuf, hpre.trans (List.prefix_append b y)⟩

/-- A mark across the second joint of three texts lies across the first one too, or it lies in the
last two texts. -/
theorem not_across_append (h : ¬ Across m a (z ++ b)) (hz : ¬ Across m z b) :
    ¬ Across m (a ++ z) b := by
  rintro ⟨u, v, hu, hv, rfl, ⟨front, hfront⟩, hpre⟩
  rcases append_cases hfront.symm with ⟨k, -, rfl⟩ | ⟨o, k, rfl, rfl⟩
  · exact hz ⟨u, v, hu, hv, rfl, List.suffix_append k u, hpre⟩
  · apply h
    refine ⟨o :: k, z ++ v, List.cons_ne_nil o k, ?_, ?_, List.suffix_append front _, ?_⟩
    · exact List.append_ne_nil_of_right_ne_nil z hv
    · rw [List.append_assoc]
    · exact (List.prefix_append_right_inj z).mpr hpre

/-- Whether the occurrences of a text never overlap, so that it can mark places in other texts. -/
structure IsMark (m : Text) : Prop where
  ne_nil : m ≠ []
  unbordered : Unbordered m

theorem IsMark.not_across_mark (hm : IsMark m) (a b : Text) : ¬ Across m a (m ++ b) := by
  rintro ⟨u, v, hu, hv, hsplit, -, hpre⟩
  have hle : v.length ≤ m.length := by rw [hsplit, List.length_append]; omega
  have hstart : v <+: m := List.prefix_of_prefix_length_le hpre (List.prefix_append m b) hle
  exact hm.unbordered u v hu hv hsplit hstart

theorem IsMark.mark_not_across (hm : IsMark m) (b : Text) : ¬ Across m m b := by
  rintro ⟨u, v, hu, hv, hsplit, ⟨x, hx⟩, -⟩
  have hxne : x ≠ [] := by
    rintro rfl
    have hsame : u = m := hx
    rw [hsame] at hsplit
    exact hv (List.self_eq_append_right.mp hsplit)
  exact hm.unbordered x u hxne hu hx.symm ⟨v, hsplit.symm⟩

theorem IsMark.not_across_self (hm : IsMark m) (a : Text) : ¬ Across m a m := by
  simpa using hm.not_across_mark a []

/-! ## Erasing -/

/-- The text without the occurrences of `m`. -/
def erase (m t : Text) : Text := Text.replace m [] t

@[simp] theorem erase_nil (m : Text) : erase m [] = [] := rfl

theorem Found.erase_eq (hm : IsMark m) (h : Found m t segs) : erase m t = fill [] segs :=
  h.replace_eq hm.ne_nil []

theorem erase_mark_append (hm : IsMark m) (b : Text) : erase m (m ++ b) = erase m b :=
  Text.replace_append hm.ne_nil [] b

/-- In a text that it does not lie in, no occurrence is found. -/
theorem found_map_plain (h : ¬ m <:+: t) : Found m t (t.map .plain) := by
  induction t with
  | nil => exact .nil
  | cons k t ih =>
    refine .plain (fun hpre => h hpre.isInfix) (ih fun hin => h ?_)
    exact hin.trans (List.suffix_cons k t).isInfix

theorem erase_eq_self (h : ¬ m <:+: t) : erase m t = t := by
  have hm : m ≠ [] := by
    rintro rfl
    exact h List.nil_infix
  rw [erase, (found_map_plain h).replace_eq hm, fill_map_plain]

/-- Two texts are read one after the other unless an occurrence lies across the joint. -/
theorem Found.append {A B : List (Segment Unit)} (ha : Found m a A) (hb : Found m b B)
    (h : ¬ Across m a b) : Found m (a ++ b) (A ++ B) := by
  induction ha with
  | nil => exact hb
  | @plain k rest A hnot _ ih =>
    refine .plain ?_ (ih fun hacross => h (hacross.extend_left [k]))
    intro hpre
    have hcases : m <+: (k :: rest) ++ b := hpre
    rcases prefix_append_cases hcases with hwithin | ⟨v, hv, hbehind, hsplit⟩
    · exact hnot hwithin
    · exact h ⟨k :: rest, v, List.cons_ne_nil k rest, hv, hsplit, List.suffix_rfl, hbehind⟩
  | @span rest A _ ih =>
    rw [List.append_assoc]
    exact .span (ih fun hacross => h (hacross.extend_left m))

/-- Erasing goes through a joint that does not lie across a mark. -/
theorem erase_append (hm : IsMark m) (h : ¬ Across m a b) :
    erase m (a ++ b) = erase m a ++ erase m b := by
  obtain ⟨A, hA⟩ := exists_found hm.ne_nil a
  obtain ⟨B, hB⟩ := exists_found hm.ne_nil b
  rw [(hA.append hB h).erase_eq hm, hA.erase_eq hm, hB.erase_eq hm, fill_append]

/-- A mark between two texts is erased. -/
theorem erase_around_mark (hm : IsMark m) (a b : Text) :
    erase m (a ++ (m ++ b)) = erase m a ++ erase m b := by
  rw [erase_append hm (hm.not_across_mark a b), erase_mark_append hm]

/-- A mark across a joint is not there in either of the joined texts. -/
theorem length_erase_of_across (hm : IsMark m) (h : Across m a b) :
    (erase m (a ++ b)).length + m.length = (erase m a).length + (erase m b).length := by
  obtain ⟨u, v, hu, hv, hsplit, ⟨front, rfl⟩, ⟨behind, rfl⟩⟩ := h
  have hshort : ∀ w, w.length < m.length → erase m w = w :=
    fun w hlt => erase_eq_self fun hinfix => Nat.not_lt.mpr hinfix.length_le hlt
  have hmlen : m.length = u.length + v.length := by rw [hsplit, List.length_append]
  have hupos := List.length_pos_iff.mpr hu
  have hvpos := List.length_pos_iff.mpr hv
  have hleft : erase m (front ++ u) = erase m front ++ u := by
    rw [erase_append hm, hshort u (by omega)]
    intro hacross
    have hmark := hacross.extend_right v
    rw [← hsplit] at hmark
    exact hm.not_across_self front hmark
  have hright : erase m (v ++ behind) = v ++ erase m behind := by
    rw [erase_append hm, hshort v (by omega)]
    intro hacross
    have hmark := hacross.extend_left u
    rw [← hsplit] at hmark
    exact hm.mark_not_across behind hmark
  have hboth : erase m (front ++ u ++ (v ++ behind)) = erase m front ++ erase m behind := by
    rw [List.append_assoc, ← List.append_assoc u v behind, ← hsplit, erase_around_mark hm]
  rw [hboth, hleft, hright, hmlen]
  simp only [List.length_append]
  omega

/-! ## The places of the marks -/

/-- Whether a mark stands in a text behind what is `x` once the marks are erased. -/
def MarkedAt (m t x : Text) : Prop := ∃ X Y, t = X ++ (m ++ Y) ∧ erase m X = x

theorem not_markedAt_of_not_infix (h : ¬ m <:+: t) (x : Text) : ¬ MarkedAt m t x := by
  rintro ⟨X, Y, rfl, -⟩
  exact h ⟨X, Y, List.append_assoc X m Y⟩

/-- The marks of a text are found by going through its places. -/
theorem exists_mem_range_iff_markedAt :
    (∃ n ∈ List.range (t.length + 1), m.isPrefixOf (t.drop n) = true ∧ erase m (t.take n) = x) ↔
      MarkedAt m t x := by
  constructor
  · rintro ⟨n, -, hpre, hx⟩
    obtain ⟨Y, hY⟩ := List.isPrefixOf_iff_prefix.mp hpre
    exact ⟨t.take n, Y, by rw [hY, List.take_append_drop], hx⟩
  · rintro ⟨X, Y, rfl, hx⟩
    refine ⟨X.length, ?_, ?_, ?_⟩
    · rw [List.mem_range, List.length_append]
      omega
    · rw [List.drop_left, List.isPrefixOf_iff_prefix]
      exact List.prefix_append m Y
    · rw [List.take_left, hx]

instance decidableMarkedAt (m t x : Text) : Decidable (MarkedAt m t x) :=
  decidable_of_iff _ exists_mem_range_iff_markedAt

/-- The marks of two texts in a row are those of each of them. -/
theorem markedAt_append (hm : IsMark m) (h : ¬ Across m a b) :
    MarkedAt m (a ++ b) x ↔ MarkedAt m a x ∨ ∃ y, MarkedAt m b y ∧ x = erase m a ++ y := by
  constructor
  · rintro ⟨X, Y, hsplit, rfl⟩
    rcases append_cases hsplit with ⟨v, rfl, rfl⟩ | ⟨k, v, rfl, hbehind⟩
    · have hjoint : ¬ Across m a v := fun hacross => h (hacross.extend_right (m ++ Y))
      exact Or.inr ⟨erase m v, ⟨v, Y, rfl, rfl⟩, erase_append hm hjoint⟩
    · rcases append_cases hbehind with ⟨w, hw, rfl⟩ | ⟨o, w, hmark, rfl⟩
      · rw [hw]
        exact Or.inl ⟨X, w, rfl, rfl⟩
      · exact absurd ⟨k :: v, o :: w, List.cons_ne_nil k v, List.cons_ne_nil o w, hmark,
          List.suffix_append X _, List.prefix_append _ Y⟩ h
  · rintro (⟨X, Y, rfl, rfl⟩ | ⟨y, ⟨X, Y, rfl, rfl⟩, rfl⟩)
    · exact ⟨X, Y ++ b, by simp only [List.append_assoc], rfl⟩
    · have hjoint : ¬ Across m a X := fun hacross => h (hacross.extend_right (m ++ Y))
      exact ⟨a ++ X, Y, by simp only [List.append_assoc], erase_append hm hjoint⟩

/-- The marks of two texts with a mark between them. -/
theorem markedAt_around_mark (hm : IsMark m) (a b : Text) :
    MarkedAt m (a ++ (m ++ b)) x ↔
      MarkedAt m a x ∨ x = erase m a ∨ ∃ y, MarkedAt m b y ∧ x = erase m a ++ y := by
  have hself : ∀ y, MarkedAt m m y ↔ y = [] := by
    intro y
    constructor
    · rintro ⟨X, Y, hsplit, rfl⟩
      have hlen := congrArg List.length hsplit
      simp only [List.length_append] at hlen
      rw [List.length_eq_zero_iff.mp (by omega : X.length = 0), erase_nil]
    · rintro rfl
      exact ⟨[], [], by simp, rfl⟩
  have herase : erase m m = [] := by
    have := erase_mark_append hm []
    rwa [List.append_nil, erase_nil] at this
  have hbehind : ∀ y, MarkedAt m (m ++ b) y ↔ y = [] ∨ MarkedAt m b y := by
    intro y
    rw [markedAt_append hm (hm.mark_not_across b), hself, herase]
    simp
  rw [markedAt_append hm (hm.not_across_mark a b)]
  refine or_congr_right ?_
  constructor
  · rintro ⟨y, hy, rfl⟩
    rcases (hbehind y).mp hy with rfl | hy
    · exact Or.inl (List.append_nil _)
    · exact Or.inr ⟨y, hy, rfl⟩
  · rintro (rfl | ⟨y, hy, rfl⟩)
    · exact ⟨[], (hbehind []).mpr (Or.inl rfl), (List.append_nil _).symm⟩
    · exact ⟨y, (hbehind y).mpr (Or.inr hy), rfl⟩

/-- The marks of a text are where it is read as a mark. -/
theorem Found.markedAt {A B : List (Segment Unit)} (hm : IsMark m)
    (h : Found m t (A ++ .span () :: B)) : MarkedAt m t (fill [] A) := by
  refine ⟨fill m A, fill m B, ?_, h.left.erase_eq hm⟩
  rw [← h.fill_eq, fill_append, fill_span]

/-- A front of the joined text of segments is the text of the first segments, those spans included
that add nothing behind it. -/
private theorem exists_front (hw : w ≠ []) (h : fill [] segs = x ++ w) :
    ∃ A k B, segs = A ++ .plain k :: B ∧ fill [] A = x ∧ k :: fill [] B = w := by
  induction segs generalizing x with
  | nil =>
    rw [fill_nil, eq_comm, List.append_eq_nil_iff] at h
    exact absurd h.2 hw
  | cons s segs ih =>
    cases s with
    | span i =>
      obtain ⟨A, k, B, rfl, hA, hB⟩ := ih h
      exact ⟨.span i :: A, k, B, rfl, hA, hB⟩
    | plain k =>
      cases x with
      | nil => exact ⟨[], k, segs, rfl, rfl, h⟩
      | cons k' x =>
        rw [fill_plain, List.cons_append, List.cons.injEq] at h
        obtain ⟨rfl, h⟩ := h
        obtain ⟨A, k', B, rfl, rfl, hB⟩ := ih h
        exact ⟨.plain k :: A, k', B, rfl, rfl, hB⟩

/-- A front of the joined text of segments is a run of characters, or some span comes in it. -/
private theorem run_or_span (h : fill [] segs = w ++ y) :
    (∃ B, segs = w.map .plain ++ B) ∨
      ∃ u v B, v ≠ [] ∧ w = u ++ v ∧ segs = u.map .plain ++ .span () :: B := by
  induction w generalizing segs with
  | nil => exact Or.inl ⟨segs, rfl⟩
  | cons k w ih =>
    cases segs with
    | nil => cases h
    | cons s segs =>
      cases s with
      | span i => exact Or.inr ⟨[], k :: w, segs, List.cons_ne_nil k w, rfl, rfl⟩
      | plain k' =>
        rw [fill_plain, List.cons_append, List.cons.injEq] at h
        obtain ⟨rfl, h⟩ := h
        rcases ih h with ⟨B, rfl⟩ | ⟨u, v, B, hv, rfl, rfl⟩
        · exact Or.inl ⟨B, rfl⟩
        · exact Or.inr ⟨k' :: u, v, B, hv, rfl, rfl⟩

/-- A stretch of what is left after erasing stands in the text itself, unless a mark stands inside
it. -/
theorem exists_stretch (hm : IsMark m) (hw : w ≠ []) (herase : erase m t = x ++ (w ++ y))
    (hnone : ∀ u v, u ≠ [] → v ≠ [] → w = u ++ v → ¬ MarkedAt m t (x ++ u)) :
    ∃ X Y, t = X ++ (w ++ Y) ∧ erase m X = x := by
  obtain ⟨segs, hfound⟩ := exists_found hm.ne_nil t
  rw [hfound.erase_eq hm] at herase
  obtain ⟨A, k, B, rfl, rfl, hB⟩ :=
    exists_front (List.append_ne_nil_of_left_ne_nil hw y) herase
  have hrun : fill [] (.plain k :: B) = w ++ y := hB
  rcases run_or_span hrun with ⟨C, hC⟩ | ⟨u, v, C, hv, rfl, hC⟩
  · rw [hC] at hfound
    refine ⟨fill m A, fill m C, ?_, hfound.left.erase_eq hm⟩
    rw [← hfound.fill_eq, fill_append, fill_append, fill_map_plain]
  · have hu : u ≠ [] := by
      rintro rfl
      cases hC
    rw [hC, ← List.append_assoc] at hfound
    have hmark := hfound.markedAt hm
    rw [fill_append, fill_map_plain] at hmark
    exact absurd hmark (hnone u v hu hv rfl)

/-! ## Marks in front of the occurrences of a text -/

/-- Whether none of the spans starts inside a mark, when the spans are filled with `g` and `a` stands
in front of the segments. -/
def OutsideMarks (m g a : Text) (segs : List (Segment Unit)) : Prop :=
  ∀ A B, segs = A ++ .span () :: B → ¬ Across m (a ++ fill g A) (g ++ fill g B)

theorem outsideMarks_nil : OutsideMarks m g a [] := by
  intro A B h
  simp at h

theorem outsideMarks_plain {k : Char} :
    OutsideMarks m g a (.plain k :: segs) ↔ OutsideMarks m g (a ++ [k]) segs := by
  constructor
  · rintro h A B rfl
    have := h (.plain k :: A) B rfl
    rwa [fill_plain, ← List.singleton_append, ← List.append_assoc] at this
  · rintro h A B hsplit
    cases A with
    | nil => cases hsplit
    | cons s A =>
      rw [List.cons_append, List.cons.injEq] at hsplit
      obtain ⟨rfl, rfl⟩ := hsplit
      have := h A B rfl
      rwa [List.append_assoc, List.singleton_append] at this

theorem outsideMarks_span :
    OutsideMarks m g a (.span () :: segs) ↔
      ¬ Across m a (g ++ fill g segs) ∧ OutsideMarks m g g segs := by
  constructor
  · intro h
    refine ⟨by simpa using h [] segs rfl, ?_⟩
    rintro A B rfl hacross
    exact h (.span () :: A) B rfl (hacross.extend_left a)
  · rintro ⟨hfirst, hlater⟩ A B hsplit
    cases A with
    | nil =>
      rw [List.nil_append, List.cons.injEq] at hsplit
      obtain ⟨-, rfl⟩ := hsplit
      simpa using hfirst
    | cons s A =>
      rw [List.cons_append, List.cons.injEq] at hsplit
      obtain ⟨rfl, rfl⟩ := hsplit
      refine not_across_append ?_ (hlater A B rfl)
      simpa using hfirst

/-- Marks that are put in outside the marks of a text are erased again. -/
theorem erase_fill (hm : IsMark m) (h : OutsideMarks m g a segs) :
    erase m (a ++ fill (m ++ g) segs) = erase m (a ++ fill g segs) := by
  -- `a` collects what stands between the last span and the next one
  induction segs generalizing a with
  | nil => rfl
  | cons s segs ih =>
    cases s with
    | plain k =>
      have hcollected := ih (outsideMarks_plain.mp h)
      rwa [List.append_assoc, List.append_assoc] at hcollected
    | span i =>
      obtain ⟨hfirst, hlater⟩ := outsideMarks_span.mp h
      rw [fill_span, fill_span, List.append_assoc, erase_around_mark hm, ih hlater,
        ← erase_append hm hfirst]

/-- A mark that is put inside a mark of a text stays when marks are erased. -/
theorem length_erase_fill_lt (hm : IsMark m) (h : ¬ OutsideMarks m g a segs) :
    (erase m (a ++ fill g segs)).length < (erase m (a ++ fill (m ++ g) segs)).length := by
  induction segs generalizing a with
  | nil => exact absurd outsideMarks_nil h
  | cons s segs ih =>
    cases s with
    | plain k =>
      have hcollected := ih (mt outsideMarks_plain.mpr h)
      rwa [List.append_assoc, List.append_assoc] at hcollected
    | span i =>
      have hnew : erase m (a ++ fill (m ++ g) (.span i :: segs)) =
          erase m a ++ erase m (g ++ fill (m ++ g) segs) := by
        rw [fill_span, List.append_assoc, erase_around_mark hm]
      have hle : (erase m (g ++ fill g segs)).length ≤
          (erase m (g ++ fill (m ++ g) segs)).length := by
        by_cases hlater : OutsideMarks m g g segs
        · exact (congrArg List.length (erase_fill hm hlater)).ge
        · exact (ih hlater).le
      rw [hnew, fill_span, List.length_append]
      by_cases hfirst : Across m a (g ++ fill g segs)
      · have hlost := length_erase_of_across hm hfirst
        have hpos := List.length_pos_iff.mpr hm.ne_nil
        omega
      · have hlater : ¬ OutsideMarks m g g segs :=
          fun hlater => h (outsideMarks_span.mpr ⟨hfirst, hlater⟩)
        have hlt := ih hlater
        rw [erase_append hm hfirst, List.length_append]
        omega

private theorem exists_span_cons {s : Segment Unit} {P : List (Segment Unit) → Prop} :
    (∃ A B, s :: segs = A ++ .span () :: B ∧ P A) ↔
      (s = .span () ∧ P []) ∨ ∃ A B, segs = A ++ .span () :: B ∧ P (s :: A) := by
  constructor
  · rintro ⟨A, B, hsplit, hP⟩
    cases A with
    | nil =>
      rw [List.nil_append, List.cons.injEq] at hsplit
      exact Or.inl ⟨hsplit.1, hP⟩
    | cons s' A =>
      rw [List.cons_append, List.cons.injEq] at hsplit
      obtain ⟨rfl, rfl⟩ := hsplit
      exact Or.inr ⟨A, B, rfl, hP⟩
  · rintro (⟨rfl, hP⟩ | ⟨A, B, rfl, hP⟩)
    · exact ⟨[], segs, rfl, hP⟩
    · exact ⟨s :: A, B, rfl, hP⟩

/-- The marks of a text with marks put in are those of the text and those that were put in. -/
theorem markedAt_fill_iff (hm : IsMark m) (h : OutsideMarks m g a segs) :
    MarkedAt m (a ++ fill (m ++ g) segs) x ↔
      MarkedAt m (a ++ fill g segs) x ∨
        ∃ A B, segs = A ++ .span () :: B ∧ erase m (a ++ fill g A) = x := by
  induction segs generalizing a x with
  | nil => simp
  | cons s segs ih =>
    rw [exists_span_cons]
    cases s with
    | plain k =>
      have hcollected := ih (x := x) (outsideMarks_plain.mp h)
      simpa using hcollected
    | span i =>
      obtain ⟨hfirst, hlater⟩ := outsideMarks_span.mp h
      -- no mark lies across the start of the first gap, so what is in front of it is erased alone
      have hfront : ∀ A B, segs = A ++ .span () :: B →
          erase m (a ++ (g ++ fill g A)) = erase m a ++ erase m (g ++ fill g A) := by
        rintro A B rfl
        apply erase_append hm
        intro hacross
        apply hfirst
        rw [fill_append, ← List.append_assoc]
        exact hacross.extend_right _
      rw [fill_span, fill_span, List.append_assoc, markedAt_around_mark hm,
        markedAt_append hm hfirst]
      constructor
      · rintro (hold | rfl | ⟨y, hy, rfl⟩)
        · exact Or.inl (Or.inl hold)
        · exact Or.inr (Or.inl ⟨rfl, by simp⟩)
        · rcases (ih hlater).mp hy with hy | ⟨A, B, hsplit, rfl⟩
          · exact Or.inl (Or.inr ⟨y, hy, rfl⟩)
          · exact Or.inr (Or.inr ⟨A, B, hsplit, hfront A B hsplit⟩)
      · rintro ((hold | ⟨y, hy, rfl⟩) | ⟨-, rfl⟩ | ⟨A, B, hsplit, rfl⟩)
        · exact Or.inl hold
        · exact Or.inr (Or.inr ⟨y, (ih hlater).mpr (Or.inl hy), rfl⟩)
        · exact Or.inr (Or.inl (by simp))
        · refine Or.inr (Or.inr ⟨erase m (g ++ fill g A), ?_, hfront A B hsplit⟩)
          exact (ih hlater).mpr (Or.inr ⟨A, B, hsplit, rfl⟩)

/-! ## Texts that no mark touches -/

/-- Whether a mark and a text have no stretch in common when they stand in one text: neither lies in
the other one, and neither starts inside the other one. -/
structure ClearOf (m f : Text) : Prop where
  not_within : ¬ f <:+: m
  not_around : ¬ m <:+: f
  not_behind : ∀ v, v ≠ [] → v <:+ m → ¬ v <+: f
  not_before : ∀ u, u ≠ [] → u <+: m → ¬ u <:+ f

theorem ClearOf.ne_nil (h : ClearOf m g) : g ≠ [] := by
  rintro rfl
  exact h.not_within (List.nil_infix)

/-- A mark and a text without a common character have no stretch in common. -/
theorem clearOf_of_notMem (hm : m ≠ []) (hg : g ≠ []) (h : ∀ k ∈ g, k ∉ m) : ClearOf m g where
  not_within hin := by
    obtain ⟨k, rest, rfl⟩ := List.exists_cons_of_ne_nil hg
    exact h k List.mem_cons_self (hin.subset List.mem_cons_self)
  not_around hin := by
    obtain ⟨k, rest, rfl⟩ := List.exists_cons_of_ne_nil hm
    exact h k (hin.subset List.mem_cons_self) List.mem_cons_self
  not_behind v hv hsuf hpre := by
    obtain ⟨k, rest, rfl⟩ := List.exists_cons_of_ne_nil hv
    exact h k (hpre.subset List.mem_cons_self) (hsuf.subset List.mem_cons_self)
  not_before u hu hpre hsuf := by
    obtain ⟨k, rest, rfl⟩ := List.exists_cons_of_ne_nil hu
    exact h k (hsuf.subset List.mem_cons_self) (hpre.subset List.mem_cons_self)

theorem ClearOf.not_across_before (h : ClearOf m g) (a b : Text) : ¬ Across m a (g ++ b) := by
  rintro ⟨u, v, -, hv, rfl, -, hpre⟩
  rcases List.prefix_or_prefix_of_prefix hpre (List.prefix_append g b) with hvg | hgv
  · exact h.not_behind v hv (List.suffix_append u v) hvg
  · exact h.not_within (hgv.isInfix.trans (List.suffix_append u v).isInfix)

theorem ClearOf.not_across_behind (h : ClearOf m g) (a b : Text) : ¬ Across m (a ++ g) b := by
  rintro ⟨u, v, hu, -, rfl, hsuf, -⟩
  rcases List.suffix_or_suffix_of_suffix hsuf (List.suffix_append a g) with hug | hgu
  · exact h.not_before u hu (List.prefix_append u v) hug
  · exact h.not_within (hgu.isInfix.trans (List.prefix_append u v).isInfix)

/-- Erasing leaves a text that no mark touches where it is. -/
theorem ClearOf.erase_around (hm : IsMark m) (h : ClearOf m g) (a b : Text) :
    erase m (a ++ (g ++ b)) = erase m a ++ (g ++ erase m b) := by
  have hbehind : ¬ Across m g b := by simpa using h.not_across_behind [] b
  rw [erase_append hm (h.not_across_before a b), erase_append hm hbehind,
    erase_eq_self h.not_around]

/-- Likewise for a start of it. -/
theorem ClearOf.erase_start (hm : IsMark m) (h : ClearOf m (w ++ z)) (a : Text) :
    erase m (a ++ w) = erase m a ++ w := by
  have hjoint : ¬ Across m a w := by
    intro hacross
    have hwhole := h.not_across_before a []
    rw [List.append_nil] at hwhole
    exact hwhole (hacross.extend_right z)
  have hwithout : ¬ m <:+: w := fun hin => h.not_around (hin.trans (List.prefix_append w z).isInfix)
  rw [erase_append hm hjoint, erase_eq_self hwithout]

theorem ClearOf.outsideMarks (h : ClearOf m g) : OutsideMarks m g a segs :=
  fun A B _ => h.not_across_before (a ++ fill g A) (fill g B)

/-! ## Replacing a text by itself with a mark in front -/

/-- The marks that a replacement puts in can be erased again if it puts none inside a mark. -/
theorem Found.erase_replace (hm : IsMark m) (hg : g ≠ []) (h : Found g t segs)
    (hout : OutsideMarks m g [] segs) : erase m (Text.replace g (m ++ g) t) = erase m t := by
  have hkeeps := erase_fill hm hout
  rwa [List.nil_append, List.nil_append, h.fill_eq, ← h.replace_eq hg] at hkeeps

/-- A replacement that puts a mark inside a mark leaves more behind when the marks are erased. -/
theorem Found.length_erase_replace (hm : IsMark m) (hg : g ≠ []) (h : Found g t segs)
    (hin : ¬ OutsideMarks m g [] segs) :
    (erase m t).length < (erase m (Text.replace g (m ++ g) t)).length := by
  have hmore := length_erase_fill_lt hm hin
  rwa [List.nil_append, List.nil_append, h.fill_eq, ← h.replace_eq hg] at hmore

/-- The marks after a replacement are those before it and those that it puts in. -/
theorem Found.markedAt_replace_iff (hm : IsMark m) (hg : g ≠ []) (h : Found g t segs)
    (hout : OutsideMarks m g [] segs) :
    MarkedAt m (Text.replace g (m ++ g) t) x ↔
      MarkedAt m t x ∨ ∃ A B, segs = A ++ .span () :: B ∧ erase m (fill g A) = x := by
  have hmarks := markedAt_fill_iff (x := x) hm hout
  simp only [List.nil_append] at hmarks
  rwa [h.fill_eq, ← h.replace_eq hg] at hmarks

end Text

end MutationPreview
