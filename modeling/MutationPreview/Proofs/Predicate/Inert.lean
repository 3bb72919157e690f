import MutationPreview.Proofs.Predicate.Shape
import MutationPreview.Proofs.Text.Quotes

/-!
# Literals that do not decide the form of a predicate

A predicate is classified with its literals put back, so a landmark of a form may be found inside
quotes. A literal is inert if that cannot happen: its content holds none of the landmarks. Texts
that differ in inert literals only have the same forms.

Main statement: `Fills.accepts`, for two ways to fill the same places of a text.
-/

namespace MutationPreview

open Pattern PredicateForm

/-- What the forms look for, and may find inside quotes just as well. The quote after `like` may
be the one that ends a literal. -/
def landmarks : List Pattern := [
  char isSign, just ',', just ')', nullWords, inWord, seq likeWord (just '\''),
  chain (regexpLike.callName ++ [blanks, just '(']),
  chain (regexpExtract.callName ++ [blanks, just '(']),
  chain (regexpPosition.callName ++ [blanks, just '('])]

/-- Any of the landmarks. -/
def landmark : Pattern := firstOf landmarks

/-- Whether a text is a literal with something between its quotes, in which no form finds a
landmark. -/
def IsInert (v : Text) : Prop :=
  ∃ content, content ≠ [] ∧ v = inQuotes content ∧ landmark.hasMatch (content ++ ['\'']) = false

/-! ## Finding landmarks -/

theorem landmark_edgeFree : landmark.edgeFree = true := by decide

theorem landmark_consumes : landmark.consumes = true := by decide

theorem hasMatch_landmark_append {w : Text} (h : landmark.hasMatch w = true) (x y : Text) :
    landmark.hasMatch (x ++ w ++ y) = true := by
  obtain ⟨a, u, b, rfl, hu⟩ := (hasMatch_iff_spells landmark_edgeFree).mp h
  have hfull := hasMatch_of_spells landmark_edgeFree hu (x ++ a) (b ++ y)
  simpa using hfull

theorem hasMatch_landmark {p : Pattern} (hp : p ∈ landmarks) {u : Text} (h : p.Spells u) :
    landmark.hasMatch u = true := by
  have hmatch := hasMatch_of_spells landmark_edgeFree (reads_firstOf.mpr ⟨p, hp, h⟩) [] []
  simpa using hmatch

/-! ## Filling the same places with literals -/

section Fill

variable {α : Type} {cover cover' : α → Text} {segs : List (Segment α)}

/-- The places of a text are filled with inert literals in two ways. -/
def Fills (cover cover' : α → Text) (segs : List (Segment α)) : Prop :=
  ∀ a ∈ Segment.spans segs, IsInert (cover a) ∧ IsInert (cover' a)

namespace Fills

theorem symm (h : Fills cover cover' segs) : Fills cover' cover segs :=
  fun a ha => ⟨(h a ha).2, (h a ha).1⟩

theorem tail {s : Segment α} (h : Fills cover cover' (s :: segs)) : Fills cover cover' segs := by
  intro a ha
  rw [Segment.mem_spans] at ha
  exact h a (Segment.mem_spans.mpr (List.mem_cons_of_mem _ ha))

theorem of_append_left {A B : List (Segment α)} (h : Fills cover cover' (A ++ B)) :
    Fills cover cover' A := fun a ha => h a (by simp [ha])

theorem of_append_right {A B : List (Segment α)} (h : Fills cover cover' (A ++ B)) :
    Fills cover cover' B := fun a ha => h a (by simp [ha])

/-- Every place starts and ends with a quote. -/
theorem quotes (h : Fills cover cover' segs) {a : α} (ha : a ∈ Segment.spans segs) :
    ∃ content content', cover a = inQuotes content ∧ cover' a = inQuotes content' ∧
      content' ≠ [] := by
  obtain ⟨⟨content, -, heq, -⟩, content', hne, heq', -⟩ := h a ha
  exact ⟨content, content', heq, heq', hne⟩

/-- A class of characters that has the quote is met in both texts or in neither. -/
theorem exists_mem (hf : Fills cover cover' segs) {P : Char → Prop} (hP : P '\'')
    (h : ∃ d ∈ Segment.join cover segs, P d) : ∃ d ∈ Segment.join cover' segs, P d := by
  induction segs with
  | nil => simp at h
  | cons s segs ih =>
    cases s with
    | plain c =>
      obtain ⟨d, hd, hPd⟩ := h
      rcases List.mem_cons.mp hd with rfl | hd
      · exact ⟨d, by simp, hPd⟩
      · obtain ⟨e, he, hPe⟩ := ih hf.tail ⟨d, hd, hPd⟩
        exact ⟨e, by simp [he], hPe⟩
    | span a =>
      obtain ⟨-, content, -, heq, -⟩ := hf.quotes (a := a) (by simp)
      exact ⟨'\'', by simp [heq, inQuotes], hP⟩

theorem ne_nil (hf : Fills cover cover' segs) (h : Segment.join cover segs ≠ []) :
    Segment.join cover' segs ≠ [] := by
  obtain ⟨c, hc⟩ := List.exists_mem_of_ne_nil _ h
  obtain ⟨d, hd, -⟩ := hf.exists_mem (P := fun _ => True) trivial ⟨c, hc, trivial⟩
  exact List.ne_nil_of_mem hd

/-- A quoted stretch at the start of the text stays one. -/
theorem quoted_start (hf : Fills cover cover' segs) {c : Char} {y : Text}
    (h : Segment.join cover segs = '\'' :: c :: y) (hy : '\'' ∈ y) :
    ∃ c' y', Segment.join cover' segs = '\'' :: c' :: y' ∧ '\'' ∈ y' := by
  cases segs with
  | nil => simp at h
  | cons s segs =>
    cases s with
    | span a =>
      obtain ⟨-, content, -, heq, hne⟩ := hf.quotes (a := a) (by simp)
      obtain ⟨d, content, rfl⟩ := List.exists_cons_of_ne_nil hne
      exact ⟨d, content ++ '\'' :: Segment.join cover' segs, by simp [heq, inQuotes], by simp⟩
    | plain q =>
      rw [Segment.join_plain, List.cons.injEq] at h
      obtain ⟨rfl, h⟩ := h
      cases segs with
      | nil => simp at h
      | cons s segs =>
        cases s with
        | span a =>
          obtain ⟨-, content, -, heq, -⟩ := hf.quotes (a := a) (by simp)
          exact ⟨'\'', content ++ '\'' :: Segment.join cover' segs, by simp [heq, inQuotes],
            by simp⟩
        | plain d =>
          rw [Segment.join_plain, List.cons.injEq] at h
          obtain ⟨rfl, h⟩ := h
          obtain ⟨e, he, rfl⟩ :=
            hf.tail.tail.exists_mem (P := (· = '\'')) rfl ⟨'\'', h ▸ hy, rfl⟩
          exact ⟨d, Segment.join cover' segs, rfl, he⟩

/-- A segment that starts with a quote starts with one in the second filling too, and ends there
only if it is that quote. -/
theorem segment_head {s : Segment α} (hf : Fills cover cover' [s]) {y : Text}
    (h : Segment.join cover [s] = '\'' :: y) :
    ∃ y', Segment.join cover' [s] = '\'' :: y' ∧ (y' = [] → s = .plain '\'') := by
  cases s with
  | plain c =>
    have hc : c = '\'' := by
      simp at h
      exact h.1
    exact ⟨[], by simp [hc], fun _ => by rw [hc]⟩
  | span a =>
    obtain ⟨-, content, -, heq, -⟩ := hf.quotes (a := a) (by simp)
    exact ⟨content ++ ['\''], by simp [heq, inQuotes], fun hnil => by simp at hnil⟩

theorem segment_last {s : Segment α} (hf : Fills cover cover' [s]) {y : Text}
    (h : Segment.join cover [s] = y ++ ['\'']) :
    ∃ y', Segment.join cover' [s] = y' ++ ['\''] ∧ (y' = [] → s = .plain '\'') := by
  cases s with
  | plain c =>
    have hc : c = '\'' := by
      have hlast := congrArg List.getLast? h
      simpa using hlast
    exact ⟨[], by simp [hc], fun _ => by rw [hc]⟩
  | span a =>
    obtain ⟨-, content, -, heq, -⟩ := hf.quotes (a := a) (by simp)
    exact ⟨'\'' :: content, by simp [heq, inQuotes], fun hnil => by simp at hnil⟩

theorem segment_ne_nil {s : Segment α} (hf : Fills cover cover' [s]) :
    Segment.join cover [s] ≠ [] := by
  cases s with
  | plain c => simp
  | span a =>
    obtain ⟨content, -, heq, -⟩ := hf.quotes (a := a) (by simp)
    simp [heq, inQuotes]

/-- A stretch between quotes, both of them included, stays one. -/
theorem quoted_whole (hf : Fills cover cover' segs) {p : Text}
    (h : Segment.join cover segs = '\'' :: (p ++ ['\''])) (hp : p ≠ []) :
    ∃ p', Segment.join cover' segs = '\'' :: (p' ++ ['\'']) ∧ p' ≠ [] := by
  cases segs with
  | nil => simp at h
  | cons s segs =>
    rcases List.eq_nil_or_concat segs with rfl | ⟨mid, e, hsegs⟩
    · cases s with
      | plain c => simp [hp] at h
      | span a =>
        obtain ⟨-, content, -, heq, hne⟩ := hf.quotes (a := a) (by simp)
        exact ⟨content, by simp [heq, inQuotes], hne⟩
    · rw [List.concat_eq_append] at hsegs
      subst hsegs
      have hfs : Fills cover cover' [s] := of_append_left (B := mid ++ [e]) hf
      have hfmid : Fills cover cover' mid := of_append_left hf.tail
      have hfe : Fills cover cover' [e] := of_append_right hf.tail
      have hsplit : ∀ f : α → Text, Segment.join f (s :: (mid ++ [e])) =
          Segment.join f [s] ++ (Segment.join f mid ++ Segment.join f [e]) := by
        intro f
        rw [← Segment.join_append, ← Segment.join_append, List.singleton_append]
      rw [hsplit] at h
      -- the first segment starts the stretch and the last one ends it
      have hhead : ∃ y, Segment.join cover [s] = '\'' :: y := by
        obtain ⟨c, y, hy⟩ := List.exists_cons_of_ne_nil hfs.segment_ne_nil
        rw [hy, List.cons_append, List.cons.injEq] at h
        exact ⟨y, by rw [hy, h.1]⟩
      have hlast : ∃ y, Segment.join cover [e] = y ++ ['\''] := by
        rcases List.eq_nil_or_concat (Segment.join cover [e]) with hnil | ⟨y, c, hy⟩
        · exact absurd hnil hfe.segment_ne_nil
        · rw [List.concat_eq_append] at hy
          rw [hy, ← List.append_assoc, ← List.append_assoc, ← List.cons_append] at h
          have hc := List.append_inj_right' h rfl
          exact ⟨y, by rw [hy, hc]⟩
      obtain ⟨y, hy⟩ := hhead
      obtain ⟨z, hz⟩ := hlast
      obtain ⟨y', hy', hs⟩ := hfs.segment_head hy
      obtain ⟨z', hz', he⟩ := hfe.segment_last hz
      refine ⟨y' ++ (Segment.join cover' mid ++ z'), ?_, ?_⟩
      · rw [hsplit, hy', hz']
        simp
      · intro hnil
        obtain ⟨hy'nil, hrest⟩ := List.append_eq_nil_iff.mp hnil
        obtain ⟨hmid, hz'nil⟩ := List.append_eq_nil_iff.mp hrest
        -- otherwise the stretch was two quotes with nothing between
        have hmidNil : Segment.join cover mid = [] := by
          by_contra hne
          exact hfmid.ne_nil hne hmid
        rw [hs hy'nil, he hz'nil, hmidNil] at h
        simp at h
        exact hp h

/-! ## Landmarks stay -/

/-- A stretch that with what follows it makes a landmark lies between the literals. -/
theorem exists_plain_of (hf : Fills cover cover' segs) {w x y : Text} (hne : w ≠ [])
    (hquote : '\'' ∉ w)
    (hw : ∀ z, z ≠ [] → z <+: y → landmark.hasMatch (w ++ z) = true)
    (h : Segment.join cover segs = x ++ w ++ y) :
    ∃ A B, Fills cover cover' A ∧ Fills cover cover' B ∧ x = Segment.join cover A ∧
      y = Segment.join cover B ∧
      Segment.join cover' segs = Segment.join cover' A ++ w ++ Segment.join cover' B := by
  have hspan : ∀ a ∈ Segment.spans segs,
      ∃ o body c, cover a = o :: (body ++ [c]) ∧ o ∉ w ∧ c ∉ w := by
    intro a ha
    obtain ⟨content, -, heq, -⟩ := hf.quotes ha
    exact ⟨'\'', content, '\'', heq, hquote, hquote⟩
  rcases Segment.split_join hne hspan h with
    ⟨A, B, rfl, hx, hy⟩ | ⟨A, a, B, o, u, v, c, rfl, ha, -, hy⟩
  · refine ⟨A, B, hf.of_append_left.of_append_left, hf.of_append_right, hx, hy, ?_⟩
    rw [Segment.join_append, Segment.join_append, Segment.join_map_plain]
  · obtain ⟨content, -, heq, hnone⟩ := (hf a (by simp)).1
    rw [ha, inQuotes, List.cons.injEq] at heq
    have hpre : v ++ [c] <+: y := ⟨Segment.join cover B, by rw [hy]; simp⟩
    have hsome := hasMatch_landmark_append (hw (v ++ [c]) (by simp) hpre) u []
    rw [← heq.2] at hnone
    simp only [List.append_assoc, List.append_nil] at hsome hnone
    rw [hsome] at hnone
    simp at hnone

/-- A stretch with a landmark lies between the literals. -/
theorem exists_plain (hf : Fills cover cover' segs) {w x y : Text}
    (hw : landmark.hasMatch w = true) (hquote : '\'' ∉ w)
    (h : Segment.join cover segs = x ++ w ++ y) :
    ∃ A B, Fills cover cover' A ∧ Fills cover cover' B ∧ x = Segment.join cover A ∧
      y = Segment.join cover B ∧
      Segment.join cover' segs = Segment.join cover' A ++ w ++ Segment.join cover' B := by
  have hne : w ≠ [] := by
    rintro rfl
    obtain ⟨a, u, b, hnil, hu⟩ := (hasMatch_iff_spells landmark_edgeFree).mp hw
    have hune := hu.ne_nil landmark_consumes
    simp [hune] at hnil
  exact hf.exists_plain_of hne hquote
    (fun z _ _ => by simpa using hasMatch_landmark_append hw [] z) h

/-- A stretch without quotes at the start of the text lies before the first literal. -/
theorem plain_start (hf : Fills cover cover' segs) {w y : Text} (hquote : '\'' ∉ w)
    (h : Segment.join cover segs = w ++ y) :
    ∃ B, Fills cover cover' B ∧ y = Segment.join cover B ∧
      Segment.join cover' segs = w ++ Segment.join cover' B := by
  have hspan : ∀ a ∈ Segment.spans segs, ∃ o rest, cover a = o :: rest ∧ o ∉ w := by
    intro a ha
    obtain ⟨content, -, heq, -⟩ := hf.quotes ha
    exact ⟨'\'', content ++ ['\''], heq, hquote⟩
  obtain ⟨B, rfl, hy⟩ := Segment.split_join_start hspan h
  refine ⟨B, hf.of_append_right, hy, ?_⟩
  rw [Segment.join_append, Segment.join_map_plain]

/-! ## Forms stay -/

theorem accepts_comparison (hf : Fills cover cover' segs)
    (h : comparison.accepts (Segment.join cover segs) = true) :
    comparison.accepts (Segment.join cover' segs) = true := by
  obtain ⟨x, c, y, heq, hx, hc, hy⟩ := accepts_comparison_iff.mp h
  have hmark : landmark.hasMatch [c] = true :=
    hasMatch_landmark (p := char isSign) (by simp [landmarks]) ⟨c, hc, rfl⟩
  have hquote : '\'' ∉ [c] := by
    rw [List.mem_singleton]
    rintro rfl
    exact absurd hc (by decide)
  obtain ⟨A, B, hA, hB, rfl, rfl, heq'⟩ := hf.exists_plain hmark hquote heq
  exact accepts_comparison_iff.mpr
    ⟨_, c, _, heq', hA.ne_nil hx, hc, hB.exists_mem (by decide) hy⟩

theorem accepts_nullTest (hf : Fills cover cover' segs)
    (h : nullTest.accepts (Segment.join cover segs) = true) :
    nullTest.accepts (Segment.join cover' segs) = true := by
  obtain ⟨x, w, y, heq, hx, hw⟩ := accepts_nullTest_iff.mp h
  have hmark := hasMatch_landmark (by simp [landmarks]) hw
  obtain ⟨A, B, hA, -, rfl, rfl, heq'⟩ := hf.exists_plain hmark (hw.notMem (by decide)) heq
  exact accepts_nullTest_iff.mpr ⟨_, w, _, heq', hA.ne_nil hx, hw⟩

theorem accepts_like (hf : Fills cover cover' segs)
    (h : like.accepts (Segment.join cover segs) = true) :
    like.accepts (Segment.join cover' segs) = true := by
  obtain ⟨x, w, c, y, heq, hx, hw, hy⟩ := accepts_like_iff.mp h
  -- together with the quote behind it the word is a landmark
  have hmark : ∀ z, z ≠ [] → z <+: '\'' :: c :: y → landmark.hasMatch (w ++ z) = true := by
    intro z hz hpre
    obtain ⟨d, z, rfl⟩ := List.exists_cons_of_ne_nil hz
    have hd : d = '\'' := (List.cons_prefix_cons.mp hpre).1
    have hspells : (seq likeWord (just '\'')).Spells (w ++ ['\'']) :=
      (spells_seq rfl rfl).mpr ⟨w, ['\''], rfl, hw, by simp⟩
    have hmark := hasMatch_landmark (by simp [landmarks]) hspells
    have hfull := hasMatch_landmark_append hmark [] z
    rw [hd]
    simpa using hfull
  obtain ⟨A, B, hA, hB, rfl, hrest, heq'⟩ :=
    hf.exists_plain_of (hw.ne_nil (by decide)) (hw.notMem (by decide)) hmark heq
  obtain ⟨c', y', hrest', hy'⟩ := hB.quoted_start hrest.symm hy
  rw [hrest'] at heq'
  exact accepts_like_iff.mpr ⟨_, w, c', y', heq', hA.ne_nil hx, hw, hy'⟩

theorem hasMatch_bracket : landmark.hasMatch [')'] = true :=
  hasMatch_landmark (p := just ')') (by simp [landmarks]) (by simp)

theorem hasMatch_comma : landmark.hasMatch [','] = true :=
  hasMatch_landmark (p := just ',') (by simp [landmarks]) (by simp)

theorem accepts_inList (hf : Fills cover cover' segs)
    (h : inList.accepts (Segment.join cover segs) = true) :
    inList.accepts (Segment.join cover' segs) = true := by
  obtain ⟨x, w, a, y, heq, hx, hw, ha⟩ := accepts_inList_iff.mp h
  have hmark := hasMatch_landmark (by simp [landmarks]) hw
  obtain ⟨A, B, hA, hB, rfl, hrest, heq'⟩ := hf.exists_plain hmark (hw.notMem (by decide)) heq
  obtain ⟨C, D, hC, -, rfl, rfl, hrest'⟩ := hB.exists_plain hasMatch_bracket (by simp) hrest.symm
  rw [hrest'] at heq'
  exact accepts_inList_iff.mpr ⟨_, w, _, _, heq', hA.ne_nil hx, hw, hC.ne_nil ha⟩

/-- A call stays, if what must follow it stays. -/
theorem hasCall (hf : Fills cover cover' segs) {name args more : List Pattern}
    (hname : chain (name ++ [blanks, just '(']) ∈ landmarks)
    (hnameQuote : (chain (name ++ [blanks, just '('])).avoids '\'' = true)
    (hargs : (chain args).edgeFree = true)
    (hargsQuote : (chain (args ++ [callEnd])).avoids '\'' = true)
    (hmore : ∀ {rest : List (Segment α)}, Fills cover cover' rest →
      (∃ m y, Segment.join cover rest = m ++ y ∧ (chain more).Spells m) →
      ∃ m y, Segment.join cover' rest = m ++ y ∧ (chain more).Spells m)
    (h : HasCall name args more (Segment.join cover segs)) :
    HasCall name args more (Segment.join cover' segs) := by
  obtain ⟨x, w, e, s, p, r, m, y, heq, hw, he, hs, hp, hr, hm⟩ := h
  obtain ⟨A, B, -, hB, rfl, hBeq, heq'⟩ :=
    hf.exists_plain (hasMatch_landmark hname hw) (hw.notMem hnameQuote) heq
  have hsMark : landmark.hasMatch s = true := by
    obtain ⟨c, b, rfl, hc, -⟩ := (spells_chain_cons rfl rfl).mp hs
    have hfull := hasMatch_landmark_append hasMatch_comma [] b
    rw [spells_just.mp hc]
    simpa using hfull
  obtain ⟨C, D, hC, hD, rfl, hDeq, hBeq'⟩ :=
    hB.exists_plain hsMark (hs.notMem (by decide)) hBeq.symm
  have hrMark : landmark.hasMatch r = true := by
    obtain ⟨a, c, rfl, -, hc⟩ := (spells_chain_append args hargs rfl).mp hr
    obtain ⟨b, rfl, -⟩ := spells_callEnd.mp hc
    have hfull := hasMatch_landmark_append hasMatch_bracket (a ++ b) []
    simpa using hfull
  obtain ⟨E, F, hE, hF, hEeq, hFeq, hDeq'⟩ :=
    hD.exists_plain hrMark (hr.notMem hargsQuote) hDeq.symm
  obtain ⟨p', hp', hpne⟩ := hE.quoted_whole hEeq.symm hp
  obtain ⟨m', y', hmy, hm'⟩ := hmore hF ⟨m, y, hFeq.symm, hm⟩
  refine ⟨Segment.join cover' A, w, Segment.join cover' C, s, p', r, m', y', ?_, hw, hC.ne_nil he,
    hs, hpne, hr, hm'⟩
  rw [heq', hBeq', hDeq', hp', hmy]

/-- What a call is compared with stays. -/
theorem compared_stays (hf : Fills cover cover' segs)
    (h : ∃ m y, Segment.join cover segs = m ++ y ∧ (chain [compared]).Spells m) :
    ∃ m y, Segment.join cover' segs = m ++ y ∧ (chain [compared]).Spells m := by
  rw [exists_compared_iff] at h ⊢
  rcases h with ⟨w, y, heq, hw, hy⟩ | ⟨w, a, b, y, heq, hw, ha, hb⟩
  · obtain ⟨B, hB, rfl, heq'⟩ := hf.plain_start (hw.notMem (by decide)) heq
    exact Or.inl ⟨w, _, heq', hw, hB.ne_nil hy⟩
  · obtain ⟨B, hB, hBeq, heq'⟩ := hf.plain_start (hw.notMem (by decide)) heq
    obtain ⟨C, D, hC, hD, rfl, hDeq, hBeq'⟩ :=
      hB.exists_plain hasMatch_comma (by simp) hBeq.symm
    obtain ⟨E, F, hE, -, rfl, rfl, hDeq'⟩ :=
      hD.exists_plain hasMatch_bracket (by simp) hDeq.symm
    refine Or.inr ⟨w, _, _, Segment.join cover' F, ?_, hw, hC.ne_nil ha, hE.ne_nil hb⟩
    rw [heq', hBeq', hDeq']

/-- A form of the text filled in one way is a form of the text filled in the other. -/
theorem accepts (hf : Fills cover cover' segs) {form : PredicateForm}
    (h : form.accepts (Segment.join cover segs) = true) :
    form.accepts (Segment.join cover' segs) = true := by
  cases form with
  | comparison => exact hf.accepts_comparison h
  | nullTest => exact hf.accepts_nullTest h
  | like => exact hf.accepts_like h
  | inList => exact hf.accepts_inList h
  | regexpLike =>
    refine accepts_regexpLike_iff.mpr (hf.hasCall (by simp [landmarks]) (by decide) rfl (by decide)
      ?_ (accepts_regexpLike_iff.mp h))
    intro rest _ _
    exact ⟨[], _, rfl, rfl⟩
  | regexpExtract =>
    exact accepts_regexpExtract_iff.mpr (hf.hasCall (by simp [landmarks]) (by decide) rfl
      (by decide) (fun hrest => hrest.compared_stays) (accepts_regexpExtract_iff.mp h))
  | regexpPosition =>
    exact accepts_regexpPosition_iff.mpr (hf.hasCall (by simp [landmarks]) (by decide) rfl
      (by decide) (fun hrest => hrest.compared_stays) (accepts_regexpPosition_iff.mp h))

end Fills

end Fill

end MutationPreview
