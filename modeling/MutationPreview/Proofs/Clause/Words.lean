import MutationPreview.Proofs.Clause.Connective

/-!
# Cutting a text word by word

The boundaries of a text are decided by its words and blanks alone: a boundary is a blank, a word
that is a connective, and a blank. So a rewriting that leaves blanks and connectives as they are,
and makes neither out of anything else (`KeepsWords`), does not move the boundaries.

Main statement: such a rewriting can be done before or after the text is cut
(`KeepsWords.split_eq`). Both texts are gone through side by side, past a boundary
(`KeepsWords.rewritesGaps_boundary`), a blank that starts none (`KeepsWords.rewritesGaps_blank`) or a
word (`KeepsWords.rewritesGaps_word`).
-/

namespace MutationPreview

open Pattern

/-! ## Words and blanks -/

/-- Whether a text is empty or starts with a blank, so that a word in front of it ends there. -/
def EndsWord (y : Text) : Prop := y = [] ∨ ∃ b rest, y = b :: rest ∧ isBlank b = true

/-- Every text starts with a word, which may be empty, up to the first blank or the end. -/
theorem exists_word (t : Text) :
    ∃ w y, t = w ++ y ∧ (∀ c ∈ w, isBlank c = false) ∧ EndsWord y := by
  induction t with
  | nil => exact ⟨[], [], rfl, by simp, Or.inl rfl⟩
  | cons c t ih =>
    by_cases hc : isBlank c = true
    · exact ⟨[], c :: t, rfl, by simp, Or.inr ⟨c, t, rfl, hc⟩⟩
    · obtain ⟨w, y, rfl, hw, hy⟩ := ih
      refine ⟨c :: w, y, rfl, ?_, hy⟩
      intro d hd
      rcases List.mem_cons.mp hd with rfl | hd
      · exact Bool.eq_false_iff.mpr hc
      · exact hw d hd

/-- A connective and a blank at the start of a text are its first word and the blank behind. -/
theorem word_eq_connective {w y k rest : Text} {b : Char} (hw : ∀ c ∈ w, isBlank c = false)
    (hy : EndsWord y) (hk : connective.Spells k) (hb : isBlank b = true)
    (h : w ++ y = k ++ b :: rest) : w = k ∧ y = b :: rest := by
  rcases hy with rfl | ⟨b', rest', rfl, hb'⟩
  · -- the blank would lie in the word
    have hblank := hw b (by rw [List.append_nil] at h; simp [h])
    rw [hb] at hblank
    simp at hblank
  · obtain ⟨rfl, rfl, rfl⟩ :=
      eq_of_append_blank hw (fun c hc => isBlank_of_mem_connective hk hc) hb' hb h
    exact ⟨rfl, rfl⟩

/-- Inside a word there is no boundary, and at its start only if the text starts there. -/
theorem no_boundary_at_word {before w y : Text} {c : Char}
    (hw : ∀ d ∈ c :: w, isBlank d = false) (hy : EndsWord y)
    (hnone : before = [] → y ≠ [] → ¬ connective.Spells (c :: w)) :
    Grammar.boundary.matchAt? ⟨before, c :: w ++ y⟩ = none := by
  rw [matchAt?_eq_none_iff]
  intro u rest hsplit hreads
  obtain ⟨e, k, b, rfl, he, hk, hb⟩ := reads_boundary_iff.mp hreads
  rcases he with ⟨hbefore, rfl⟩ | ⟨d, hd, rfl⟩
  · obtain ⟨hword, hy⟩ := word_eq_connective hw hy hk hb (by simpa using hsplit)
    exact hnone hbefore (by simp [hy]) (hword ▸ hk)
  · simp only [List.cons_append, List.nil_append, List.cons.injEq] at hsplit
    have hblank := hw c List.mem_cons_self
    rw [hsplit.1, hd] at hblank
    simp at hblank

/-- At a blank there is a boundary only if the word behind it is a connective with a blank behind
it. -/
theorem no_boundary_at_blank {before w y : Text} {b : Char} (hb : isBlank b = true)
    (hw : ∀ c ∈ w, isBlank c = false) (hy : EndsWord y)
    (hnone : y ≠ [] → ¬ connective.Spells w) :
    Grammar.boundary.matchAt? ⟨before, b :: (w ++ y)⟩ = none := by
  rw [matchAt?_eq_none_iff]
  intro u rest hsplit hreads
  obtain ⟨e, k, b', rfl, he, hk, hb'⟩ := reads_boundary_iff.mp hreads
  rcases he with ⟨-, rfl⟩ | ⟨d, -, rfl⟩
  · obtain ⟨c, k, rfl⟩ := List.exists_cons_of_ne_nil (connective_ne_nil hk)
    simp only [List.nil_append, List.cons_append, List.cons.injEq] at hsplit
    have hletter := isBlank_of_mem_connective hk (c := c) List.mem_cons_self
    rw [← hsplit.1, hb] at hletter
    simp at hletter
  · simp only [List.cons_append, List.nil_append, List.append_assoc, List.cons.injEq] at hsplit
    obtain ⟨rfl, hy⟩ := word_eq_connective hw hy hk hb' hsplit.2
    exact hnone (by simp [hy]) hk

/-! ## The segments of a text, word by word -/

namespace Pattern

variable {before y : Text} {segs : List (Segment Match)}

theorem Segmented.past_word {w : Text} (h : Grammar.boundary.Segmented before (w ++ y) segs)
    (hw : ∀ c ∈ w, isBlank c = false) (hy : EndsWord y)
    (hnone : before = [] → y ≠ [] → ¬ connective.Spells w) :
    ∃ more, segs = w.map .plain ++ more ∧
      Grammar.boundary.Segmented (w.reverse ++ before) y more := by
  refine h.past_plain fun a c b hsplit => ?_
  refine no_boundary_at_word (w := b) (fun d hd => hw d (by rw [hsplit]; exact List.mem_append_right a hd))
    hy fun hnil => ?_
  obtain ⟨ha, hbefore⟩ := List.append_eq_nil_iff.mp hnil
  obtain rfl : a = [] := by simpa using ha
  rw [← List.nil_append (c :: b), ← hsplit]
  exact hnone hbefore

theorem Segmented.past_boundary {u : Text} (h : Grammar.boundary.Segmented before (u ++ y) segs)
    (hreads : Grammar.boundary.Reads before u y) :
    ∃ m more, segs = .span m :: more ∧
      Grammar.boundary.Segmented (u.reverse ++ before) y more := by
  obtain ⟨m, more, rfl, -, -, hmore⟩ := h.past_match hreads fun v rest hsplit hv =>
    (boundary_unique hreads hv hsplit).symm
  exact ⟨m, more, rfl, hmore⟩

end Pattern

/-! ## Rewritings that keep blanks and connectives -/

/-- Whether a rewriting goes word by word, leaves blanks and connectives as they are, and makes
neither out of anything else. -/
structure KeepsWords (M : Text → Text) : Prop where
  nil : M [] = []
  cut : ∀ a b rest, isBlank b = true → M (a ++ b :: rest) = M a ++ b :: M rest
  word : ∀ w, (∀ c ∈ w, isBlank c = false) → ∀ c ∈ M w, isBlank c = false
  keeps : ∀ w, connective.Spells w → M w = w
  reflects : ∀ w, connective.Spells (M w) → M w = w

namespace Segment

@[simp] theorem firstGap_map_plain_append {α : Type} (w : Text) (segs : List (Segment α)) :
    firstGap (w.map .plain ++ segs) = w ++ firstGap segs := by
  induction w with
  | nil => rfl
  | cons c w ih => simp [firstGap, ih]

@[simp] theorem laterGaps_map_plain_append {α : Type} (w : Text) (segs : List (Segment α)) :
    laterGaps (w.map .plain ++ segs) = laterGaps segs := by
  induction w with
  | nil => rfl
  | cons c w ih => simp [laterGaps, ih]

end Segment

namespace KeepsWords

variable {M : Text → Text}

theorem connective_iff (h : KeepsWords M) {w : Text} :
    connective.Spells (M w) ↔ connective.Spells w := by
  constructor
  · intro hw
    rw [← h.reflects w hw]
    exact hw
  · intro hw
    rw [h.keeps w hw]
    exact hw

theorem cons_blank (h : KeepsWords M) {b : Char} (hb : isBlank b = true) (rest : Text) :
    M (b :: rest) = b :: M rest := by
  have hcut := h.cut [] b rest hb
  rwa [h.nil] at hcut

/-- The rewriting of a text that starts with a word. -/
theorem word_append (h : KeepsWords M) (w : Text) {y : Text} (hy : EndsWord y) :
    M (w ++ y) = M w ++ M y := by
  rcases hy with rfl | ⟨b, rest, rfl, hb⟩
  · rw [h.nil, List.append_nil, List.append_nil]
  · rw [h.cut w b rest hb, h.cons_blank hb]

theorem endsWord (h : KeepsWords M) {y : Text} (hy : EndsWord y) : EndsWord (M y) := by
  rcases hy with rfl | ⟨b, rest, rfl, hb⟩
  · exact Or.inl h.nil
  · exact Or.inr ⟨b, M rest, h.cons_blank hb rest, hb⟩

/-- A word with something behind it becomes a connective only if it is one. -/
theorem not_connective (h : KeepsWords M) {w y : Text} (hnone : y ≠ [] → ¬ connective.Spells w) :
    M y ≠ [] → ¬ connective.Spells (M w) := by
  intro hne hspells
  refine hnone ?_ (h.connective_iff.mp hspells)
  rintro rfl
  exact hne h.nil

end KeepsWords

/-! ## The gaps of a rewritten text -/

/-- Whether the gaps of one text are those of another one, rewritten. -/
def RewritesGaps (M : Text → Text) (segs segs' : List (Segment Match)) : Prop :=
  Segment.firstGap segs' = M (Segment.firstGap segs) ∧
    Segment.laterGaps segs' = (Segment.laterGaps segs).map M

namespace KeepsWords

variable {M : Text → Text} {before before' rest : Text} {b : Char} {segs segs' : List (Segment Match)}

/-- Where a text ends a word, its first gap does. -/
theorem endsWord_firstGap {y : Text} (hsegs : Grammar.boundary.Segmented before y segs)
    (hy : EndsWord y) : EndsWord (Segment.firstGap segs) := by
  have hpre := Segment.firstGap_prefix_join Match.text segs
  rw [hsegs.join_eq] at hpre
  rcases hy with rfl | ⟨b, rest, rfl, hb⟩
  · exact Or.inl (List.prefix_nil.mp hpre)
  · rcases List.prefix_cons_iff.mp hpre with hnil | ⟨gap, hgap, -⟩
    · exact Or.inl hnil
    · exact Or.inr ⟨b, gap, hgap, hb⟩

/-- A word in front goes to the first gap. -/
theorem rewritesGaps_word (h : KeepsWords M) (w : Text) (hgap : EndsWord (Segment.firstGap segs))
    (hsegs : RewritesGaps M segs segs') :
    RewritesGaps M (w.map .plain ++ segs) ((M w).map .plain ++ segs') := by
  obtain ⟨hfirst, hlater⟩ := hsegs
  rw [RewritesGaps, Segment.firstGap_map_plain_append, Segment.firstGap_map_plain_append,
    Segment.laterGaps_map_plain_append, Segment.laterGaps_map_plain_append, hfirst, hlater,
    h.word_append w hgap]
  exact ⟨rfl, rfl⟩

/-- Behind a boundary a gap starts. -/
theorem rewritesGaps_boundary (h : KeepsWords M) {u t : Text}
    (hsegs : Grammar.boundary.Segmented before (u ++ t) segs)
    (hsegs' : Grammar.boundary.Segmented before' (u ++ M t) segs')
    (hreads : Grammar.boundary.Reads before u t) (hreads' : Grammar.boundary.Reads before' u (M t))
    (hrest : ∀ more more', Grammar.boundary.Segmented (u.reverse ++ before) t more →
      Grammar.boundary.Segmented (u.reverse ++ before') (M t) more' → RewritesGaps M more more') :
    RewritesGaps M segs segs' := by
  obtain ⟨m, more, rfl, hmore⟩ := hsegs.past_boundary hreads
  obtain ⟨m', more', rfl, hmore'⟩ := hsegs'.past_boundary hreads'
  obtain ⟨hfirst, hlater⟩ := hrest more more' hmore hmore'
  exact ⟨h.nil.symm, by simp [Segment.laterGaps, hfirst, hlater]⟩

/-- A blank that starts no boundary goes to the first gap. -/
theorem rewritesGaps_blank (h : KeepsWords M) (hb : isBlank b = true)
    (hsegs : Grammar.boundary.Segmented before (b :: rest) segs)
    (hsegs' : Grammar.boundary.Segmented before' (b :: M rest) segs')
    (hnone : Grammar.boundary.matchAt? ⟨before, b :: rest⟩ = none)
    (hnone' : Grammar.boundary.matchAt? ⟨before', b :: M rest⟩ = none)
    (hrest : ∀ more more', Grammar.boundary.Segmented (b :: before) rest more →
      Grammar.boundary.Segmented (b :: before') (M rest) more' → RewritesGaps M more more') :
    RewritesGaps M segs segs' := by
  obtain ⟨more, rfl, hmore⟩ := hsegs.past_char hnone
  obtain ⟨more', rfl, hmore'⟩ := hsegs'.past_char hnone'
  obtain ⟨hfirst, hlater⟩ := hrest more more' hmore hmore'
  refine ⟨?_, hlater⟩
  rw [Segment.firstGap, Segment.firstGap, hfirst, h.cons_blank hb]

/-- The gaps of a rewritten text from a blank on, if those of every shorter text are known. -/
theorem rewritesGaps_from_blank (h : KeepsWords M) (hb : isBlank b = true)
    (hsegs : Grammar.boundary.Segmented before (b :: rest) segs)
    (hsegs' : Grammar.boundary.Segmented before' (b :: M rest) segs')
    (hshorter : ∀ t, t.length ≤ rest.length → ∀ front front' more more', front ≠ [] → front' ≠ [] →
      Grammar.boundary.Segmented front t more → Grammar.boundary.Segmented front' (M t) more' →
        RewritesGaps M more more') :
    RewritesGaps M segs segs' := by
  obtain ⟨v, z, rfl, hv, hz⟩ := exists_word rest
  by_cases hnext : z ≠ [] ∧ connective.Spells v
  · -- the blank starts a boundary
    obtain ⟨hne, hspells⟩ := hnext
    obtain ⟨b', t, rfl, hb'⟩ := hz.resolve_left hne
    have hreads : ∀ before rest, Grammar.boundary.Reads before (b :: v ++ [b']) rest := fun _ _ =>
      reads_boundary_iff.mpr ⟨[b], v, b', rfl, Or.inr ⟨b, hb, rfl⟩, hspells, hb'⟩
    rw [h.cut v b' t hb', h.keeps v hspells] at hsegs'
    refine h.rewritesGaps_boundary (u := b :: v ++ [b']) (t := t) (by simpa using hsegs)
      (by simpa using hsegs') (hreads _ _) (hreads _ _) ?_
    have hlen : t.length ≤ (v ++ b' :: t).length := by
      simp only [List.length_append, List.length_cons]
      omega
    exact fun more more' => hshorter t hlen _ _ more more' (by simp) (by simp)
  · -- the blank is passed on its own
    have hnone : z ≠ [] → ¬ connective.Spells v := fun hne hspells => hnext ⟨hne, hspells⟩
    refine h.rewritesGaps_blank hb hsegs hsegs' ?_ ?_ ?_
    · exact no_boundary_at_blank hb hv hz hnone
    · rw [h.word_append v hz]
      exact no_boundary_at_blank hb (h.word v hv) (h.endsWord hz) (h.not_connective hnone)
    · exact fun more more' => hshorter _ (Nat.le_refl _) _ _ more more' (by simp) (by simp)

/-- The gaps of a rewritten text, from any place on where a word starts. -/
theorem gaps_eq (h : KeepsWords M) {after : Text}
    (hsegs : Grammar.boundary.Segmented before after segs)
    (hsegs' : Grammar.boundary.Segmented before' (M after) segs')
    (hstart : before = [] ↔ before' = []) : RewritesGaps M segs segs' := by
  -- each step goes past a word and the blank behind it, or past a whole boundary
  induction hlen : after.length using Nat.strong_induction_on generalizing
    before after before' segs segs' with
  | _ n ih =>
    obtain ⟨w, y, rfl, hw, hy⟩ := exists_word after
    by_cases hfirst : before = [] ∧ y ≠ [] ∧ connective.Spells w
    · -- the text starts with a boundary
      obtain ⟨rfl, hne, hspells⟩ := hfirst
      obtain rfl := hstart.mp rfl
      obtain ⟨b, rest, rfl, hb⟩ := hy.resolve_left hne
      have hreads : ∀ rest, Grammar.boundary.Reads [] (w ++ [b]) rest := fun _ =>
        reads_boundary_iff.mpr ⟨[], w, b, rfl, Or.inl ⟨rfl, rfl⟩, hspells, hb⟩
      rw [h.cut w b rest hb, h.keeps w hspells] at hsegs'
      refine h.rewritesGaps_boundary (u := w ++ [b]) (t := rest) (by simpa using hsegs)
        (by simpa using hsegs') (hreads _) (hreads _) fun more more' hmore hmore' => ?_
      refine ih rest.length ?_ hmore hmore' (by simp) rfl
      rw [← hlen]
      simp only [List.length_append, List.length_cons]
      omega
    · rw [h.word_append w hy] at hsegs'
      have hnone : before = [] → y ≠ [] → ¬ connective.Spells w := fun hbefore hne hspells =>
        hfirst ⟨hbefore, hne, hspells⟩
      have hnone' : before' = [] → M y ≠ [] → ¬ connective.Spells (M w) := fun hbefore =>
        h.not_connective (hnone (hstart.mpr hbefore))
      obtain ⟨more, rfl, hmore⟩ := hsegs.past_word hw hy hnone
      obtain ⟨more', rfl, hmore'⟩ := hsegs'.past_word (h.word w hw) (h.endsWord hy) hnone'
      refine h.rewritesGaps_word w (endsWord_firstGap hmore hy) ?_
      rcases hy with rfl | ⟨b, rest, rfl, hb⟩
      · rw [h.nil] at hmore'
        rw [hmore.eq_nil, hmore'.eq_nil]
        exact ⟨h.nil.symm, rfl⟩
      · rw [h.cons_blank hb] at hmore'
        refine h.rewritesGaps_from_blank hb hmore hmore' ?_
        intro t ht front front' last last' hne hne' hlast hlast'
        refine ih t.length ?_ hlast hlast' (by simp [hne, hne']) rfl
        rw [← hlen]
        simp only [List.length_append, List.length_cons]
        omega

/-- A rewriting that keeps blanks and connectives can be done before or after the text is cut. -/
theorem split_eq (h : KeepsWords M) (t : Text) :
    Grammar.boundary.split (M t) = (Grammar.boundary.split t).map M := by
  have hgaps := h.gaps_eq (segmented_segments consumes_boundary t)
    (segmented_segments consumes_boundary (M t)) Iff.rfl
  rw [Pattern.split, Pattern.split, Segment.gaps_eq, Segment.gaps_eq, hgaps.1, hgaps.2,
    List.map_cons]

end KeepsWords

end MutationPreview
