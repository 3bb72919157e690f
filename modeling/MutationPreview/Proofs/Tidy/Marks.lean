import MutationPreview.Proofs.Tidy.Steps

/-!
# Words with a mark

Dropping the marks of staging tables leaves no word that starts with the mark, unless a word carries
it twice (`unmarked_dropMarks`). A text that has no such word stays so when it is cut, and when texts
are joined in the middle of no word.
-/

namespace MutationPreview

open Pattern

/-- No word of a text starts with the mark. -/
def Unmarked (mark t : Text) : Prop :=
  ∀ x u y, t = x ++ (u ++ y) → (word mark).Spells u → x.getLast?.any isWord = true

section Marks

variable {mark t a b : Text}

theorem unmarked_iff (hmark : mark ≠ [] ∧ ∀ x ∈ mark, isWordLetter x = true) :
    Unmarked mark t ↔ (Grammar.stagingMark mark).hasMatch t = false := by
  rw [Bool.eq_false_iff, Ne, hasMatch_iff]
  constructor
  · rintro h ⟨x, u, y, ht, hreads⟩
    obtain ⟨hu, hbefore⟩ := (reads_stagingMark_iff hmark).mp hreads
    rw [List.head?_reverse, h x u y (by rw [ht, List.append_assoc]) hu] at hbefore
    cases hbefore
  · intro h x u y ht hu
    by_contra hbefore
    refine h ⟨x, u, y, by rw [ht, List.append_assoc], (reads_stagingMark_iff hmark).mpr ⟨hu, ?_⟩⟩
    rw [List.head?_reverse]
    simpa using hbefore

theorem Unmarked.left (h : Unmarked mark (a ++ b)) : Unmarked mark a := by
  rintro x u y rfl hu
  exact h x u (y ++ b) (by simp) hu

theorem Unmarked.right (h : Unmarked mark (a ++ b))
    (hcut : a.getLast?.any isWord = false ∨ ∀ u y, b = u ++ y → ¬ (word mark).Spells u) :
    Unmarked mark b := by
  rintro x u y rfl hu
  have hlast := h (a ++ x) u y (by simp) hu
  rcases List.eq_nil_or_concat' x with rfl | ⟨x, c, rfl⟩
  · rw [List.append_nil] at hlast
    rcases hcut with hcut | hcut
    · rw [hlast] at hcut
      cases hcut
    · exact absurd hu (hcut u y rfl)
  · rw [← List.append_assoc, List.getLast?_concat] at hlast
    rwa [List.getLast?_concat]

/-- Joining brings no mark where a word ends, and none where the text goes on with a character that
the mark has at its start at most. -/
theorem Unmarked.append (hmark : mark ≠ [] ∧ ∀ x ∈ mark, isWordLetter x = true)
    (ha : Unmarked mark a) (hb : Unmarked mark b)
    (hcut : a.getLast?.any isWord = false ∨
      ∀ e v, b = e :: v → ∀ x ∈ mark.tail, sameLetter x e = false) : Unmarked mark (a ++ b) := by
  intro x u y hxy hu
  rcases Text.append_cases hxy with ⟨v, rfl, hv⟩ | ⟨c, v, rfl, hv⟩
  · have hlast := hb v u y hv hu
    rcases List.eq_nil_or_concat' v with rfl | ⟨v, d, rfl⟩
    · cases hlast
    · rw [List.getLast?_concat] at hlast
      rwa [← List.append_assoc, List.getLast?_concat]
  · rcases Text.append_cases hv with ⟨w, hw, rfl⟩ | ⟨d, w, rfl, rfl⟩
    · exact ha x u w (by rw [hw]) hu
    · -- the mark would lie across the joint
      exfalso
      have hword := (isWord_of_spells_word hmark hu).2
      have hletters := reads_word_iff.mp hu
      obtain ⟨m, ms, rfl⟩ := List.exists_cons_of_ne_nil hmark.1
      rcases hcut with hcut | hcut
      · rcases List.eq_nil_or_concat' (c :: v) with hnil | ⟨v', e, he⟩
        · simp at hnil
        · rw [he, ← List.append_assoc, List.getLast?_concat, Option.any_some,
            hword e (by simp [he])] at hcut
          cases hcut
      · cases hletters with
        | cons _ hrest =>
          obtain ⟨x', hx', hsame⟩ := exists_letter hrest (c := d) (by simp)
          rw [hcut d (w ++ y) rfl x' hx'] at hsame
          cases hsame

/-- A word that no word of a text starts with is not at the start of a text without words there. -/
theorem not_spells_of_head? (hmark : mark ≠ [] ∧ ∀ x ∈ mark, isWordLetter x = true)
    (hb : b.head?.any isWord = false) : ∀ u y, b = u ++ y → ¬ (word mark).Spells u := by
  rintro u y rfl hu
  obtain ⟨hne, hword⟩ := isWord_of_spells_word hmark hu
  obtain ⟨c, u, rfl⟩ := List.exists_cons_of_ne_nil hne
  simp [hword c] at hb

/-! ## Dropping -/

/-- Dropping stray words `using` brings no mark. -/
theorem unmarked_dropUsing (hmark : mark ≠ [] ∧ ∀ x ∈ mark, isWordLetter x = true)
    (h : Unmarked mark t) : Unmarked mark (Grammar.usingKeyword.replaceAll (fun _ => []) t) := by
  refine replaceAll_preserves (by decide) ?_ h
  intro before m rest segs hsome hrest _ hkept
  have hreads := reads_of_matchAt? hsome
  obtain ⟨-, hbefore, hafter⟩ := reads_using_iff.mp hreads
  have hhead := hrest.head?_dropped startsWord_using hafter
  have hleft := hkept.left
  rw [← List.append_assoc] at hkept
  have hright := hkept.right (Or.inr (not_spells_of_head? hmark hhead))
  exact hleft.append hmark hright (Or.inl (by rwa [List.getLast?_reverse]))

theorem two_marks_letters : "tmp_tmp_".toList ≠ [] ∧
    ∀ x ∈ "tmp_tmp_".toList, isWordLetter x = true := by
  decide

/-- A text that spells two marks. -/
theorem spells_two_marks {u v : Text} (hu : (word "tmp_".toList).Spells u)
    (hv : (word "tmp_".toList).Spells v) : (word "tmp_tmp_".toList).Spells (u ++ v) :=
  reads_word_iff.mpr (List.rel_append (reads_word_iff.mp hu) (reads_word_iff.mp hv))

/-- From some place on, what is left of a text when marks are dropped has no mark, if no word carries
it twice. -/
theorem Pattern.Segmented.unmarked (h : Unmarked "tmp_tmp_".toList t) {before after : Text}
    {segs : List (Segment Match)} (hsegs : Profile.standard.stagingMark.Segmented before after segs)
    (ht : before.reverse ++ after = t) {x u y : Text}
    (hjoin : Segment.join (fun _ => []) segs = x ++ (u ++ y)) (hu : (word "tmp_".toList).Spells u) :
    (before.reverse ++ x).getLast?.any isWord = true := by
  obtain ⟨hne, hword⟩ := isWord_of_spells_word mark_letters hu
  induction hsegs generalizing x with
  | done => simp [hne] at hjoin
  | @plain before rest c segs hnone hrest ih =>
    cases x with
    | cons d x =>
      obtain ⟨rfl, htail⟩ := List.cons.inj hjoin
      simpa using ih (by simpa using ht) htail
    | nil =>
      -- a mark that is left at the start of a word would have been dropped
      obtain ⟨d, u, rfl⟩ := List.exists_cons_of_ne_nil hne
      obtain ⟨rfl, htail⟩ := List.cons.inj hjoin
      obtain ⟨more, rfl⟩ := (hrest.prefix_iff startsWord_mark (by simpa using hword c (by simp))
        fun e he => hword e (List.mem_cons_of_mem _ (List.dropLast_subset _ he))).mp
          ⟨y, htail.symm⟩
      by_contra hbefore
      rw [List.append_nil, List.getLast?_reverse, Bool.not_eq_true] at hbefore
      exact matchAt?_eq_none_iff.mp hnone (c :: u) more rfl (reads_mark_iff.mpr ⟨hu, hbefore⟩)
  | @span before rest m segs hsome _ hrest ih =>
    have hbehind := ih (by simpa using ht) hjoin
    obtain ⟨rest', -, -, -, hreads⟩ := matchAt?_some hsome
    obtain ⟨hm, hbefore⟩ := reads_mark_iff.mp hreads
    cases x with
    | cons d x =>
      rw [List.getLast?_append_of_ne_nil _ (by simp)] at hbehind ⊢
      exact hbehind
    | nil =>
      -- the mark that is left stands right behind the one that is dropped
      exfalso
      obtain ⟨more, rfl⟩ := (hrest.prefix_iff startsWord_mark
        (head?_behind_word (isWord_of_spells_word mark_letters hm))
        fun e he => hword e (List.dropLast_subset _ he)).mp ⟨y, hjoin.symm⟩
      have htwo := h before.reverse (m.text ++ u) more (by rw [← ht]; simp) (spells_two_marks hm hu)
      rw [List.getLast?_reverse, hbefore] at htwo
      cases htwo

/-- What is left of a text when marks are dropped has none, if no word carries it twice. -/
theorem unmarked_dropMarks (h : Unmarked "tmp_tmp_".toList t) :
    Unmarked "tmp_".toList (Profile.standard.stagingMark.replaceAll (fun _ => []) t) := by
  intro x u y hjoin hu
  exact (segmented_segments (by decide) t).unmarked h rfl hjoin hu

theorem unmarked_dropWords (h : Unmarked "tmp_tmp_".toList t) :
    Unmarked "tmp_".toList (dropWords t) :=
  unmarked_dropMarks (unmarked_dropUsing two_marks_letters h)

end Marks

end MutationPreview
