import MutationPreview.Proofs.Tidy.Respace

/-!
# Texts that tidying leaves alone

A word or a mark is found in a text only as a word of the text or at the start of one. So what holds of
each word of a text (`EachWord`) tells that nothing is found (`EachWord.hasMatch_wholeWord`,
`EachWord.hasMatch_mark`), and a text with single spaces is not collapsed
(`SingleSpaced.collapseSpaces_eq`).
-/

namespace MutationPreview

open Pattern

/-! ## The words of a text -/

/-- Whether every word of a text, as far as word characters go, has a property. -/
def EachWord (P : Text → Prop) (t : Text) : Prop :=
  ∀ x w y, t = x ++ (w ++ y) → w ≠ [] → (∀ c ∈ w, isWord c = true) →
    x.getLast?.any isWord = false → y.head?.any isWord = false → P w

namespace EachWord

variable {P : Text → Prop} {t w : Text}

theorem nil : EachWord P [] := by
  intro x w y hsplit hne
  simp [hne] at hsplit

/-- Behind a character that is in no word, words are told as if it were not there. -/
theorem cons {c : Char} (hc : isWord c = false) (h : EachWord P t) : EachWord P (c :: t) := by
  intro x w y hsplit hne hw hx hy
  cases x with
  | nil =>
    obtain ⟨d, w, rfl⟩ := List.exists_cons_of_ne_nil hne
    obtain ⟨rfl, -⟩ := List.cons.inj hsplit
    rw [hw c (by simp)] at hc
    cases hc
  | cons d x =>
    obtain ⟨-, rfl⟩ := List.cons.inj hsplit
    refine h x w y rfl hne hw ?_ hy
    cases x with
    | nil => rfl
    | cons e x => simpa using hx

theorem append_separators {g : Text} (hg : ∀ c ∈ g, isWord c = false) (h : EachWord P t) :
    EachWord P (g ++ t) := by
  induction g with
  | nil => exact h
  | cons c g ih =>
    rw [List.forall_mem_cons] at hg
    exact (ih hg.2).cons hg.1

theorem append_word (hw : ∀ c ∈ w, isWord c = true) (hP : P w) (ht : t.head?.any isWord = false)
    (h : EachWord P t) : EachWord P (w ++ t) := by
  intro x u y hsplit hne hu hx hy
  cases x with
  | nil =>
    obtain ⟨rfl, -⟩ := Text.run_unique hw hu ht hy hsplit
    exact hP
  | cons d x =>
    -- the word at the start has no end before it is over
    have hbehind : ∃ v, d :: x = w ++ v ∧ t = v ++ (u ++ y) := by
      rcases List.append_eq_append_iff.mp hsplit with ⟨v, hv, ht⟩ | ⟨v, rfl, hv⟩
      · exact ⟨v, hv, ht⟩
      · cases v with
        | nil => exact ⟨[], by simp, by simpa using hv.symm⟩
        | cons e v =>
          have hlast := List.getLast?_eq_some_getLast (l := d :: x) (by simp)
          have hlastWord := hw _ (List.mem_append_left _ (List.getLast_mem (l := d :: x) (by simp)))
          rw [hlast, Option.any_some, hlastWord] at hx
          cases hx
    obtain ⟨v, hv, rfl⟩ := hbehind
    refine h v u y rfl hne hu ?_ hy
    cases v with
    | nil => rfl
    | cons e v =>
      rw [hv, List.getLast?_append_of_ne_nil _ (by simp)] at hx
      exact hx

theorem of_word (hw : ∀ c ∈ w, isWord c = true) (hP : P w) : EachWord P w := by
  simpa using append_word hw hP rfl nil

/-- Texts side by side have no other words if no word goes across the joint. -/
theorem append {a b : Text} (ha : EachWord P a) (hb : EachWord P b)
    (hjoint : a.getLast?.any isWord = false ∨ b.head?.any isWord = false) : EachWord P (a ++ b) := by
  intro x w y hsplit hne hw hx hy
  rcases Text.append_cases hsplit with ⟨v, rfl, hv⟩ | ⟨c, v, rfl, hv⟩
  · refine hb v w y hv hne hw ?_ hy
    cases v with
    | nil => rfl
    | cons e v => rwa [List.getLast?_append_of_ne_nil _ (by simp)] at hx
  rcases Text.append_cases hv.symm with ⟨u, rfl, rfl⟩ | ⟨d, u, hu, rfl⟩
  · cases u with
    | nil =>
      rw [List.append_nil] at hw ⊢
      exact ha x (c :: v) [] (by simp) (by simp) hw hx rfl
    | cons e u =>
      -- the word would go across the joint
      have hlast : (x ++ c :: v).getLast?.any isWord = true := by
        rw [List.getLast?_append_of_ne_nil _ (by simp), List.getLast?_eq_some_getLast (by simp)]
        exact hw _ (List.mem_append_left _ (List.getLast_mem _))
      have hhead : (e :: u ++ y).head?.any isWord = true := hw e (by simp)
      rw [hlast, hhead] at hjoint
      simp at hjoint
  · exact ha x w (d :: u) (by rw [hu]) hne hw hx hy

/-- A text is checked word by word when it is split at the characters that are in no word. -/
theorem of_splitOnP (h : ∀ w ∈ t.splitOnP fun c => !isWord c, P w) : EachWord P t := by
  rintro x w y rfl - hw hx hy
  have hsolid : ∀ c ∈ w, (!isWord c) = false := fun c hc => by simp [hw c hc]
  have hfirst : w ∈ (w ++ y).splitOnP fun c => !isWord c := by
    cases y with
    | nil => simp [List.splitOnP_eq_singleton hsolid]
    | cons c y =>
      have hc : (!isWord c) = true := by simpa using hy
      rw [List.splitOnP_append_cons_of_forall_mem hsolid c hc]
      exact List.mem_cons_self
  rcases List.eq_nil_or_concat x with rfl | ⟨x, c, rfl⟩
  · exact h w hfirst
  · have hc : (!isWord c) = true := by simpa using hx
    refine h w ?_
    rw [List.concat_eq_append, List.append_assoc, List.singleton_append,
      List.splitOnP_append_cons (p := fun c => !isWord c) x (w ++ y) hc]
    exact List.mem_append_right _ hfirst

/-- Behind a character that is in no word, words are told as if nothing stood before. -/
theorem behind {a b : Text} {c : Char} (hc : isWord c = false) (h : EachWord P (a ++ c :: b)) :
    EachWord P b := by
  rintro x w y rfl hne hw hx hy
  refine h (a ++ c :: x) w y (by simp) hne hw ?_ hy
  rw [List.getLast?_append_of_ne_nil _ (by simp)]
  cases x with
  | nil => exact hc
  | cons e x => rwa [List.getLast?_cons_cons]

theorem intercalate {ts : List Text} (h : ∀ t ∈ ts, EachWord P t) :
    EachWord P (List.intercalate ", ".toList ts) := by
  induction ts with
  | nil => exact nil
  | cons t ts ih =>
    rw [List.forall_mem_cons] at h
    cases ts with
    | nil => simpa using h.1
    | cons t' ts =>
      rw [List.intercalate_cons_cons, List.append_assoc]
      exact h.1.append (append_separators (by decide) (ih h.2)) (Or.inr rfl)

/-- A word on its own is not found if no word of the text is that word. -/
theorem hasMatch_wholeWord {k : Text} (hk : k ≠ [] ∧ ∀ x ∈ k, isWordLetter x = true)
    (h : EachWord (fun w => ¬ (word k).Spells w) t) : (wholeWord k).hasMatch t = false := by
  rw [Bool.eq_false_iff]
  intro hmatch
  obtain ⟨x, u, y, ht, hreads⟩ := hasMatch_iff.mp hmatch
  obtain ⟨hspells, hx, hy⟩ := (reads_wholeWord_iff hk).mp hreads
  obtain ⟨hne, hu⟩ := isWord_of_spells_word hk hspells
  exact h x u y (by simpa using ht) hne hu (by simpa using hx) hy hspells

/-- A mark is not found if no word of the text starts with it. -/
theorem hasMatch_mark
    (h : EachWord (fun w => ∀ u v, w = u ++ v → ¬ (word "tmp_".toList).Spells u) t) :
    Profile.standard.stagingMark.hasMatch t = false := by
  rw [Bool.eq_false_iff]
  intro hmatch
  obtain ⟨x, u, y, ht, hreads⟩ := hasMatch_iff.mp hmatch
  obtain ⟨hspells, hx⟩ := reads_mark_iff.mp hreads
  obtain ⟨hne, hu⟩ := isWord_of_spells_word mark_letters hspells
  refine h x (u ++ y.takeWhile isWord) (y.dropWhile isWord) ?_ (by simp [hne]) ?_ (by simpa using hx)
    ?_ u _ rfl hspells
  · rw [ht, List.append_assoc, List.append_assoc, List.takeWhile_append_dropWhile]
  · rw [List.forall_mem_append]
    exact ⟨hu, fun c hc => List.mem_takeWhile_imp hc⟩
  · have hhead := List.head?_dropWhile_not isWord y
    cases hrest : (y.dropWhile isWord).head? with
    | none => rfl
    | some c => simpa [hrest] using hhead

/-- Where no word of the text is a given word, that word is singled out nowhere. -/
theorem spans_eq_nil {k before t : Text} {segs : List (Segment Match)}
    (hk : k ≠ [] ∧ ∀ x ∈ k, isWordLetter x = true)
    (h : EachWord (fun w => ¬ (word k).Spells w) t) (hsegs : (wholeWord k).Segmented before t segs) :
    Segment.spans segs = [] := by
  have hnone : ∀ a c b, t = a ++ c :: b →
      (wholeWord k).matchAt? ⟨a.reverse ++ before, c :: (b ++ [])⟩ = none := by
    intro a c b ht
    rw [matchAt?_eq_none_iff, List.append_nil]
    intro u rest hsplit hreads
    obtain ⟨hspells, hbefore, hrest⟩ := (reads_wholeWord_iff hk).mp hreads
    obtain ⟨hne, hu⟩ := isWord_of_spells_word hk hspells
    refine h a u rest (by rw [ht, hsplit]) hne hu ?_ hrest hspells
    rw [← List.head?_reverse]
    cases hback : a.reverse with
    | nil => rfl
    | cons d a' => simpa [hback] using hbefore
  rw [← List.append_nil t] at hsegs
  obtain ⟨_, rfl, hend⟩ := hsegs.past_plain hnone
  rw [hend.eq_nil]
  simp

end EachWord

/-! ## Single spaces -/

/-- Whether no two spaces stand in a row. -/
def SingleSpaced (t : Text) : Prop := ¬ [' ', ' '] <:+: t

namespace SingleSpaced

variable {w t : Text}

theorem append (hw : ' ' ∉ w) (ht : SingleSpaced t) : SingleSpaced (w ++ t) := by
  induction w with
  | nil => exact ht
  | cons c w ih =>
    rw [List.mem_cons, not_or] at hw
    rw [SingleSpaced, List.cons_append, List.infix_cons_iff, List.cons_prefix_cons]
    rintro (⟨hc, -⟩ | hwithin)
    · exact hw.1 hc
    · exact ih hw.2 hwithin

/-- A space before a text that does not start with one. -/
theorem space {p : Char → Bool} (hp : p ' ' = true) (ht : SingleSpaced t)
    (hhead : t.head?.any p = false) : SingleSpaced (' ' :: t) := by
  rw [SingleSpaced, List.infix_cons_iff, List.cons_prefix_cons]
  rintro (⟨-, rest, rfl⟩ | hwithin)
  · simp [hp] at hhead
  · exact ht hwithin

/-- Where single spaces stand already, nothing is collapsed. -/
theorem collapseSpaces_eq (h : SingleSpaced t) : collapseSpaces t = t := by
  refine replaceAll_eq_self (by decide) (Bool.eq_false_iff.mpr fun hmatch => h ?_)
  obtain ⟨x, u, y, rfl, hreads⟩ := hasMatch_iff.mp hmatch
  obtain ⟨v, rfl, -⟩ := reads_spaceRun_iff.mp hreads
  exact ⟨x, v ++ y, by simp⟩

end SingleSpaced

end MutationPreview
