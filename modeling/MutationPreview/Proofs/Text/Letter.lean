import MutationPreview.Text.Case
import MutationPreview.Text.CharClass

/-!
# Letters, blanks and words

Case folding sends no character beyond ASCII to a letter of ASCII but `K` and `S`. So a word that
has neither is written in ASCII letters only, in either case (`toUpper_of_sameLetter`), and the
long s is the only other case of `s` (`mem_of_sameLetter_s`). Blanks are no part of a word
(`isWord_of_isBlank`).
-/

namespace MutationPreview

/-! ## Folding beyond ASCII -/

/-- Whether a run stays beyond ASCII, or sends one code point to `K` or `S`. -/
def CaseRun.isFar (run : CaseRun) : Bool :=
  decide (128 ≤ (run.first : Int) + run.shift) ||
    (run.first == run.last &&
      ((run.first : Int) + run.shift == 75 || (run.first : Int) + run.shift == 83))

theorem CaseRun.map_of_isFar {runs : List CaseRun} (h : runs.all CaseRun.isFar = true) {n : Nat}
    (hn : 128 ≤ n) :
    128 ≤ CaseRun.map runs n ∨ CaseRun.map runs n = 75 ∨ CaseRun.map runs n = 83 := by
  induction runs with
  | nil => exact Or.inl hn
  | cons run runs ih =>
    rw [List.all_cons, Bool.and_eq_true] at h
    rw [CaseRun.map]
    split
    · rename_i hrun
      have hfar := h.1
      simp only [CaseRun.isFar, Bool.or_eq_true, decide_eq_true_eq, Bool.and_eq_true,
        beq_iff_eq] at hfar
      simp only [Int.ofNat_eq_natCast]
      omega
    · exact ih h.2

theorem CaseRun.folding_isFar : CaseRun.folding.all CaseRun.isFar = true := by decide

/-- A character beyond ASCII is no case of a letter other than `K` and `S`. -/
theorem toNat_foldCase {c : Char} (hc : ¬ c.toNat < 128) :
    128 ≤ (foldCase c).toNat ∨ foldCase c = 'K' ∨ foldCase c = 'S' ∨ foldCase c = '\x00' := by
  rw [foldCase, if_neg hc]
  have hcases := CaseRun.map_of_isFar CaseRun.folding_isFar (Nat.le_of_not_lt hc)
  generalize CaseRun.map CaseRun.folding c.toNat = n at hcases
  rcases hcases with hn | rfl | rfl
  · by_cases hvalid : n.isValidChar
    · left
      rw [Char.ofNat, dif_pos hvalid]
      exact hn
    · right; right; right
      rw [Char.ofNat, dif_neg hvalid]
      rfl
  · exact Or.inr (Or.inl rfl)
  · exact Or.inr (Or.inr (Or.inl rfl))

/-- Whether a character is in ASCII, and no letter that has a case beyond it. -/
def isPlainLetter (x : Char) : Bool :=
  decide (x.toNat < 128) && decide (x.toUpper.toNat < 128) &&
    !(['K', 'S', '\x00'].contains x.toUpper)

/-- The cases of a plain letter are in ASCII. -/
theorem toUpper_of_sameLetter {x c : Char} (hx : isPlainLetter x = true)
    (h : sameLetter x c = true) : c.toNat < 128 ∧ c.toUpper = x.toUpper := by
  simp only [isPlainLetter, Bool.and_eq_true, decide_eq_true_eq, Bool.not_eq_true',
    List.contains_eq_mem, decide_eq_false_iff_not, List.mem_cons, List.not_mem_nil, or_false,
    not_or] at hx
  obtain ⟨⟨hascii, hupper⟩, hK, hS, hzero⟩ := hx
  rw [sameLetter, Bool.or_eq_true, beq_iff_eq, beq_iff_eq] at h
  rcases h with rfl | h
  · exact ⟨hascii, rfl⟩
  · have hfoldx : foldCase x = x.toUpper := by rw [foldCase, if_pos hascii]
    rw [hfoldx] at h
    by_cases hc : c.toNat < 128
    · rw [foldCase, if_pos hc] at h
      exact ⟨hc, h.symm⟩
    · rcases toNat_foldCase hc with hfar | hfold | hfold | hfold
      · rw [← h] at hfar
        omega
      · exact absurd (h.trans hfold) hK
      · exact absurd (h.trans hfold) hS
      · exact absurd (h.trans hfold) hzero

theorem CaseRun.exists_of_map {runs : List CaseRun} {n m : Nat} (h : CaseRun.map runs n = m) :
    n = m ∨ ∃ run ∈ runs, run.first ≤ n ∧ n ≤ run.last ∧ (Int.ofNat n + run.shift).toNat = m := by
  induction runs with
  | nil => exact Or.inl h
  | cons run runs ih =>
    rw [CaseRun.map] at h
    split at h
    · rename_i hrun
      exact Or.inr ⟨run, List.mem_cons_self, hrun.1, hrun.2.1, h⟩
    · exact (ih h).imp_right fun ⟨run, hmem, hrest⟩ => ⟨run, List.mem_cons_of_mem _ hmem, hrest⟩

/-- The cases of `s` are the two of ASCII and the long s. -/
theorem mem_of_sameLetter_s {c : Char} (h : sameLetter 's' c = true) : c ∈ ['s', 'S', 'ſ'] := by
  rw [sameLetter, Bool.or_eq_true, beq_iff_eq, beq_iff_eq] at h
  rcases h with rfl | h
  · decide
  · have hfold : foldCase c = 'S' := h.symm
    rw [foldCase] at hfold
    split at hfold
    · rename_i hascii
      have hall : ∀ n < 128, (Char.ofNat n).toUpper = 'S' → Char.ofNat n ∈ ['s', 'S', 'ſ'] := by
        decide
      have hmem := hall c.toNat hascii
      rw [Char.ofNat_toNat] at hmem
      exact hmem hfold
    · rename_i hfar
      have hmap : CaseRun.map CaseRun.folding c.toNat = 83 := by
        generalize CaseRun.map CaseRun.folding c.toNat = n at hfold
        by_cases hvalid : n.isValidChar
        · rw [Char.ofNat, dif_pos hvalid] at hfold
          exact congrArg Char.toNat hfold
        · rw [Char.ofNat, dif_neg hvalid] at hfold
          exact absurd hfold (by decide)
      rcases CaseRun.exists_of_map hmap with hn | ⟨run, hmem, hfirst, hlast, hshift⟩
      · omega
      · have hall : ∀ run ∈ CaseRun.folding, (run.first : Int) + run.shift ≤ 83 →
            83 ≤ (run.last : Int) + run.shift → run.shift = -300 := by decide +kernel
        have hn := hall run hmem
        have hlong : c.toNat = 383 := by
          simp only [Int.ofNat_eq_natCast] at hshift
          omega
        rw [← Char.ofNat_toNat c, hlong]
        decide

/-! ## Blanks -/

theorem CodeRanges.exists_of_has {ranges : CodeRanges} {n : Nat} (h : ranges.has n = true) :
    ∃ range ∈ ranges, range.1 ≤ n ∧ n ≤ range.2 := by
  induction ranges with
  | nil => simp [CodeRanges.has] at h
  | cons range ranges ih =>
    rw [CodeRanges.has] at h
    split at h
    · simp at h
    · rename_i hlow
      rw [Bool.or_eq_true, decide_eq_true_eq] at h
      rcases h with hhigh | h
      · exact ⟨range, List.mem_cons_self, Nat.le_of_not_lt hlow, hhigh⟩
      · obtain ⟨range', hmem, hbounds⟩ := ih h
        exact ⟨range', List.mem_cons_of_mem _ hmem, hbounds⟩

/-- Blanks are no part of a word. -/
theorem isWord_of_isBlank {c : Char} (h : isBlank c = true) : isWord c = false := by
  have hall : ∀ range ∈ CodeRanges.blank, ∀ k < range.2 + 1 - range.1,
      isWord (Char.ofNat (range.1 + k)) = false := by decide +kernel
  obtain ⟨range, hmem, hlow, hhigh⟩ := CodeRanges.exists_of_has h
  have hc := hall range hmem (c.toNat - range.1) (by omega)
  rwa [show range.1 + (c.toNat - range.1) = c.toNat by omega, Char.ofNat_toNat] at hc

end MutationPreview
