import MutationPreview.Clause
import MutationPreview.Proofs.Predicate.Inert

/-!
# Literals that do decide the form of a predicate

Every landmark inside a literal makes a difference somewhere: there is a text around the literal
that has a form with it, and has none with a plain literal in its place
(`exists_decisive_frame`). The texts around are quiet: they hold no blank, no connective and no
bracketed query, so a clause that is made of one of them and a token is a single predicate.
-/

namespace MutationPreview

open Pattern PredicateForm

/-- Whether a character has no part in cutting a clause, in words such as `where` and `select`, or
in the token of a subquery. -/
def isQuiet (c : Char) : Bool :=
  !isBlank c && !isClauseEdge c && c != 'U' && c.toLower != 'l' && !sameLetter 'w' c

/-- Whether the two texts can stand around the token of a literal: they are quiet, start no such
token themselves, and do not lengthen its number. -/
def isFrame (a b : Text) : Bool :=
  a.all isQuiet && b.all isQuiet && !a.contains 'S' && !b.contains 'S' && !b.head?.any Char.isDigit

/-- The plain literal. -/
def plainLiteral : Text := inQuotes ['x']

theorem isInert_plainLiteral : IsInert plainLiteral :=
  ⟨['x'], by simp, rfl, by decide⟩

/-- A text that ends with a quote, cut behind a stretch that does not, goes on after the cut. -/
theorem exists_behind {content u y : Text} {c : Char} (hc : c ≠ '\'')
    (h : content ++ ['\''] = u ++ [c] ++ y) : ∃ z, y = z ++ ['\''] := by
  rcases List.eq_nil_or_concat y with rfl | ⟨z, d, hy⟩
  · rw [List.append_nil] at h
    have hlast := List.append_inj_right' h rfl
    exact absurd (List.singleton_inj.mp hlast).symm hc
  · rw [List.concat_eq_append] at hy
    rw [hy, ← List.append_assoc] at h
    have hlast := List.append_inj_right' h rfl
    exact ⟨z, by rw [hy, hlast]⟩

/-- Whether the texts around a literal make a predicate with it and none with the plain literal. -/
structure IsDecisive (a b content : Text) : Prop where
  frame : isFrame a b = true
  accepts : ∃ form : PredicateForm, form.accepts (a ++ inQuotes content ++ b) = true
  rejects : ∀ form : PredicateForm, form.accepts (a ++ plainLiteral ++ b) = false

/-- The rejections below are computed. -/
theorem rejects_of_all {t : Text}
    (h : (PredicateForm.all.all fun form => !form.accepts t) = true) (form : PredicateForm) :
    form.accepts t = false := by
  rw [List.all_eq_true] at h
  have hform := h form (by cases form <;> decide)
  simpa using hform

section Cases

variable {content x y : Text}

theorem decisive_sign {c : Char} (hc : isSign c = true)
    (h : content ++ ['\''] = x ++ [c] ++ y) : IsDecisive [] [] content := by
  have hquote : c ≠ '\'' := by
    rintro rfl
    exact absurd hc (by decide)
  obtain ⟨z, rfl⟩ := exists_behind hquote h
  refine ⟨by decide, ⟨comparison, ?_⟩, rejects_of_all (by decide)⟩
  refine accepts_comparison_iff.mpr
    ⟨'\'' :: x, c, z ++ ['\''], ?_, by simp, hc, '\'', by simp, by decide⟩
  simp only [inQuotes, h]
  simp

theorem decisive_nullTest {w : Text} (hw : nullWords.Spells w)
    (h : content ++ ['\''] = x ++ w ++ y) : IsDecisive [] [] content := by
  refine ⟨by decide, ⟨nullTest, ?_⟩, rejects_of_all (by decide)⟩
  refine accepts_nullTest_iff.mpr ⟨'\'' :: x, w, y, ?_, by simp, hw⟩
  simp only [inQuotes, h]
  simp

theorem decisive_like {w : Text} (hw : likeWord.Spells w)
    (h : content ++ ['\''] = x ++ (w ++ ['\'']) ++ y) : IsDecisive [] "b'".toList content := by
  refine ⟨by decide, ⟨like, ?_⟩, rejects_of_all (by decide)⟩
  obtain ⟨c, z, hz⟩ := List.exists_cons_of_ne_nil (l := y ++ "b'".toList) (by simp)
  have hquote : '\'' ∈ z := by
    cases y with
    | nil =>
      have hz : ['b', '\''] = c :: z := hz
      simp only [List.cons.injEq] at hz
      rw [← hz.2]
      simp
    | cons d y =>
      rw [List.cons_append, List.cons.injEq] at hz
      rw [← hz.2]
      simp
  refine accepts_like_iff.mpr ⟨'\'' :: x, w, c, z, ?_, by simp, hw, hquote⟩
  rw [← hz]
  simp only [inQuotes, h]
  simp

theorem decisive_in {w : Text} (hw : inWord.Spells w)
    (h : content ++ ['\''] = x ++ w ++ y) : IsDecisive [] ")".toList content := by
  refine ⟨by decide, ⟨inList, ?_⟩, rejects_of_all (by decide)⟩
  have hend : ∃ v, w = v ++ ['('] := by
    obtain ⟨v, o, rfl, -, ho⟩ :=
      (spells_chain_append [blanks1, word "in".toList, blanks1] rfl rfl).mp hw
    exact ⟨v, by rw [spells_just.mp ho]⟩
  obtain ⟨v, rfl⟩ := hend
  rw [← List.append_assoc] at h
  obtain ⟨z, rfl⟩ := exists_behind (by decide) h
  refine accepts_inList_iff.mpr ⟨'\'' :: x, v ++ ['('], z ++ ['\''], [], ?_, by simp, hw, by simp⟩
  simp only [inQuotes, h]
  simp

/-- A call with what it is compared with. -/
theorem accepts_extract {z : Text} (h : ∃ m y, z = m ++ y ∧ (chain [compared]).Spells m) :
    regexpExtract.accepts ("regexp_substr(a,'b')".toList ++ z) = true := by
  obtain ⟨m, y, rfl, hm⟩ := h
  refine accepts_regexpExtract_iff.mpr ⟨[], "regexp_substr(".toList, "a".toList, ",".toList,
    "b".toList, ")".toList, m, y, rfl, ?_, by simp, ?_, by simp, ?_, hm⟩
  all_goals exact spells_of_readings (by decide)

theorem decisive_comma (h : content ++ ['\''] = x ++ [','] ++ y) :
    IsDecisive "regexp_substr(a,'b')in(".toList ")".toList content := by
  obtain ⟨z, rfl⟩ := exists_behind (by decide) h
  refine ⟨by decide, ⟨regexpExtract, ?_⟩, rejects_of_all (by decide)⟩
  have hcompared : ∃ m v, "in(".toList ++ inQuotes content ++ ")".toList = m ++ v ∧
      (chain [compared]).Spells m := by
    refine exists_compared_iff.mpr (Or.inr ⟨"in(".toList, '\'' :: x, z ++ ['\''], [], ?_, ?_,
      by simp, by simp⟩)
    · simp only [inQuotes, h]
      simp
    · exact spells_of_readings (by decide)
  exact accepts_extract hcompared

theorem decisive_bracket (h : content ++ ['\''] = x ++ [')'] ++ y) :
    IsDecisive "regexp_substr(a,'b')in(1,".toList [] content := by
  refine ⟨by decide, ⟨regexpExtract, ?_⟩, rejects_of_all (by decide)⟩
  have hcompared : ∃ m v, "in(1,".toList ++ inQuotes content ++ [] = m ++ v ∧
      (chain [compared]).Spells m := by
    refine exists_compared_iff.mpr (Or.inr ⟨"in(".toList, "1".toList, '\'' :: x, y, ?_, ?_,
      by simp, by simp⟩)
    · simp only [inQuotes, h]
      simp
    · exact spells_of_readings (by decide)
  exact accepts_extract hcompared

/-- The head of a call inside a literal, with the rest of the call behind the literal. -/
theorem hasCall_behind {name args more : List Pattern} {w : Text}
    (hname : (chain name).edgeFree = true)
    (hw : (chain (name ++ [blanks, just '('])).Spells w)
    (hargs : (chain (args ++ [callEnd])).Spells ")".toList)
    (hmore : ∃ m v, "in(1,2)".toList = m ++ v ∧ (chain more).Spells m)
    (h : content ++ ['\''] = x ++ w ++ y) :
    HasCall name args more (inQuotes content ++ ",'b')in(1,2)".toList) := by
  have hend : ∃ v, w = v ++ ['('] := by
    obtain ⟨n, o, rfl, -, ho⟩ := (spells_chain_append name hname rfl).mp hw
    obtain ⟨b, o, rfl, -, ho⟩ := (spells_chain_cons rfl rfl).mp ho
    have ho : o = ['('] := spells_just.mp ho
    exact ⟨n ++ b, by rw [ho]; simp⟩
  obtain ⟨v, rfl⟩ := hend
  have hcut := h
  rw [← List.append_assoc] at hcut
  obtain ⟨z, rfl⟩ := exists_behind (by decide) hcut
  obtain ⟨m, v', hm, hspells⟩ := hmore
  refine ⟨'\'' :: x, v ++ ['('], z ++ ['\''], ",".toList, "b".toList, ")".toList, m, v', ?_, hw,
    by simp, ?_, by simp, hargs, hspells⟩
  · rw [← hm, inQuotes, h]
    simp
  · exact spells_of_readings (by decide)

theorem decisive_call (form : PredicateForm) {w : Text}
    (hform : form ∈ [regexpLike, regexpExtract, regexpPosition])
    (hw : (chain (form.callName ++ [blanks, just '('])).Spells w)
    (h : content ++ ['\''] = x ++ w ++ y) : IsDecisive [] ",'b')in(1,2)".toList content := by
  have hcompared : ∃ m v, "in(1,2)".toList = m ++ v ∧ (chain [compared]).Spells m :=
    ⟨"in(1,2)".toList, [], rfl, spells_of_readings (by decide)⟩
  refine ⟨by decide, ⟨form, ?_⟩, rejects_of_all (by decide)⟩
  simp only [List.mem_cons, List.not_mem_nil, or_false] at hform
  rcases hform with rfl | rfl | rfl
  · exact accepts_regexpLike_iff.mpr (hasCall_behind rfl hw
      (spells_of_readings (by decide)) ⟨[], _, rfl, rfl⟩ h)
  · exact accepts_regexpExtract_iff.mpr (hasCall_behind rfl hw
      (spells_of_readings (by decide)) hcompared h)
  · exact accepts_regexpPosition_iff.mpr (hasCall_behind rfl hw
      (spells_of_readings (by decide)) hcompared h)

end Cases

/-- Every landmark inside a literal makes a difference in some frame. -/
theorem exists_decisive_frame {content : Text}
    (h : landmark.hasMatch (content ++ ['\'']) = true) : ∃ a b, IsDecisive a b content := by
  obtain ⟨x, u, y, heq, hu⟩ := (hasMatch_iff_spells landmark_edgeFree).mp h
  obtain ⟨p, hp, hu⟩ := reads_firstOf.mp hu
  simp only [landmarks, List.mem_cons, List.not_mem_nil, or_false] at hp
  rcases hp with rfl | rfl | rfl | rfl | rfl | rfl | rfl | rfl | rfl
  · obtain ⟨c, hc, rfl⟩ := hu
    exact ⟨_, _, decisive_sign hc heq⟩
  · rw [spells_just.mp hu] at heq
    exact ⟨_, _, decisive_comma heq⟩
  · rw [spells_just.mp hu] at heq
    exact ⟨_, _, decisive_bracket heq⟩
  · exact ⟨_, _, decisive_nullTest hu heq⟩
  · exact ⟨_, _, decisive_in hu heq⟩
  · obtain ⟨w, q, rfl, hw, hq⟩ := (spells_seq rfl rfl).mp hu
    rw [spells_just.mp hq] at heq
    exact ⟨_, _, decisive_like hw heq⟩
  · exact ⟨_, _, decisive_call regexpLike (by simp) hu heq⟩
  · exact ⟨_, _, decisive_call regexpExtract (by simp) hu heq⟩
  · exact ⟨_, _, decisive_call regexpPosition (by simp) hu heq⟩

end MutationPreview
