import MutationPreview.Proofs.Clause.Divided
import MutationPreview.Proofs.Held.Table
import MutationPreview.Proofs.Mutation.Reached

/-!
# Tidying what has no stray words

Where tidying finds nothing to drop and nothing to inject, it only sets the text in lines. That keeps
every word and what is held, and a second time nothing is left to do.

That a second time changes nothing is seen along the first scan for words that start a line. What was
passed then is passed again, because other gaps do not make a match (`exists_lineStart_respaced`);
and what was written for a match is read as a whole again, because a match takes all gaps around its
word (`Segmented.lines_again`).

Main statement: `Held.tidy_of_isClean`.
-/

namespace MutationPreview

open Pattern

/-! ## Words between blanks -/

/-- The words of a text: its stretches between blanks. -/
def Text.words (t : Text) : List Text := (t.splitOnP MutationPreview.isBlank).filter (· ≠ [])

/-- Two texts with other gaps start with the same stretch without blanks, and go on with the same
words. -/
theorem Respaced.splitOnP_eq {t u : Text} (h : Respaced t u) :
    ∃ first ts us, t.splitOnP isBlank = first :: ts ∧ u.splitOnP isBlank = first :: us ∧
      ts.filter (· ≠ []) = us.filter (· ≠ []) := by
  induction h with
  | nil => exact ⟨[], [], [], by simp, by simp, rfl⟩
  | char c _ ih =>
    obtain ⟨first, ts, us, ht, hu, hsame⟩ := ih
    by_cases hc : isBlank c = true
    · refine ⟨[], first :: ts, first :: us, ?_, ?_, ?_⟩
      · simp [List.splitOnP_cons_eq_if_modifyHead, hc, ht]
      · simp [List.splitOnP_cons_eq_if_modifyHead, hc, hu]
      · rw [List.filter_cons, List.filter_cons, hsame]
    · refine ⟨c :: first, ts, us, ?_, ?_, hsame⟩
      · simp [List.splitOnP_cons_eq_if_modifyHead, hc, ht]
      · simp [List.splitOnP_cons_eq_if_modifyHead, hc, hu]
  | @gap g g' t u hg hg' _ ih =>
    obtain ⟨first, ts, us, ht, hu, hsame⟩ := ih
    -- a gap splits off an empty stretch for each of its characters
    have hgap : ∀ {g v : Text}, IsGapRun g → ∃ vs, (g ++ v).splitOnP isBlank = [] :: vs ∧
        vs.filter (· ≠ []) = v.words := by
      intro g v hg
      obtain ⟨hne, hall⟩ := hg
      induction g with
      | nil => exact absurd rfl hne
      | cons c g ih =>
        have hc : isBlank c = true := isBlank_of_isGap (hall c (by simp))
        refine ⟨(g ++ v).splitOnP isBlank, by simp [List.splitOnP_cons_eq_if_modifyHead, hc], ?_⟩
        cases g with
        | nil => rfl
        | cons d g =>
          obtain ⟨vs, hvs, hwords⟩ := ih (by simp) fun e he => hall e (List.mem_cons_of_mem _ he)
          rw [hvs, List.filter_cons_of_neg (by simp), hwords]
    obtain ⟨ts', ht', hts⟩ := hgap (v := t) hg
    obtain ⟨us', hu', hus⟩ := hgap (v := u) hg'
    refine ⟨[], ts', us', ht', hu', ?_⟩
    rw [hts, hus, Text.words, Text.words, ht, hu, List.filter_cons, List.filter_cons, hsame]

theorem Respaced.words_eq {t u : Text} (h : Respaced t u) : t.words = u.words := by
  obtain ⟨first, ts, us, ht, hu, hsame⟩ := h.splitOnP_eq
  rw [Text.words, Text.words, ht, hu, List.filter_cons, List.filter_cons, hsame]

/-! ## Runs of spaces -/

/-- The text with one space for each run of spaces. -/
def squeeze : Text → Text
  | [] => []
  | c :: t => if c = ' ' ∧ t.head? = some ' ' then squeeze t else c :: squeeze t

theorem squeeze_cons {c : Char} {t : Text} (h : c = ' ' → t.head? ≠ some ' ') :
    squeeze (c :: t) = c :: squeeze t := by
  rw [squeeze, if_neg fun hrun => h hrun.1 hrun.2]

theorem squeeze_append_of_notMem {w : Text} (hw : ' ' ∉ w) (t : Text) :
    squeeze (w ++ t) = w ++ squeeze t := by
  induction w with
  | nil => rfl
  | cons c w ih =>
    rw [List.mem_cons, not_or] at hw
    rw [List.cons_append, squeeze_cons fun hc => absurd hc.symm hw.1, ih hw.2, List.cons_append]

theorem squeeze_append_cons {w t : Text} {c : Char} (hw : ' ' ∉ w) (h : c = ' ' → t.head? ≠ some ' ') :
    squeeze (w ++ c :: t) = w ++ c :: squeeze t := by
  rw [squeeze_append_of_notMem hw, squeeze_cons h]

theorem squeeze_spaces {v t : Text} (hv : ∀ c ∈ v, c = ' ') (ht : t.head? ≠ some ' ') :
    squeeze (' ' :: (v ++ t)) = ' ' :: squeeze t := by
  induction v with
  | nil => exact squeeze_cons fun _ => ht
  | cons c v ih =>
    rw [List.forall_mem_cons] at hv
    obtain ⟨rfl, hv⟩ := hv
    rw [List.cons_append, squeeze, if_pos ⟨rfl, rfl⟩, ih hv]

theorem endsGreedy_spaceRun : Grammar.spaceRun.EndsGreedy (· == ' ') :=
  (endsGreedy_many _).seq.seq

theorem endsGreedy_lineStart : Grammar.lineStart.EndsGreedy Grammar.isGap :=
  (endsGreedy_many _).seq.seq.seq

theorem Pattern.Segmented.join_space {before t : Text} {segs : List (Segment Match)}
    (h : Grammar.spaceRun.Segmented before t segs) :
    Segment.join (fun _ => [' ']) segs = squeeze t := by
  induction h with
  | done => rfl
  | @plain before rest c segs hnone _ ih =>
    rw [Segment.join_plain, ih, squeeze_cons]
    rintro rfl hspace
    obtain ⟨d, rest, rfl⟩ := List.exists_cons_of_ne_nil (l := rest) (by rintro rfl; simp at hspace)
    obtain rfl : d = ' ' := by simpa using hspace
    have hreads : Grammar.spaceRun.Reads before [' ', ' '] rest :=
      reads_spaceRun_iff.mpr ⟨[], rfl, by simp⟩
    exact matchAt?_eq_none_iff.mp hnone _ _ rfl hreads
  | @span before rest m segs hsome _ _ ih =>
    have hend := endsGreedy_spaceRun.head?_of_matchAt? hsome
    obtain ⟨rest', -, -, -, hreads⟩ := matchAt?_some hsome
    obtain ⟨v, htext, hv⟩ := reads_spaceRun_iff.mp hreads
    rw [Segment.join_span, ih, htext]
    refine (squeeze_spaces (v := ' ' :: v) (List.forall_mem_cons.mpr ⟨rfl, hv⟩) ?_).symm
    intro hspace
    rw [hspace] at hend
    simp at hend

/-- Turning runs of spaces into one space is one pass over the characters. -/
theorem collapseSpaces_eq_squeeze (t : Text) : collapseSpaces t = squeeze t :=
  (segmented_segments (by decide) t).join_space

theorem head?_squeeze (t : Text) : (squeeze t).head? = t.head? := by
  induction t with
  | nil => rfl
  | cons c t ih =>
    rw [squeeze]
    split
    · rename_i hrun
      rw [ih, hrun.2, hrun.1]
      rfl
    · rfl

theorem squeeze_squeeze (t : Text) : squeeze (squeeze t) = squeeze t := by
  induction t with
  | nil => rfl
  | cons c t ih =>
    by_cases hrun : c = ' ' ∧ t.head? = some ' '
    · rw [squeeze, if_pos hrun, ih]
    · rw [squeeze, if_neg hrun, squeeze_cons, ih]
      rintro rfl
      rw [head?_squeeze]
      exact fun hspace => hrun ⟨rfl, hspace⟩

/-! ## Lines, a second time -/

theorem Respaced.ne_nil {t u : Text} (h : Respaced t u) (ht : t ≠ []) : u ≠ [] := by
  cases h with
  | nil => exact absurd rfl ht
  | char => simp
  | gap _ hg' => simp [hg'.1]

/-- A word that starts a line starts one with other gaps as well. -/
theorem exists_lineStart_respaced {before x y u rest : Text} {c : Char} (hxy : Respaced x y)
    (hsplit : c :: x = u ++ rest) (hreads : Grammar.lineStart.Reads before u rest)
    (before' : Text) :
    ∃ u' rest', c :: y = u' ++ rest' ∧ Grammar.lineStart.Reads before' u' rest' := by
  obtain ⟨g, k, g', rfl, hg, hk, hg'⟩ := reads_lineStart_iff.mp hreads
  obtain ⟨d, g, rfl⟩ := List.exists_cons_of_ne_nil hg.1
  simp only [List.cons_append, List.append_assoc, List.cons.injEq] at hsplit
  obtain ⟨rfl, rfl⟩ := hsplit
  have hletters := divides_lineStart.letters hk
  obtain ⟨g₂, y, rfl, hgap, hbehind⟩ :=
    hxy.split hletters.1 fun c hc => isGap_of_isWord (hletters.2 c hc)
  have hall := hg.2
  rw [List.forall_mem_cons] at hall
  -- a gap stands behind the word in both texts
  obtain ⟨e, g', rfl⟩ := List.exists_cons_of_ne_nil hg'.1
  have hstart := hbehind.head?_isGap
  obtain ⟨f, y, rfl⟩ := List.exists_cons_of_ne_nil (hbehind.ne_nil (by simp))
  have hf : Grammar.isGap f = true := by
    have he : Grammar.isGap e = true := hg'.2 e (by simp)
    simpa [he] using hstart
  have hgap₂ : IsGapRun (c :: g₂) :=
    ⟨by simp, List.forall_mem_cons.mpr ⟨hall.1, hgap.forall_mem (fun _ h => h) hall.2⟩⟩
  exact ⟨c :: g₂ ++ (k ++ [f]), y, by simp,
    reads_lineStart_iff.mpr ⟨c :: g₂, k, [f], rfl, hgap₂, hk, by simp, by simpa using hf⟩⟩

/-- One more gap before a text that starts with one. -/
theorem Respaced.cons_right {t u : Text} (h : Respaced t u) {c : Char} (hc : Grammar.isGap c = true)
    (hu : u.head?.any Grammar.isGap = true) : Respaced t (c :: u) := by
  cases h with
  | nil => simp at hu
  | @char t u d h =>
    have hd : Grammar.isGap d = true := by simpa using hu
    have hone : IsGapRun [d] := ⟨by simp, by simpa using hd⟩
    have htwo : IsGapRun [c, d] := ⟨by simp, by simp [hc, hd]⟩
    exact .gap hone htwo h
  | @gap g g' t u hg hg' h =>
    have hrun : IsGapRun (c :: g') := ⟨by simp, List.forall_mem_cons.mpr ⟨hc, hg'.2⟩⟩
    exact .gap hg hrun h

/-- What is written for a match keeps its spaces, whatever follows. -/
theorem squeeze_lineOf {before rest lines : Text} {m : Match}
    (hm : Grammar.lineStart.matchAt? ⟨before, m.text ++ rest⟩ = some m)
    (hlines : Respaced lines rest) :
    ∃ k, lineWord.Spells k ∧ lineOf m = '\n' :: (k ++ [' ']) ∧
      lines.head?.any Grammar.isGap = false ∧
      squeeze (lineOf m ++ lines) = '\n' :: (k ++ ' ' :: squeeze lines) := by
  obtain ⟨g, k, g', -, -, hk, -, hline⟩ := exists_of_lineStart hm
  have hgap : lines.head?.any Grammar.isGap = false := by
    rw [hlines.head?_isGap]
    exact endsGreedy_lineStart.head?_of_matchAt? hm
  have hword : ' ' ∉ '\n' :: k := by
    rw [List.mem_cons, not_or]
    exact ⟨by decide, fun hmem => absurd ((divides_lineStart.letters hk).2 _ hmem) (by decide)⟩
  refine ⟨k, hk, hline, hgap, ?_⟩
  have htext : lineOf m ++ lines = '\n' :: k ++ ' ' :: lines := by simp [hline]
  rw [htext, squeeze_append_cons hword, List.cons_append]
  intro _ hspace
  rw [hspace] at hgap
  simp [Grammar.isGap] at hgap

/-- A text set in lines, with single spaces, is the text with other gaps. -/
theorem Pattern.Segmented.respaced_lines {before t : Text} {segs : List (Segment Match)}
    (h : Grammar.lineStart.Segmented before t segs) :
    Respaced (squeeze (Segment.join lineOf segs)) t := by
  induction h with
  | done => exact .nil
  | @plain before rest c segs _ hrest ih =>
    rw [Segment.join_plain]
    by_cases hrun : c = ' ' ∧ (Segment.join lineOf segs).head? = some ' '
    · rw [squeeze, if_pos hrun]
      refine ih.cons_right (by rw [hrun.1]; rfl) ?_
      rw [← ih.head?_isGap, head?_squeeze, hrun.2]
      rfl
    · rw [squeeze, if_neg hrun]
      exact .char c ih
  | @span before rest m segs hsome _ hrest ih =>
    have hlines := hrest.respaced fun _ _ _ hm => respaced_lineOf hm
    obtain ⟨k, -, hline, -, hsqueeze⟩ := squeeze_lineOf hsome hlines
    have htext : '\n' :: (k ++ ' ' :: squeeze (Segment.join lineOf segs)) =
        lineOf m ++ squeeze (Segment.join lineOf segs) := by simp [hline]
    rw [Segment.join_span, hsqueeze, htext]
    exact (respaced_lineOf hsome).append ih

/-- What a scan has set in lines, with single spaces, a second scan sets in the same lines. -/
theorem Pattern.Segmented.lines_again {before t : Text} {segs : List (Segment Match)}
    (h : Grammar.lineStart.Segmented before t segs) {before' : Text} {segs' : List (Segment Match)}
    (h' : Grammar.lineStart.Segmented before' (squeeze (Segment.join lineOf segs)) segs') :
    Segment.join lineOf segs' = squeeze (Segment.join lineOf segs) := by
  induction h generalizing before' segs' with
  | done =>
    rw [h'.eq_nil]
    rfl
  | @plain before rest c segs hnone hrest ih =>
    rw [Segment.join_plain] at h' ⊢
    by_cases hrun : c = ' ' ∧ (Segment.join lineOf segs).head? = some ' '
    · rw [squeeze, if_pos hrun] at h' ⊢
      exact ih h'
    · rw [squeeze, if_neg hrun] at h' ⊢
      have hpassed : Grammar.lineStart.matchAt?
          ⟨before', c :: squeeze (Segment.join lineOf segs)⟩ = none := by
        rw [matchAt?_eq_none_iff]
        intro u rest' hsplit hreads
        obtain ⟨v, w, hvw, hreads⟩ :=
          exists_lineStart_respaced hrest.respaced_lines hsplit hreads before
        exact matchAt?_eq_none_iff.mp hnone v w hvw hreads
      obtain ⟨more, rfl, hmore⟩ := h'.past_char hpassed
      rw [Segment.join_plain, ih hmore]
  | @span before rest m segs hsome _ hrest ih =>
    have hlines := hrest.respaced fun _ _ _ hm => respaced_lineOf hm
    obtain ⟨k, hk, -, hgap, hsqueeze⟩ := squeeze_lineOf hsome hlines
    rw [Segment.join_span, hsqueeze] at h' ⊢
    have hstart : (squeeze (Segment.join lineOf segs)).head?.any Grammar.isGap = false := by
      rw [head?_squeeze, hgap]
    obtain ⟨m', more, rfl, htext, hmatch, hmore⟩ := divides_lineStart.past_key h' hk rfl rfl hstart
    rw [Segment.join_span, lineOf_eq hmatch htext hk rfl rfl, ih hmore]
    simp

theorem layOut_eq (t : Text) : layOut t = squeeze (Segment.join lineOf (Grammar.lineStart.segments t)) :=
  collapseSpaces_eq_squeeze _

/-- Setting a text in lines puts other gaps where gaps were. -/
theorem respaced_layOut (t : Text) : Respaced (layOut t) t := by
  rw [layOut_eq]
  exact (segmented_segments (by decide) t).respaced_lines

/-- A text that is set in lines stays as it is. -/
theorem layOut_layOut (t : Text) : layOut (layOut t) = layOut t := by
  have hsegs := segmented_segments (p := Grammar.lineStart) (by decide) t
  have hsegs' := segmented_segments (p := Grammar.lineStart) (by decide) (layOut t)
  rw [layOut_eq (layOut t)]
  rw [layOut_eq t] at hsegs' ⊢
  rw [hsegs.lines_again hsegs', squeeze_squeeze]

/-! ## Nothing stray -/

theorem hasMatch_using_respaced {t u : Text} (h : Respaced t u)
    (ht : Grammar.usingKeyword.hasMatch t = true) : Grammar.usingKeyword.hasMatch u = true := by
  refine hasMatch_of_respaced ?_ ?_ h ht
  · intro before w after hreads
    obtain ⟨hne, hw⟩ := isWord_of_spells_word using_letters (reads_using_iff.mp hreads).1
    exact ⟨hne, fun c hc => isGap_of_isWord (hw c hc)⟩
  · intro before w after before' after' hreads hbefore hafter
    rw [reads_using_iff] at hreads ⊢
    rwa [hbefore, hafter]

theorem hasMatch_mark_respaced {t u : Text} (h : Respaced t u)
    (ht : Profile.standard.stagingMark.hasMatch t = true) :
    Profile.standard.stagingMark.hasMatch u = true := by
  refine hasMatch_of_respaced ?_ ?_ h ht
  · intro before w after hreads
    obtain ⟨hne, hw⟩ := isWord_of_spells_word mark_letters (reads_mark_iff.mp hreads).1
    exact ⟨hne, fun c hc => isGap_of_isWord (hw c hc)⟩
  · intro before w after before' after' hreads hbefore _
    rw [reads_mark_iff] at hreads ⊢
    rwa [hbefore]

theorem hasMatch_entityCall_respaced {t u : Text} (h : Respaced t u)
    (ht : Profile.standard.entityCall.hasMatch t = true) :
    Profile.standard.entityCall.hasMatch u = true := by
  obtain ⟨m, hm⟩ := Option.isSome_iff_exists.mp ht
  obtain ⟨x, y, rfl, hm, -⟩ := findFrom?_some hm
  rw [List.append_nil] at hm
  obtain ⟨rest, hrest, -, -, hreads⟩ := matchAt?_some hm
  have hbefore := startsWord_entityCall.before_eq hreads
  rw [List.head?_reverse] at hbefore
  obtain ⟨w, a, b, arg, c, htext, hw, ha, hb, hc, hne, harg, -⟩ := exists_of_entityCall hm
  have hcall : IsCall (x ++ y) x arg rest :=
    ⟨hbefore, w, a, b, c, by simp [hrest, htext], hw, ha, hb, hc⟩
  have hgap : ∀ d ∈ arg, Grammar.isGap d = false := by
    intro d hd
    rw [Bool.eq_false_iff]
    intro hdgap
    have hblank := isBlank_of_isGap hdgap
    rw [isBlank_of_isArgument (harg d hd)] at hblank
    cases hblank
  obtain ⟨x', y', hcall'⟩ := hcall.respaced h hne hgap
  obtain ⟨v, rfl⟩ : ∃ v, u = x' ++ v := by
    obtain ⟨-, w', a', b', c', hu, -⟩ := hcall'
    exact ⟨_, hu⟩
  obtain ⟨w', rest', rfl, hreads'⟩ := matchAt?_isSome_iff.mp
    (Option.isSome_iff_ne_none.mpr (hcall'.matchAt?_ne_none hne harg))
  exact hasMatch_iff.mpr ⟨x', w', rest', (List.append_assoc _ _ _).symm, hreads'⟩

/-- Whether tidying finds nothing in a text to drop and nothing to inject the identifier into. -/
structure IsClean (t : Text) : Prop where
  noUsing : Grammar.usingKeyword.hasMatch t = false
  noMark : Profile.standard.stagingMark.hasMatch t = false
  noCall : Profile.standard.entityCall.hasMatch t = false
  noToken : Profile.standard.entityToken.hasMatch t = false

theorem IsClean.respaced {t u : Text} (hu : IsClean u) (h : Respaced t u) : IsClean t where
  noUsing := Bool.eq_false_iff.mpr fun ht => by
    simpa [hu.noUsing] using hasMatch_using_respaced h ht
  noMark := Bool.eq_false_iff.mpr fun ht => by
    simpa [hu.noMark] using hasMatch_mark_respaced h ht
  noCall := Bool.eq_false_iff.mpr fun ht => by
    simpa [hu.noCall] using hasMatch_entityCall_respaced h ht
  noToken := Bool.eq_false_iff.mpr fun ht => by
    simpa [hu.noToken] using hasMatch_entityToken_respaced h ht

namespace Held

/-- A clean text is only set in lines, and the identifier is held beside it. -/
theorem tidy_eq_of_isClean (held : Held) (h : IsClean held.text) (identifier : Text) :
    tidy Profile.standard identifier held =
      { held with
        text := layOut held.text
        literals := (held.literals.hold (quoteLiteral identifier)).1 } := by
  have hdrop : dropWords held.text = held.text := by
    rw [dropWords, replaceAll_eq_self (by decide) h.noUsing,
      replaceAll_eq_self (by decide) h.noMark]
  have hinject : ∀ (l : Ledger) (token : Text),
      injectIdentifier Profile.standard l token held.text = held.text := by
    intro l token
    rw [injectIdentifier_eq, replaceAll_eq_self (by decide) h.noCall,
      replaceAll_eq_self (by decide) h.noToken]
  rw [tidy_eq, hdrop, hinject]

end Held

/-- Tidying a clean text changes spaces and line feeds between its words and nothing else that was
held, and a second time changes nothing. -/
theorem Held.tidy_of_isClean (held : Held) (identifier : Text) (h : IsClean held.text) :
    let tidied := tidy Profile.standard identifier held
    tidied.text.words = held.text.words ∧ Respaced tidied.text held.text ∧
      tidied.subqueries = held.subqueries ∧
      (∀ token value, held.literals.get? token = some value →
        tidied.literals.get? token = some value) ∧
      tidy Profile.standard identifier tidied = tidied := by
  have hspaced := respaced_layOut held.text
  have hheld := Ledger.hold_spec held.literals (quoteLiteral identifier)
  have hagain := tidy_eq_of_isClean (tidy Profile.standard identifier held)
  rw [tidy_eq_of_isClean held h identifier] at hagain ⊢
  refine ⟨hspaced.words_eq, hspaced, rfl, fun _ _ hget => hheld.continues.get?_eq_some hget, ?_⟩
  rw [hagain (h.respaced hspaced) identifier, layOut_layOut, Ledger.hold_of_mem hheld.held]

/-- A connective that shares a gap with the next one, and a literal. -/
theorem Held.tidy_of_isClean_connectives :
    let held := Held.standard "select a from t where b = 'c'  and or d = 1".toList
    let tidied := tidy Profile.standard "E".toList held
    IsClean held.text ∧ tidied.text.words = held.text.words ∧ Respaced tidied.text held.text ∧
      tidied.subqueries = held.subqueries ∧
      (∀ token value, held.literals.get? token = some value →
        tidied.literals.get? token = some value) ∧
      tidy Profile.standard "E".toList tidied = tidied := by
  have hclean : IsClean (Held.standard "select a from t where b = 'c'  and or d = 1".toList).text :=
    ⟨by decide, by decide, by decide, by decide⟩
  exact ⟨hclean, tidy_of_isClean _ _ hclean⟩

end MutationPreview
