import MutationPreview.Proofs.Held.Spans
import MutationPreview.Proofs.Ledger.InTurn

/-!
# Dropping words

Dropping stray words `using` leaves the tokens of subqueries as they are. The mark of staging tables
is dropped wherever a word starts, so `(tmp_SUB_1)` becomes a token that was not there before. That is
the only way: once words are dropped, the tokens are those that stood in the text with a mark passed
over behind a bracket (`Ledger.IsBracketed.tokensIn_dropWords`).

Dropping is seen along the scan that does it (`Pattern.Segmented.tokensIn_dropMarks`). Where no mark
hides a token (`Ledger.HidesNoToken`), dropping words keeps the quoted spans too
(`Held.Sound.spansIn_dropWords`).
-/

namespace MutationPreview

open Pattern

/-! ## Tokens in a text -/

namespace Ledger

/-- The tokens of held values that a text starts with. -/
def tokensAt (l : Ledger) (t : Text) : List Text :=
  (l.entries.map Prod.fst).filter (·.isPrefixOf t)

/-- The tokens of held values that stand in a text, from left to right. -/
def tokensIn (l : Ledger) : Text → List Text
  | [] => []
  | c :: t => l.tokensAt (c :: t) ++ tokensIn l t

variable {l : Ledger} {k : Nat} {a b t u w : Text}

theorem mem_tokens : w ∈ l.entries.map Prod.fst ↔ l.holds w = true := by
  rw [List.mem_map, holds_iff]
  constructor
  · rintro ⟨entry, hentry, rfl⟩
    obtain ⟨i, hi, rfl⟩ := mem_entries.mp hentry
    exact ⟨i, hi, rfl⟩
  · rintro ⟨i, hi, rfl⟩
    exact ⟨_, mem_entries.mpr ⟨i, hi, rfl⟩, rfl⟩

theorem mem_tokensAt : w ∈ l.tokensAt t ↔ l.holds w = true ∧ w <+: t := by
  rw [tokensAt, List.mem_filter, mem_tokens, List.isPrefixOf_iff_prefix]

theorem tokensAt_congr (h : ∀ w, l.holds w = true → (w <+: t ↔ w <+: u)) :
    l.tokensAt t = l.tokensAt u := by
  refine List.filter_congr fun w hw => ?_
  rw [Bool.eq_iff_iff, List.isPrefixOf_iff_prefix, List.isPrefixOf_iff_prefix]
  exact h w (mem_tokens.mp hw)

theorem tokensAt_eq_nil (h : ∀ w, l.holds w = true → ¬ w <+: t) : l.tokensAt t = [] := by
  rw [List.eq_nil_iff_forall_not_mem]
  intro w hw
  obtain ⟨hholds, hpre⟩ := mem_tokensAt.mp hw
  exact h w hholds hpre

theorem tokensIn_eq_nil_iff (hne : l.format.lead ≠ []) :
    l.tokensIn t = [] ↔ ∀ w, l.holds w = true → ¬ w <:+: t := by
  induction t with
  | nil =>
    refine ⟨fun _ w hw hwithin => ?_, fun _ => rfl⟩
    obtain ⟨i, -, rfl⟩ := holds_iff.mp hw
    have hnil := List.infix_nil.mp hwithin
    simp [TokenFormat.token, hne] at hnil
  | cons c t ih =>
    rw [tokensIn, List.append_eq_nil_iff, ih]
    constructor
    · rintro ⟨hhere, hrest⟩ w hw hwithin
      rcases List.infix_cons_iff.mp hwithin with hpre | hwithin
      · simpa [hhere] using mem_tokensAt.mpr ⟨hw, hpre⟩
      · exact hrest w hw hwithin
    · intro hnone
      exact ⟨tokensAt_eq_nil fun w hw hpre => hnone w hw hpre.isInfix,
        fun w hw hwithin => hnone w hw (List.infix_cons hwithin)⟩

theorem tokensIn_of_absent (hne : l.format.lead ≠ []) (h : ¬ l.format.lead <:+: t) :
    l.tokensIn t = [] := by
  refine (tokensIn_eq_nil_iff hne).mpr fun w hw hwithin => h ?_
  obtain ⟨i, -, rfl⟩ := holds_iff.mp hw
  rw [TokenFormat.token, List.append_assoc] at hwithin
  exact (List.prefix_append _ _).isInfix.trans hwithin

/-- A text without tokens is left as it is. -/
theorem revert_of_tokensIn_eq_nil (hne : l.format.lead ≠ []) (h : l.tokensIn t = []) :
    l.revert t = t := by
  obtain ⟨segs, hlt, htext, hrevert⟩ := exists_places hne l.values.length t
  have hnone : Segment.spans segs = [] := by
    rw [List.eq_nil_iff_forall_not_mem]
    intro i hi
    refine (tokensIn_eq_nil_iff hne).mp h _ (holds_iff.mpr ⟨i, hlt i hi, rfl⟩) ?_
    rw [← htext]
    exact Segment.infix_join (fun i => l.format.token (i + 1)) hi
  rw [hrevert l ⟨rfl, rfl⟩]
  refine (Segment.join_congr fun i hi => ?_).trans htext
  simp [hnone] at hi

/-- Where no token lies across, the tokens of a text are those of its two pieces. -/
theorem tokensIn_append (h : l.CutsAt a b) : l.tokensIn (a ++ b) = l.tokensIn a ++ l.tokensIn b := by
  induction a with
  | nil => rfl
  | cons c a ih =>
    have hrest : l.CutsAt a b := fun x z hx hz => h (c :: x) z (by simp [hx]) hz
    have hhere : l.tokensAt (c :: a ++ b) = l.tokensAt (c :: a) := by
      refine tokensAt_congr fun w hw => ⟨fun hpre => ?_, fun hpre => hpre.trans (List.prefix_append _ _)⟩
      obtain ⟨i, hi, rfl⟩ := holds_iff.mp hw
      exact (h [] (c :: a) rfl (by simp)).2 i hi hpre
    rw [List.cons_append] at hhere ⊢
    rw [tokensIn, tokensIn, hhere, ih hrest, List.append_assoc]

namespace IsBracketed

/-- Behind its bracket, a held token starts with `S`. -/
theorem head?_of_prefix (h : l.IsBracketed k) (hw : l.holds w = true) (hpre : w <+: '(' :: t) :
    t.head? = some 'S' := by
  obtain ⟨v, rfl, -⟩ := h.exists_word_of_holds hw
  obtain ⟨more, rfl⟩ := (List.cons_prefix_cons.mp hpre).2
  rfl

theorem tokensAt_cons_of_ne (h : l.IsBracketed k) {c : Char} (hc : c ≠ '(') (t : Text) :
    l.tokensAt (c :: t) = [] := by
  refine tokensAt_eq_nil fun w hw hpre => ?_
  obtain ⟨v, rfl, -⟩ := h.exists_word_of_holds hw
  exact hc (List.cons_prefix_cons.mp hpre).1.symm

/-- Behind a bracket, tokens differ only if what stands there differs on words that start with `S`
up to a closing bracket. -/
theorem tokensAt_bracket_congr (h : l.IsBracketed k)
    (hsame : ∀ v, (∀ c ∈ 'S' :: v, isWord c = true) →
      ('S' :: v ++ [')'] <+: t ↔ 'S' :: v ++ [')'] <+: u)) :
    l.tokensAt ('(' :: t) = l.tokensAt ('(' :: u) := by
  refine tokensAt_congr fun w hw => ?_
  obtain ⟨v, rfl, hv⟩ := h.exists_word_of_holds hw
  rw [List.cons_prefix_cons, List.cons_prefix_cons]
  exact and_congr_right fun _ => hsame v hv

theorem tokensIn_append_of_notMem (h : l.IsBracketed k) (ha : '(' ∉ a) (t : Text) :
    l.tokensIn (a ++ t) = l.tokensIn t := by
  induction a with
  | nil => rfl
  | cons c a ih =>
    rw [List.mem_cons, not_or] at ha
    rw [List.cons_append, tokensIn, h.tokensAt_cons_of_ne (Ne.symm ha.1), ih ha.2, List.nil_append]

end IsBracketed

end Ledger

/-! ## Tokens behind marks -/

/-- What follows a word at the start of a text, in any letter case. -/
def afterWord? : (word t : Text) → Option Text
  | [], t => some t
  | _ :: _, [] => none
  | x :: w, c :: t => if sameLetter x c then afterWord? w t else none

theorem afterWord?_eq_some_iff {w t rest : Text} :
    afterWord? w t = some rest ↔ ∃ k, t = k ++ rest ∧ (word w).Spells k := by
  induction w generalizing t with
  | nil =>
    constructor
    · intro h
      obtain rfl : t = rest := by simpa [afterWord?] using h
      exact ⟨[], rfl, reads_word_iff.mpr .nil⟩
    · rintro ⟨k, rfl, hk⟩
      cases reads_word_iff.mp hk
      rfl
  | cons x w ih =>
    cases t with
    | nil =>
      constructor
      · intro h
        cases h
      · rintro ⟨k, hk, hspells⟩
        cases reads_word_iff.mp hspells
        simp at hk
    | cons c t =>
      rw [afterWord?]
      constructor
      · intro h
        split at h
        · rename_i hc
          obtain ⟨k, rfl, hk⟩ := ih.mp h
          exact ⟨c :: k, rfl, reads_word_iff.mpr (.cons hc (reads_word_iff.mp hk))⟩
        · cases h
      · rintro ⟨k, hk, hspells⟩
        cases reads_word_iff.mp hspells with
        | @cons _ d _ k hd hrest =>
          obtain ⟨rfl, rfl⟩ := List.cons.inj hk
          rw [if_pos hd]
          exact ih.mpr ⟨k, rfl, reads_word_iff.mpr hrest⟩

/-- The text without the mark of staging tables at its start. -/
def withoutMark (t : Text) : Text := (afterWord? "tmp_".toList t).getD t

theorem withoutMark_of_spells {m : Text} (hm : (word "tmp_".toList).Spells m) (t : Text) :
    withoutMark (m ++ t) = t := by
  rw [withoutMark, afterWord?_eq_some_iff.mpr ⟨m, rfl, hm⟩]
  rfl

theorem withoutMark_of_not_spells {t : Text}
    (h : ∀ m rest, t = m ++ rest → ¬ (word "tmp_".toList).Spells m) : withoutMark t = t := by
  rw [withoutMark]
  cases hafter : afterWord? "tmp_".toList t with
  | none => rfl
  | some rest =>
    obtain ⟨m, ht, hm⟩ := afterWord?_eq_some_iff.mp hafter
    exact absurd hm (h m rest ht)

/-- A mark starts with a letter that neither a token nor the word `using` starts with. -/
theorem exists_cons_of_mark {m : Text} (hm : (word "tmp_".toList).Spells m) :
    ∃ c rest, m = c :: rest ∧ c ≠ 'S' ∧ sameLetter 'u' c = false := by
  have hletters := reads_word_iff.mp hm
  rw [show "tmp_".toList = 't' :: "mp_".toList from rfl] at hletters
  cases hletters with
  | @cons _ c _ rest hc _ =>
    have hother : (c != 'S' && !sameLetter 'u' c) = true :=
      forall_of_sameLetter (x := 't') (p := fun c => c != 'S' && !sameLetter 'u' c) (by decide)
        (by decide) hc
    simp only [Bool.and_eq_true, bne_iff_ne, Bool.not_eq_true'] at hother
    exact ⟨c, rest, rfl, hother.1, hother.2⟩

theorem exists_cons_of_using {u : Text} (hu : (word "using".toList).Spells u) :
    ∃ c rest, u = c :: rest ∧ c ≠ 'S' := by
  have hletters := reads_word_iff.mp hu
  rw [show "using".toList = 'u' :: "sing".toList from rfl] at hletters
  cases hletters with
  | @cons _ c _ rest hc _ =>
    refine ⟨c, rest, rfl, ?_⟩
    rintro rfl
    exact absurd hc (by decide)

/-- What starts with `S` starts the text or stands behind a mark at its start. -/
theorem prefix_withoutMark_iff {v t : Text} :
    'S' :: v <+: withoutMark t ↔
      'S' :: v <+: t ∨ ∃ m, (word "tmp_".toList).Spells m ∧ m ++ 'S' :: v <+: t := by
  by_cases hmark : ∃ m rest, t = m ++ rest ∧ (word "tmp_".toList).Spells m
  · obtain ⟨m, rest, rfl, hm⟩ := hmark
    rw [withoutMark_of_spells hm]
    constructor
    · exact fun hpre => Or.inr ⟨m, hm, (List.prefix_append_right_inj m).mpr hpre⟩
    · rintro (hpre | ⟨m', hm', hpre⟩)
      · obtain ⟨c, m, rfl, hc, -⟩ := exists_cons_of_mark hm
        exact absurd (List.cons_prefix_cons.mp hpre).1.symm hc
      · have hlength : m'.length = m.length :=
          (reads_word_iff.mp hm').length_eq.symm.trans (reads_word_iff.mp hm).length_eq
        obtain ⟨more, hmore⟩ := hpre
        rw [List.append_assoc] at hmore
        obtain ⟨-, hrest⟩ := List.append_inj hmore hlength
        exact ⟨more, hrest⟩
  · rw [withoutMark_of_not_spells fun m rest ht hm => hmark ⟨m, rest, ht, hm⟩]
    refine ⟨Or.inl, ?_⟩
    rintro (hpre | ⟨m, hm, more, hmore⟩)
    · exact hpre
    · exact absurd ⟨m, 'S' :: v ++ more, by simp [← hmore], hm⟩ hmark

namespace Ledger

/-- The tokens of held values that a text starts with, when a mark behind its bracket is passed
over. -/
def markedTokensAt (l : Ledger) : Text → List Text
  | [] => []
  | c :: t => l.tokensAt (c :: if c = '(' then withoutMark t else t)

/-- The tokens of held values in a text, when marks behind brackets are passed over. -/
def markedTokensIn (l : Ledger) : Text → List Text
  | [] => []
  | c :: t => l.markedTokensAt (c :: t) ++ markedTokensIn l t

theorem markedTokensIn_append_of_notMem {l : Ledger} {k : Nat} (h : l.IsBracketed k) {a : Text}
    (ha : '(' ∉ a) (t : Text) : l.markedTokensIn (a ++ t) = l.markedTokensIn t := by
  induction a with
  | nil => rfl
  | cons c a ih =>
    rw [List.mem_cons, not_or] at ha
    rw [List.cons_append, markedTokensIn, markedTokensAt,
      h.tokensAt_cons_of_ne (Ne.symm ha.1), ih ha.2, List.nil_append]

end Ledger

/-! ## Dropping -/

namespace Pattern.Segmented

variable {p : Pattern} {before after : Text} {segs : List (Segment Match)}

/-- A word behind a bracket stays there when stray words `using` are dropped, and none comes there,
if its first letter is another one. -/
theorem using_prefix_iff (h : Grammar.usingKeyword.Segmented before after segs) {w : Text} {e : Char}
    (hw : ∀ c ∈ e :: w, isWord c = true) (he : sameLetter 'u' e = false) (d : Char) :
    e :: w ++ [d] <+: Segment.join (fun _ => []) segs ↔ e :: w ++ [d] <+: after := by
  rw [List.forall_mem_cons] at hw
  cases h with
  | done => rfl
  | @plain _ rest c segs _ hrest =>
    rw [Segment.join_plain, List.cons_append, List.cons_prefix_cons, List.cons_prefix_cons]
    refine and_congr_right ?_
    rintro rfl
    exact hrest.prefix_iff startsWord_using (by simpa using hw.1) (by simpa using hw.2)
  | @span _ rest m segs hsome _ hrest =>
    have hreads := reads_of_matchAt? hsome
    obtain ⟨hspells, -, hafter⟩ := reads_using_iff.mp hreads
    -- neither the word `using` nor what stands behind it starts the other word
    constructor
    · rintro ⟨more, hmore⟩
      have hhead := hrest.head?_dropped startsWord_using hafter
      rw [Segment.join_span, List.nil_append] at hmore
      rw [← hmore] at hhead
      simp [hw.1] at hhead
    · rintro ⟨more, hmore⟩
      have hletters := reads_word_iff.mp hspells
      rw [show "using".toList = 'u' :: "sing".toList from rfl] at hletters
      cases hm : m.text with
      | nil =>
        rw [hm] at hletters
        cases hletters
      | cons c u =>
        rw [hm] at hletters hmore
        cases hletters with
        | cons hc _ =>
          obtain ⟨rfl, -⟩ := List.cons.inj hmore
          rw [he] at hc
          cases hc

/-- A word that starts with `S` stands behind a bracket once marks are dropped, if it stood there
before or behind a mark. -/
theorem mark_prefix_iff {before : Text}
    (h : Profile.standard.stagingMark.Segmented ('(' :: before) after segs) {v : Text}
    (hv : ∀ c ∈ 'S' :: v, isWord c = true) (d : Char) :
    'S' :: v ++ [d] <+: Segment.join (fun _ => []) segs ↔ 'S' :: v ++ [d] <+: withoutMark after := by
  have hopen : ('(' :: before).head?.any isWord = false := by
    have hbracket : isWord '(' = false := by decide
    simpa using hbracket
  generalize '(' :: before = back at h hopen
  cases h with
  | done => rfl
  | @plain _ rest c segs hnone hrest =>
    rw [withoutMark_of_not_spells fun m rest' hsplit hm =>
      matchAt?_eq_none_iff.mp hnone m rest' hsplit (reads_mark_iff.mpr ⟨hm, hopen⟩)]
    rw [List.forall_mem_cons] at hv
    rw [Segment.join_plain, List.cons_append, List.cons_prefix_cons, List.cons_prefix_cons]
    refine and_congr_right ?_
    rintro rfl
    exact hrest.prefix_iff startsWord_mark (by simpa using hv.1) (by simpa using hv.2)
  | @span _ rest m segs hsome _ hrest =>
    obtain ⟨rest', -, -, -, hreads⟩ := matchAt?_some hsome
    obtain ⟨hspells, -⟩ := reads_mark_iff.mp hreads
    rw [withoutMark_of_spells hspells, Segment.join_span, List.nil_append]
    exact hrest.prefix_iff startsWord_mark
      (head?_behind_word (isWord_of_spells_word mark_letters hspells)) (by rwa [List.dropLast_concat])

theorem notMem_using {before after : Text} {m : Match}
    (h : Grammar.usingKeyword.matchAt? ⟨before, after⟩ = some m) : '(' ∉ m.text := by
  obtain ⟨rest, -, -, -, hreads⟩ := matchAt?_some h
  exact Reads.notMem (by decide) (reads_using_iff.mp hreads).1

variable {l : Ledger} {k : Nat}

/-- Dropping stray words `using` leaves the tokens alone. -/
theorem tokensIn_dropUsing (hl : l.IsBracketed k)
    (h : Grammar.usingKeyword.Segmented before after segs) :
    l.tokensIn (Segment.join (fun _ => []) segs) = l.tokensIn after := by
  induction h with
  | done => rfl
  | @plain before rest c segs _ hrest ih =>
    rw [Segment.join_plain, Ledger.tokensIn, Ledger.tokensIn, ih]
    congr 1
    by_cases hc : c = '('
    · subst hc
      exact hl.tokensAt_bracket_congr fun v hv => hrest.using_prefix_iff hv (by decide) ')'
    · rw [hl.tokensAt_cons_of_ne hc, hl.tokensAt_cons_of_ne hc]
  | @span before rest m segs hsome _ _ ih =>
    rw [Segment.join_span, List.nil_append, ih, hl.tokensIn_append_of_notMem (notMem_using hsome)]

/-- Dropping stray words `using` leaves the tokens alone, those behind marks included. -/
theorem markedTokensIn_dropUsing (hl : l.IsBracketed k)
    (h : Grammar.usingKeyword.Segmented before after segs) :
    l.markedTokensIn (Segment.join (fun _ => []) segs) = l.markedTokensIn after := by
  induction h with
  | done => rfl
  | @plain before rest c segs _ hrest ih =>
    rw [Segment.join_plain, Ledger.markedTokensIn, Ledger.markedTokensIn, ih]
    congr 1
    rw [Ledger.markedTokensAt, Ledger.markedTokensAt]
    by_cases hc : c = '('
    · subst hc
      rw [if_pos rfl, if_pos rfl]
      refine hl.tokensAt_bracket_congr fun v hv => ?_
      have hstart : sameLetter 'u' 'S' = false := by decide
      rw [List.cons_append, prefix_withoutMark_iff, prefix_withoutMark_iff]
      refine or_congr (hrest.using_prefix_iff hv hstart ')') (exists_congr fun m => ?_)
      refine and_congr_right fun hm => ?_
      have hword := (isWord_of_spells_word mark_letters hm).2
      obtain ⟨e, m, rfl, -, he⟩ := exists_cons_of_mark hm
      have hmarked : ∀ c ∈ e :: (m ++ 'S' :: v), isWord c = true :=
        List.forall_mem_append.mpr ⟨hword, hv⟩
      have hiff := hrest.using_prefix_iff hmarked he ')'
      simpa using hiff
    · rw [hl.tokensAt_cons_of_ne hc, hl.tokensAt_cons_of_ne hc]
  | @span before rest m segs hsome _ _ ih =>
    rw [Segment.join_span, List.nil_append, ih,
      Ledger.markedTokensIn_append_of_notMem hl (notMem_using hsome)]

/-- Once marks are dropped, the tokens are those that stood in the text with marks behind brackets
passed over. -/
theorem tokensIn_dropMarks (hl : l.IsBracketed k)
    (h : Profile.standard.stagingMark.Segmented before after segs) :
    l.tokensIn (Segment.join (fun _ => []) segs) = l.markedTokensIn after := by
  induction h with
  | done => rfl
  | @plain before rest c segs _ hrest ih =>
    rw [Segment.join_plain, Ledger.tokensIn, Ledger.markedTokensIn, ih]
    congr 1
    rw [Ledger.markedTokensAt]
    by_cases hc : c = '('
    · subst hc
      rw [if_pos rfl]
      exact hl.tokensAt_bracket_congr fun v hv => hrest.mark_prefix_iff hv ')'
    · rw [hl.tokensAt_cons_of_ne hc, hl.tokensAt_cons_of_ne hc]
  | @span before rest m segs hsome _ _ ih =>
    obtain ⟨rest', -, -, -, hreads⟩ := matchAt?_some hsome
    have hword := isWord_of_spells_word mark_letters (reads_mark_iff.mp hreads).1
    have hopen : '(' ∉ m.text := fun hmem => absurd (hword.2 _ hmem) (by decide)
    rw [Segment.join_span, List.nil_append, ih, Ledger.markedTokensIn_append_of_notMem hl hopen]

end Pattern.Segmented

/-- No token of a held value stands in a text with a mark behind its bracket. -/
def Ledger.HidesNoToken (l : Ledger) (t : Text) : Prop := l.markedTokensIn t = l.tokensIn t

instance (l : Ledger) (t : Text) : Decidable (l.HidesNoToken t) :=
  inferInstanceAs (Decidable (l.markedTokensIn t = l.tokensIn t))

namespace Ledger.IsBracketed

variable {l : Ledger} {k : Nat} (hl : l.IsBracketed k)

include hl

/-- Once words are dropped, the tokens are those that stood in the text with marks behind brackets
passed over. -/
theorem tokensIn_dropWords (t : Text) : l.tokensIn (dropWords t) = l.markedTokensIn t := by
  have husing := segmented_segments (p := Grammar.usingKeyword) (by decide) t
  rw [← husing.markedTokensIn_dropUsing hl]
  exact (segmented_segments (by decide) _).tokensIn_dropMarks hl

/-! ## Marks that show no token -/

/-- Passing over a mark shows a token where there was none, or the tokens are the same. -/
theorem markedTokensAt_cases (t : Text) :
    l.markedTokensAt t = l.tokensAt t ∨
      l.tokensAt t = [] ∧ ∃ mark rest, t = '(' :: (mark ++ rest) ∧
        (word "tmp_".toList).Spells mark ∧ l.markedTokensAt t = l.tokensAt ('(' :: rest) := by
  cases t with
  | nil =>
    left
    refine (Ledger.tokensAt_eq_nil fun w hw hpre => ?_).symm
    obtain ⟨v, rfl, -⟩ := hl.exists_word_of_holds hw
    simp at hpre
  | cons c t =>
    rw [Ledger.markedTokensAt]
    by_cases hc : c = '('
    · subst hc
      rw [if_pos rfl]
      by_cases hmark : ∃ mark rest, t = mark ++ rest ∧ (word "tmp_".toList).Spells mark
      · obtain ⟨mark, rest, rfl, hspells⟩ := hmark
        refine Or.inr ⟨Ledger.tokensAt_eq_nil fun w hw hpre => ?_, mark, rest, rfl, hspells, ?_⟩
        · obtain ⟨v, rfl, -⟩ := hl.exists_word_of_holds hw
          obtain ⟨d, mark, rfl, hd, -⟩ := exists_cons_of_mark hspells
          exact hd (List.cons_prefix_cons.mp (List.cons_prefix_cons.mp hpre).2).1.symm
        · rw [withoutMark_of_spells hspells]
      · rw [withoutMark_of_not_spells fun mark rest ht hspells => hmark ⟨mark, rest, ht, hspells⟩]
        exact Or.inl rfl
    · rw [if_neg hc]
      exact Or.inl rfl

theorem length_tokensAt_le (t : Text) : (l.tokensAt t).length ≤ (l.markedTokensAt t).length := by
  rcases hl.markedTokensAt_cases t with hsame | ⟨hnil, -⟩
  · rw [hsame]
  · simp [hnil]

theorem length_tokensIn_le (t : Text) : (l.tokensIn t).length ≤ (l.markedTokensIn t).length := by
  induction t with
  | nil => exact Nat.le_refl _
  | cons c t ih =>
    rw [Ledger.tokensIn, Ledger.markedTokensIn, List.length_append, List.length_append]
    exact Nat.add_le_add (hl.length_tokensAt_le _) ih

/-- Passing over marks changes the tokens of a text only where it changes them at some place. -/
theorem markedTokensIn_eq_iff {t : Text} :
    l.markedTokensIn t = l.tokensIn t ↔
      ∀ before rest, t = before ++ rest → l.markedTokensAt rest = l.tokensAt rest := by
  induction t with
  | nil =>
    refine ⟨fun _ before rest hsplit => ?_, fun _ => rfl⟩
    obtain ⟨-, rfl⟩ := List.append_eq_nil_iff.mp hsplit.symm
    rcases hl.markedTokensAt_cases [] with hsame | ⟨-, mark, rest, hsplit, -⟩
    · exact hsame
    · cases hsplit
  | cons c t ih =>
    rw [Ledger.tokensIn, Ledger.markedTokensIn]
    constructor
    · intro heq
      have hlength := congrArg List.length heq
      rw [List.length_append, List.length_append] at hlength
      have hhere := hl.length_tokensAt_le (c :: t)
      have hbehind := hl.length_tokensIn_le t
      obtain ⟨hat, hin⟩ := List.append_inj heq (by omega)
      intro before rest hsplit
      cases before with
      | nil =>
        obtain rfl : c :: t = rest := hsplit
        exact hat
      | cons d before =>
        obtain ⟨-, rfl⟩ := List.cons.inj hsplit
        exact ih.mp hin before rest rfl
    · intro hall
      rw [hall [] _ rfl, ih.mpr fun before rest hsplit => hall (c :: before) rest (by rw [hsplit]; rfl)]

/-- Passing over a mark shows no token exactly where no held token has a mark behind its bracket. -/
theorem markedTokensAt_eq_iff {t : Text} :
    l.markedTokensAt t = l.tokensAt t ↔
      ∀ mark token after, t = '(' :: (mark ++ (token ++ after)) →
        (word "tmp_".toList).Spells mark → l.holds ('(' :: token) = false := by
  constructor
  · rintro heq mark token after rfl hspells
    rw [Bool.eq_false_iff]
    intro hholds
    have hshown : '(' :: token ∈ l.markedTokensAt ('(' :: (mark ++ (token ++ after))) := by
      rw [Ledger.markedTokensAt, if_pos rfl, withoutMark_of_spells hspells]
      exact Ledger.mem_tokensAt.mpr ⟨hholds, by simp⟩
    rw [heq] at hshown
    obtain ⟨-, hpre⟩ := Ledger.mem_tokensAt.mp hshown
    obtain ⟨v, htoken, -⟩ := hl.exists_word_of_holds hholds
    obtain ⟨-, rfl⟩ := List.cons.inj htoken
    obtain ⟨d, mark, rfl, hd, -⟩ := exists_cons_of_mark hspells
    exact hd (List.cons_prefix_cons.mp (List.cons_prefix_cons.mp hpre).2).1.symm
  · intro hall
    rcases hl.markedTokensAt_cases t with hsame | ⟨hnil, mark, rest, rfl, hspells, hmarked⟩
    · exact hsame
    · rw [hmarked, hnil]
      refine Ledger.tokensAt_eq_nil fun w hw hpre => ?_
      obtain ⟨v, rfl, -⟩ := hl.exists_word_of_holds hw
      obtain ⟨after, rfl⟩ := (List.cons_prefix_cons.mp hpre).2
      rw [hall mark _ after rfl hspells] at hw
      cases hw

theorem hidesNoToken_iff {t : Text} :
    l.HidesNoToken t ↔ ∀ before mark token after, t = before ++ '(' :: (mark ++ (token ++ after)) →
      (word "tmp_".toList).Spells mark → l.holds ('(' :: token) = false := by
  rw [Ledger.HidesNoToken, hl.markedTokensIn_eq_iff]
  constructor
  · intro hall before mark token after hsplit
    exact hl.markedTokensAt_eq_iff.mp (hall before _ hsplit) mark token after rfl
  · rintro hall before rest rfl
    refine hl.markedTokensAt_eq_iff.mpr fun mark token after hrest => ?_
    exact hall before mark token after (by rw [hrest])

theorem hidesNoToken_dropUsing {t : Text} (h : l.HidesNoToken t) :
    l.HidesNoToken (Grammar.usingKeyword.replaceAll (fun _ => []) t) := by
  have husing := segmented_segments (p := Grammar.usingKeyword) (by decide) t
  rw [Ledger.HidesNoToken, replaceAll, husing.markedTokensIn_dropUsing hl, husing.tokensIn_dropUsing hl]
  exact h

end Ledger.IsBracketed

namespace Held.Sound

variable {q : Held} {t : Text}

/-! ## The quoted spans -/

/-- What stands where a word may start can be dropped, if it has no span of its own and no token is
behind the bracket before or after that. -/
theorem spansIn_drop (h : q.Sound) {a u b : Text} (ha : '\'' ∉ a)
    (hlast : a.getLast?.any isWord = false) (hstart : ∃ c v, u = c :: v ∧ c ≠ 'S')
    (hword : q.spansIn (u ++ b) = q.spansIn b)
    (hnext : a.getLast? = some '(' → ∀ w, q.subqueries.holds w = true → ¬ w <+: '(' :: b) :
    q.spansIn (a ++ (u ++ b)) = q.spansIn (a ++ b) := by
  obtain ⟨k, hsub⟩ := h.standard.exists_isBracketed
  obtain ⟨c, v, rfl, hc⟩ := hstart
  have hfirst : ∀ w, q.subqueries.holds w = true → ¬ w <+: '(' :: (c :: v ++ b) := by
    intro w hw hpre
    exact hc (Option.some.inj (hsub.head?_of_prefix hw hpre))
  rw [h.spansIn_append ha hlast fun _ => hfirst, hword, h.spansIn_append ha hlast hnext]

/-- Dropping stray words `using` keeps the spans. -/
theorem spansIn_dropUsing (h : q.Sound) (ht : '\'' ∉ t) :
    q.spansIn (Grammar.usingKeyword.replaceAll (fun _ => []) t) = q.spansIn t := by
  obtain ⟨k, hsub⟩ := h.standard.exists_isBracketed
  refine (replaceAll_invariant (by decide) ?_).symm
  intro before m rest segs hm hsegs hsplit
  have hreads := reads_of_matchAt? hm
  obtain ⟨hspells, hedge, hbehind⟩ := reads_using_iff.mp hreads
  have hbefore : '\'' ∉ before.reverse := fun hmem => ht (by simp [← hsplit, hmem])
  have hlast : before.reverse.getLast?.any isWord = false := by simpa using hedge
  have hhead : (Segment.join (fun _ => []) segs : Text).head?.any isWord = false :=
    hsegs.head?_dropped startsWord_using hbehind
  have hopen : '(' ∉ m.text := Reads.notMem (by decide) hspells
  have hletter : 'T' ∉ m.text := Reads.notMem (by decide) hspells
  have hquote : '\'' ∉ m.text := Reads.notMem (by decide) hspells
  rw [List.nil_append]
  refine h.spansIn_drop hbefore hlast (exists_cons_of_using hspells) ?_ fun _ w hw hpre => ?_
  · rw [spansIn, h.putBack_word_append hopen hletter hhead, quotedSpans_append_of_notMem hquote]
    rfl
  · -- what stands behind the word starts no word, and a token starts with `S`
    rw [hsub.head?_of_prefix hw hpre] at hhead
    exact absurd hhead (by decide)

/-- Dropping marks keeps the spans, if none hides the token of a subquery. -/
theorem spansIn_dropMarks (h : q.Sound) (ht : '\'' ∉ t) (hmark : q.subqueries.HidesNoToken t) :
    q.spansIn (Profile.standard.stagingMark.replaceAll (fun _ => []) t) = q.spansIn t := by
  obtain ⟨k, hsub⟩ := h.standard.exists_isBracketed
  refine (replaceAll_invariant (by decide) ?_).symm
  intro before m rest segs hm hsegs hsplit
  have hreads := reads_of_matchAt? hm
  obtain ⟨hspells, hedge⟩ := reads_mark_iff.mp hreads
  have hbefore : '\'' ∉ before.reverse := fun hmem => ht (by simp [← hsplit, hmem])
  have hlast : before.reverse.getLast?.any isWord = false := by simpa using hedge
  have hopen : '(' ∉ m.text := Reads.notMem (by decide) hspells
  have hletter : 'S' ∉ m.text := Reads.notMem (by decide) hspells
  have hquote : '\'' ∉ m.text := Reads.notMem (by decide) hspells
  obtain ⟨c, v, htext, hc, -⟩ := exists_cons_of_mark hspells
  rw [List.nil_append]
  refine h.spansIn_drop hbefore hlast ⟨c, v, htext, hc⟩ ?_ fun hbracket w hw hpre => ?_
  · rw [spansIn, h.putBack_append_of_notMem hopen hletter, quotedSpans_append_of_notMem hquote]
    rfl
  · obtain ⟨v, rfl, hv⟩ := hsub.exists_word_of_holds hw
    -- the token stood behind the mark, so the mark hid it
    obtain ⟨more, rfl⟩ := (hsegs.prefix_iff startsWord_mark
      (head?_behind_word (isWord_of_spells_word mark_letters hspells)) (by rwa [List.dropLast_concat])).mp
        (List.cons_prefix_cons.mp hpre).2
    obtain ⟨front, hfront⟩ := List.getLast?_eq_some_iff.mp hbracket
    have hhidden := hsub.hidesNoToken_iff.mp hmark front m.text ('S' :: v ++ [')']) more
      (by rw [← hsplit, hfront, List.append_assoc, List.singleton_append]) hspells
    rw [hhidden] at hw
    cases hw

/-- Dropping words and marks keeps the spans. -/
theorem spansIn_dropWords (h : q.Sound) (ht : '\'' ∉ t) (hmark : q.subqueries.HidesNoToken t) :
    q.spansIn (dropWords t) = q.spansIn t := by
  obtain ⟨k, hsub⟩ := h.standard.exists_isBracketed
  have hquote : '\'' ∉ Grammar.usingKeyword.replaceAll (fun _ => []) t :=
    (keeps_replaceAll (by decide) fun _ _ => Or.inr List.not_mem_nil).notMem ht
  rw [dropWords, h.spansIn_dropMarks hquote (hsub.hidesNoToken_dropUsing hmark),
    h.spansIn_dropUsing ht]

end Held.Sound

end MutationPreview
