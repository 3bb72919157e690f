import Mathlib.Data.List.Basic
import MutationPreview.Statement

/-!
# Where a batch is cut

The single quotes of a text pair from left to right: the first with the second, the third with the
fourth, and so on; a last quote without a partner is an ordinary character. `QuotePair` says so by
places, for the text as a whole. The cutting itself goes through the text once and only knows
whether it is inside quotes.

Main statement: the pieces of a batch are the only ones that make up the batch and end exactly at
the terminators outside all pairs (`cutBatch_eq_iff`).
-/

namespace MutationPreview

/-! ## Pairs of quotes -/

/-- The quotes at two places are a pair: the first has an even number of quotes before it, and the
second is the next quote. -/
structure QuotePair (t : Text) (first second : Nat) : Prop where
  opens : t[first]? = some '\''
  closes : t[second]? = some '\''
  even : (t.take first).count '\'' % 2 = 0
  next : (t.take second).count '\'' = (t.take first).count '\'' + 1

/-- Whether a place lies between the two quotes of a pair. -/
def BetweenPair (t : Text) (i : Nat) : Prop :=
  ∃ first second, QuotePair t first second ∧ first < i ∧ i < second

/-- The number of quotes before a place grows by one behind a quote and stays the same behind any
other character. -/
theorem count_take_succ {t : Text} {i : Nat} {c : Char} (h : t[i]? = some c) :
    (t.take (i + 1)).count '\'' = (t.take i).count '\'' + if c = '\'' then 1 else 0 := by
  rw [List.take_add_one, h, Option.toList_some, List.count_append, List.count_singleton]
  simp

theorem count_take_mono (t : Text) {i j : Nat} (h : i ≤ j) :
    (t.take i).count '\'' ≤ (t.take j).count '\'' :=
  ((t.take_prefix_take_left h).sublist).count_le _

/-- Every quote before a place has a number, and every number below theirs is that of a quote. -/
theorem exists_quote_of_lt {t : Text} {i n : Nat} (h : n < (t.take i).count '\'') :
    ∃ j < i, t[j]? = some '\'' ∧ (t.take j).count '\'' = n := by
  induction i with
  | zero => simp at h
  | succ i ih =>
    by_cases hlt : n < (t.take i).count '\''
    · obtain ⟨j, hj, hquote, hcount⟩ := ih hlt
      exact ⟨j, by omega, hquote, hcount⟩
    · -- the place itself has the quote with that number
      cases hi : t[i]? with
      | none =>
        rw [List.take_add_one, hi] at h
        simp at h
        omega
      | some c =>
        rw [count_take_succ hi] at h
        split at h
        · rename_i hc
          exact ⟨i, by omega, by rw [hi, hc], by omega⟩
        · omega

/-- A place that holds no quote lies in a pair exactly when an odd number of quotes stands before
it and a quote behind it. -/
theorem betweenPair_iff {t : Text} {i : Nat} (hi : t[i]? ≠ some '\'') :
    BetweenPair t i ↔ (t.take i).count '\'' % 2 = 1 ∧ '\'' ∈ t.drop i := by
  constructor
  · rintro ⟨first, second, hpair, hfirst, hsecond⟩
    have hafter := count_take_succ hpair.opens
    have hle := count_take_mono t (show first + 1 ≤ i by omega)
    have hge := count_take_mono t (show i ≤ second by omega)
    have heven := hpair.even
    have hnext := hpair.next
    rw [if_pos rfl] at hafter
    refine ⟨by omega, ?_⟩
    have hmem : (t.drop i)[second - i]? = some '\'' := by
      rw [List.getElem?_drop, show i + (second - i) = second by omega, hpair.closes]
    exact List.mem_of_getElem? hmem
  · rintro ⟨hodd, hmem⟩
    -- the last quote before the place and the first one behind it
    have hfirst : (t.take i).count '\'' - 1 < (t.take i).count '\'' := by omega
    have hsecond : (t.take i).count '\'' < (t.take t.length).count '\'' := by
      have hsplit := congrArg (List.count '\'') (List.take_append_drop i t)
      have hpos := List.count_pos_iff.mpr hmem
      rw [List.count_append] at hsplit
      rw [List.take_length]
      omega
    obtain ⟨first, hlt, hopens, hcount⟩ := exists_quote_of_lt hfirst
    obtain ⟨second, -, hcloses, hcount'⟩ := exists_quote_of_lt hsecond
    have hle : i ≤ second := by
      by_contra hcontra
      have hmono := count_take_mono t (show second + 1 ≤ i by omega)
      rw [count_take_succ hcloses, if_pos rfl] at hmono
      omega
    have hne : i ≠ second := by
      rintro rfl
      exact hi hcloses
    exact ⟨first, second, ⟨hopens, hcloses, by omega, by omega⟩, hlt, by omega⟩

/-! ## Pieces -/

/-- The offsets at which the pieces of a text end that starts at `offset`. -/
def pieceEnds : (offset : Nat) → List Text → List Nat
  | _, [] => []
  | offset, piece :: pieces =>
    (offset + piece.length) :: pieceEnds (offset + piece.length) pieces

/-- What the pieces of a text are: consecutive stretches that end at the terminators outside all
pairs of quotes, and then the rest of the text. -/
structure Pieces.EndAtTerminators (terminator : Char) (t : Text) (p : Pieces) : Prop where
  whole : p.pieces.flatten ++ p.rest = t
  solid : ∀ piece ∈ p.pieces, piece ≠ []
  ends : ∀ n, n ∈ pieceEnds 0 p.pieces ↔
    ∃ i, n = i + 1 ∧ t[i]? = some terminator ∧ ¬ BetweenPair t i

theorem lt_of_mem_pieceEnds {pieces : List Text} (hsolid : ∀ piece ∈ pieces, piece ≠ [])
    {offset n : Nat} (h : n ∈ pieceEnds offset pieces) : offset < n := by
  induction pieces generalizing offset with
  | nil => simp [pieceEnds] at h
  | cons piece pieces ih =>
    have hpos := List.length_pos_iff.mpr (hsolid piece List.mem_cons_self)
    rw [pieceEnds, List.mem_cons] at h
    rcases h with rfl | h
    · omega
    · have hlt := ih (fun q hq => hsolid q (List.mem_cons_of_mem _ hq)) h
      omega

/-- Pieces that are not empty are determined by where they end. -/
theorem pieces_unique {P Q : List Text} {r s : Text} {offset : Nat}
    (hP : ∀ piece ∈ P, piece ≠ []) (hQ : ∀ piece ∈ Q, piece ≠ [])
    (htext : P.flatten ++ r = Q.flatten ++ s)
    (hends : ∀ n, n ∈ pieceEnds offset P ↔ n ∈ pieceEnds offset Q) : P = Q ∧ r = s := by
  induction P generalizing Q offset with
  | nil =>
    cases Q with
    | nil => exact ⟨rfl, htext⟩
    | cons q Q => simpa [pieceEnds] using hends (offset + q.length)
  | cons p P ih =>
    cases Q with
    | nil => simpa [pieceEnds] using hends (offset + p.length)
    | cons q Q =>
      have hP' : ∀ piece ∈ P, piece ≠ [] := fun piece h => hP piece (List.mem_cons_of_mem _ h)
      have hQ' : ∀ piece ∈ Q, piece ≠ [] := fun piece h => hQ piece (List.mem_cons_of_mem _ h)
      simp only [pieceEnds, List.mem_cons] at hends
      -- both first ends are the least of the same set
      have hlength : p.length = q.length := by
        have hp := (hends (offset + p.length)).mp (Or.inl rfl)
        have hq := (hends (offset + q.length)).mpr (Or.inl rfl)
        rcases hp with hp | hp
        · omega
        · rcases hq with hq | hq
          · omega
          · have hlt := lt_of_mem_pieceEnds hQ' hp
            have hlt' := lt_of_mem_pieceEnds hP' hq
            omega
      rw [List.flatten_cons, List.flatten_cons, List.append_assoc, List.append_assoc] at htext
      obtain ⟨rfl, hrest⟩ := List.append_inj htext hlength
      have htail : ∀ n, n ∈ pieceEnds (offset + p.length) P ↔
          n ∈ pieceEnds (offset + p.length) Q := by
        intro n
        constructor
        · intro hn
          have hlt := lt_of_mem_pieceEnds hP' hn
          exact ((hends n).mp (Or.inr hn)).resolve_left (by omega)
        · intro hn
          have hlt := lt_of_mem_pieceEnds hQ' hn
          exact ((hends n).mpr (Or.inr hn)).resolve_left (by omega)
      obtain ⟨rfl, rfl⟩ := ih hP' hQ' hrest htail
      exact ⟨rfl, rfl⟩

namespace Pieces

@[simp] theorem whole_push (c : Char) (p : Pieces) :
    (p.push c).pieces.flatten ++ (p.push c).rest = c :: (p.pieces.flatten ++ p.rest) := by
  obtain ⟨_ | ⟨piece, pieces⟩, rest⟩ := p <;> simp [push]

theorem solid_push {c : Char} {p : Pieces} (h : ∀ piece ∈ p.pieces, piece ≠ []) :
    ∀ piece ∈ (p.push c).pieces, piece ≠ [] := by
  obtain ⟨_ | ⟨piece, pieces⟩, rest⟩ := p
  · exact h
  · intro piece' hmem
    rcases List.mem_cons.mp hmem with rfl | hmem
    · simp
    · exact h piece' (List.mem_cons_of_mem _ hmem)

@[simp] theorem pieceEnds_push (c : Char) (p : Pieces) (offset : Nat) :
    pieceEnds offset (p.push c).pieces = pieceEnds (offset + 1) p.pieces := by
  obtain ⟨_ | ⟨piece, pieces⟩, rest⟩ := p
  · rfl
  · simp only [push, pieceEnds, List.length_cons]
    rw [Nat.add_assoc offset 1, Nat.add_comm 1]

end Pieces

/-! ## Cutting -/

section Cutting

variable {x : Char}

/-- Whether the text behind a character is inside quotes, if the character itself is or is not. -/
def quotedBehind (quoted : Bool) (c : Char) (t : Text) : Bool :=
  if quoted then c != '\'' else c == '\'' && t.contains '\''

/-- One step of the cut: a character ends a piece, or goes in front of what comes behind it. -/
theorem cutFrom_cons (quoted : Bool) (c : Char) (t : Text) :
    cutFrom x quoted (c :: t) =
      let others := cutFrom x (quotedBehind quoted c t) t
      if c = x ∧ c ≠ '\'' ∧ quoted = false then ⟨[c] :: others.pieces, others.rest⟩
      else others.push c := by
  cases quoted with
  | true => simp [cutFrom, quotedBehind]
  | false =>
    by_cases hc : c = '\''
    · simp [cutFrom, quotedBehind, hc]
    · have hbeq : (c == '\'') = false := beq_eq_false_iff_ne.mpr hc
      simp [cutFrom, quotedBehind, hc, hbeq]

theorem whole_cutFrom (quoted : Bool) (t : Text) :
    (cutFrom x quoted t).pieces.flatten ++ (cutFrom x quoted t).rest = t := by
  induction t generalizing quoted with
  | nil => cases quoted <;> rfl
  | cons c t ih =>
    rw [cutFrom_cons]
    dsimp only
    split
    · simp [ih]
    · rw [Pieces.whole_push, ih]

theorem solid_cutFrom (quoted : Bool) (t : Text) :
    ∀ piece ∈ (cutFrom x quoted t).pieces, piece ≠ [] := by
  induction t generalizing quoted with
  | nil => cases quoted <;> simp [cutFrom]
  | cons c t ih =>
    rw [cutFrom_cons]
    dsimp only
    split
    · intro piece hmem
      rcases List.mem_cons.mp hmem with rfl | hmem
      · simp
      · exact ih _ piece hmem
    · exact Pieces.solid_push (ih _)

/-- Whether the text behind `before` starts between two paired quotes. -/
def IsInside (before t : Text) : Prop := before.count '\'' % 2 = 1 ∧ '\'' ∈ t

/-- The cut knows about quotes what the pairing of the whole text says. -/
theorem quotedBehind_iff {quoted : Bool} {before t : Text} {c : Char}
    (h : quoted = true ↔ IsInside before (c :: t)) :
    quotedBehind quoted c t = true ↔ IsInside (before ++ [c]) t := by
  have hcount : (before ++ [c]).count '\'' = before.count '\'' + if c = '\'' then 1 else 0 := by
    rw [List.count_append, List.count_singleton]
    simp
  rw [IsInside, hcount]
  cases quoted with
  | true =>
    obtain ⟨hodd, hmem⟩ := h.mp rfl
    by_cases hc : c = '\''
    · -- the quote closes the pair
      simp only [quotedBehind, hc, if_true]
      constructor
      · intro hne
        simp at hne
      · rintro ⟨heven, -⟩
        omega
    · have hrest : '\'' ∈ t := (List.mem_cons.mp hmem).resolve_left (Ne.symm hc)
      simp [quotedBehind, hc, hodd, hrest]
  | false =>
    have hout : ¬ IsInside before (c :: t) := fun hin => Bool.false_ne_true (h.mpr hin)
    by_cases hc : c = '\''
    · -- the quote opens a pair if there is another one
      have heven : ¬ before.count '\'' % 2 = 1 := fun hodd => hout ⟨hodd, by simp [hc]⟩
      simp only [quotedBehind, hc, if_true, beq_self_eq_true, Bool.true_and,
        List.contains_iff_mem, Bool.false_eq_true, if_false]
      constructor
      · intro hmem
        exact ⟨by omega, hmem⟩
      · intro hin
        exact hin.2
    · have hnot : ¬ (before.count '\'' % 2 = 1 ∧ '\'' ∈ t) := fun hin =>
        hout ⟨hin.1, List.mem_cons_of_mem _ hin.2⟩
      simpa [quotedBehind, hc] using hnot

/-- Whether a terminator stands at a place of the text, outside all pairs. -/
def IsFree (x : Char) (t : Text) (i : Nat) : Prop :=
  t[i]? = some x ∧ ¬ IsInside (t.take i) (t.drop i)

theorem isFree_length_iff {quoted : Bool} {before t : Text} {c : Char}
    (h : quoted = true ↔ IsInside before (c :: t)) :
    IsFree x (before ++ c :: t) before.length ↔ c = x ∧ quoted = false := by
  have hget : (before ++ c :: t)[before.length]? = some c := by simp
  have htake : (before ++ c :: t).take before.length = before := by simp
  have hdrop : (before ++ c :: t).drop before.length = c :: t := by simp
  rw [IsFree, hget, htake, hdrop, ← h, Bool.not_eq_true, Option.some.injEq]

/-- The cut from a place on ends its pieces at the free terminators from that place on, if it
starts with the right knowledge of quotes. -/
theorem mem_pieceEnds_cutFrom (hx : x ≠ '\'') {quoted : Bool} {before t : Text}
    (hquoted : quoted = true ↔ IsInside before t) (n : Nat) :
    n ∈ pieceEnds before.length (cutFrom x quoted t).pieces ↔
      ∃ i, n = i + 1 ∧ before.length ≤ i ∧ IsFree x (before ++ t) i := by
  induction t generalizing quoted before with
  | nil =>
    have hempty : (cutFrom x quoted []).pieces = [] := by cases quoted <;> rfl
    rw [hempty]
    constructor
    · intro h
      simp [pieceEnds] at h
    · rintro ⟨i, -, hle, hterminator, -⟩
      rw [List.append_nil, List.getElem?_eq_none hle] at hterminator
      simp at hterminator
  | cons c t ih =>
    have hrec := ih (quotedBehind_iff hquoted)
    rw [List.append_assoc, List.singleton_append, List.length_append, List.length_singleton] at hrec
    -- free terminators from here on: the one here, if it is free, and those behind it
    have hsplit : (∃ i, n = i + 1 ∧ before.length ≤ i ∧ IsFree x (before ++ c :: t) i) ↔
        (n = before.length + 1 ∧ c = x ∧ quoted = false) ∨
          ∃ i, n = i + 1 ∧ before.length + 1 ≤ i ∧ IsFree x (before ++ c :: t) i := by
      rw [← isFree_length_iff hquoted]
      constructor
      · rintro ⟨i, rfl, hle, hfree⟩
        rcases Nat.eq_or_lt_of_le hle with rfl | hlt
        · exact Or.inl ⟨rfl, hfree⟩
        · exact Or.inr ⟨i, rfl, hlt, hfree⟩
      · rintro (⟨rfl, hfree⟩ | ⟨i, rfl, hle, hfree⟩)
        · exact ⟨_, rfl, Nat.le_refl _, hfree⟩
        · exact ⟨i, rfl, by omega, hfree⟩
    rw [hsplit, ← hrec, cutFrom_cons]
    dsimp only
    split
    · rename_i hcut
      simp [pieceEnds, hcut.1, hcut.2.2]
    · rename_i hcut
      have hnot : ¬ (c = x ∧ quoted = false) := fun h => hcut ⟨h.1, h.1 ▸ hx, h.2⟩
      simp [hnot]

theorem endAtTerminators_cutBatch (hx : x ≠ '\'') (t : Text) :
    (cutBatch x t).EndAtTerminators x t where
  whole := whole_cutFrom false t
  solid := solid_cutFrom false t
  ends n := by
    have hstart : false = true ↔ IsInside [] t := by simp [IsInside]
    have hcuts := mem_pieceEnds_cutFrom hx hstart n
    rw [List.length_nil] at hcuts
    rw [cutBatch, hcuts]
    constructor
    · rintro ⟨i, rfl, -, hterminator, hfree⟩
      rw [List.nil_append] at hterminator hfree
      refine ⟨i, rfl, hterminator, ?_⟩
      rwa [betweenPair_iff (by rw [hterminator]; simpa using hx)]
    · rintro ⟨i, rfl, hterminator, hfree⟩
      refine ⟨i, rfl, Nat.zero_le _, hterminator, ?_⟩
      rwa [betweenPair_iff (by rw [hterminator]; simpa using hx)] at hfree

end Cutting

/-- A batch is cut exactly behind the terminators that do not lie between two paired quotes. -/
theorem cutBatch_eq_iff {terminator : Char} (h : terminator ≠ '\'') (batch : Text) (p : Pieces) :
    p = cutBatch terminator batch ↔ p.EndAtTerminators terminator batch := by
  have hcut := endAtTerminators_cutBatch h batch
  constructor
  · rintro rfl
    exact hcut
  · intro hp
    obtain ⟨hpieces, hrest⟩ := pieces_unique hp.solid hcut.solid (hp.whole.trans hcut.whole.symm)
      fun n => (hp.ends n).trans (hcut.ends n).symm
    cases p
    exact congrArg₂ Pieces.mk hpieces hrest

/-- A terminator between paired quotes does not cut, one behind a quote without a partner does. -/
theorem cutBatch_quoted_terminator :
    ';' ≠ '\'' ∧ (⟨["a = 'x;y';".toList, " b = 'z;".toList], []⟩ : Pieces).EndAtTerminators ';'
      "a = 'x;y'; b = 'z;".toList :=
  ⟨by decide, (cutBatch_eq_iff (by decide) _ _).mp (by decide)⟩

/-- A text has no piece exactly when all its terminators lie between paired quotes. -/
theorem Pieces.EndAtTerminators.pieces_eq_nil_iff {terminator : Char} {t : Text} {p : Pieces}
    (h : p.EndAtTerminators terminator t) :
    p.pieces = [] ↔ ∀ i, t[i]? = some terminator → BetweenPair t i := by
  constructor
  · intro hp i hi
    by_contra hfree
    have hmem := (h.ends (i + 1)).mpr ⟨i, rfl, hi, hfree⟩
    rw [hp] at hmem
    exact absurd hmem List.not_mem_nil
  · intro hall
    cases hp : p.pieces with
    | nil => rfl
    | cons piece pieces =>
      have hmem : 0 + piece.length ∈ pieceEnds 0 p.pieces := by
        rw [hp]
        exact List.mem_cons_self
      obtain ⟨i, -, hi, hfree⟩ := (h.ends _).mp hmem
      exact absurd (hall i hi) hfree

end MutationPreview
