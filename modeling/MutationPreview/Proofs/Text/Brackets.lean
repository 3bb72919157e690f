import Mathlib.Data.List.Basic
import MutationPreview.Proofs.Text.Basic

/-!
# Matched brackets

Each closing bracket of a text is matched with the nearest opening bracket before it that is still
unmatched; brackets without a partner are ignored. `Matched` says so by places, with the stack of
opening brackets that are still unmatched (`openers`).

Without places, two brackets are matched exactly when the text between them is balanced
(`matched_iff`). What follows an opening bracket either closes it, in one way only, or never does
(`unclosed_or_closed`), so a text can be taken apart at its brackets from left to right
(`bracket_induction`).
-/

namespace MutationPreview

/-! ## Matching by places -/

/-- The places of the opening brackets that are still unmatched behind a text, nearest first. The
text starts at `place`, and those in `opened` are unmatched before it. -/
def openersFrom : (opened : List Nat) → (place : Nat) → Text → List Nat
  | opened, _, [] => opened
  | opened, place, c :: rest =>
    if c = '(' then openersFrom (place :: opened) (place + 1) rest
    else if c = ')' then openersFrom opened.tail (place + 1) rest
    else openersFrom opened (place + 1) rest

/-- The places of the opening brackets of a text that are still unmatched, nearest first. -/
def openers (t : Text) : List Nat := openersFrom [] 0 t

/-- The brackets at two places are matched: the second is a closing bracket, and the first is the
nearest opening bracket before it that is still unmatched there. -/
def Matched (t : Text) (first second : Nat) : Prop :=
  t[second]? = some ')' ∧ (openers (t.take second)).head? = some first

instance (t : Text) (first second : Nat) : Decidable (Matched t first second) :=
  inferInstanceAs (Decidable (_ ∧ _))

/-! ## Balanced texts -/

/-- A text in which every bracket has its partner. -/
inductive Balanced : Text → Prop where
  | nil : Balanced []
  | char {c : Char} {t : Text} (hopen : c ≠ '(') (hclose : c ≠ ')') (ht : Balanced t) :
      Balanced (c :: t)
  | pair {a b : Text} (ha : Balanced a) (hb : Balanced b) : Balanced ('(' :: (a ++ ')' :: b))

/-- A text that closes no bracket but its own. -/
inductive Unclosed : Text → Prop where
  | nil : Unclosed []
  | char {c : Char} {t : Text} (hopen : c ≠ '(') (hclose : c ≠ ')') (ht : Unclosed t) :
      Unclosed (c :: t)
  | pair {a b : Text} (ha : Balanced a) (hb : Unclosed b) : Unclosed ('(' :: (a ++ ')' :: b))
  | opened {t : Text} (ht : Unclosed t) : Unclosed ('(' :: t)

namespace Balanced

theorem append {a b : Text} (ha : Balanced a) (hb : Balanced b) : Balanced (a ++ b) := by
  induction ha with
  | nil => exact hb
  | char hopen hclose _ ih => exact .char hopen hclose ih
  | @pair a c ha _ _ ih =>
    rw [List.cons_append, List.append_assoc]
    exact .pair ha ih

/-- A balanced text and the bracket that closes it are told from what follows. -/
theorem unique {a b x y : Text} (ha : Balanced a) (hb : Balanced b)
    (h : a ++ ')' :: x = b ++ ')' :: y) : a = b ∧ x = y := by
  induction ha generalizing b x y with
  | nil =>
    cases hb with
    | nil => exact ⟨rfl, (List.cons.inj h).2⟩
    | char _ hclose _ => exact absurd (List.cons.inj h).1.symm hclose
    | pair _ _ => exact absurd (List.cons.inj h).1 (by decide)
  | char hopen hclose _ ih =>
    cases hb with
    | nil => exact absurd (List.cons.inj h).1 hclose
    | char _ _ hb =>
      obtain ⟨rfl, hrest⟩ := List.cons.inj h
      obtain ⟨rfl, rfl⟩ := ih hb hrest
      exact ⟨rfl, rfl⟩
    | pair _ _ => exact absurd (List.cons.inj h).1 hopen
  | @pair a c _ _ iha ihc =>
    cases hb with
    | nil => exact absurd (List.cons.inj h).1 (by decide)
    | char hopen _ _ => exact absurd (List.cons.inj h).1.symm hopen
    | @pair a' c' ha' hc' =>
      have hinner : a ++ ')' :: (c ++ ')' :: x) = a' ++ ')' :: (c' ++ ')' :: y) := by
        simpa using h
      obtain ⟨rfl, houter⟩ := iha ha' hinner
      obtain ⟨rfl, rfl⟩ := ihc hc' houter
      exact ⟨rfl, rfl⟩

end Balanced

/-- A text that closes only its own brackets does not go on, behind a balanced text, with a closing
bracket. -/
theorem Unclosed.ne_closed {t : Text} (h : Unclosed t) {a x : Text} (ha : Balanced a) :
    t ≠ a ++ ')' :: x := by
  induction h generalizing a x with
  | nil => simp
  | char hopen hclose _ ih =>
    intro heq
    cases ha with
    | nil => exact hclose (List.cons.inj heq).1
    | char _ _ ha => exact ih ha (List.cons.inj heq).2
    | pair _ _ => exact hopen (List.cons.inj heq).1
  | @pair b c hb _ ih =>
    intro heq
    cases ha with
    | nil => exact absurd (List.cons.inj heq).1 (by decide)
    | char hopen _ _ => exact hopen (List.cons.inj heq).1.symm
    | @pair a' c' ha' hc' =>
      have hinner : b ++ ')' :: c = a' ++ ')' :: (c' ++ ')' :: x) := by simpa using heq
      exact ih hc' (hb.unique ha' hinner).2
  | opened _ ih =>
    intro heq
    cases ha with
    | nil => exact absurd (List.cons.inj heq).1 (by decide)
    | char hopen _ _ => exact hopen (List.cons.inj heq).1.symm
    | @pair a' c' ha' hc' => exact ih ha' (by simpa using (List.cons.inj heq).2)

theorem Unclosed.append {a b : Text} (ha : Unclosed a) (hb : Unclosed b) : Unclosed (a ++ b) := by
  induction ha with
  | nil => exact hb
  | char hopen hclose _ ih => exact .char hopen hclose ih
  | pair ha _ ih =>
    rw [List.cons_append, List.append_assoc]
    exact .pair ha ih
  | opened _ ih => exact .opened ih

/-- What follows an opening bracket never closes it, or closes it behind a balanced text. -/
theorem unclosed_or_closed (t : Text) :
    Unclosed t ∨ ∃ a x, t = a ++ ')' :: x ∧ Balanced a := by
  induction hn : t.length using Nat.strong_induction_on generalizing t with
  | _ n ih =>
    subst hn
    cases t with
    | nil => exact Or.inl .nil
    | cons c t =>
      by_cases hclose : c = ')'
      · exact Or.inr ⟨[], t, by rw [hclose]; rfl, .nil⟩
      by_cases hopen : c = '('
      · subst hopen
        rcases ih _ (by simp) t rfl with ht | ⟨a, x, rfl, ha⟩
        · exact Or.inl (.opened ht)
        rcases ih _ (by simp; omega) x rfl with hx | ⟨b, y, rfl, hb⟩
        · exact Or.inl (.pair ha hx)
        · exact Or.inr ⟨'(' :: (a ++ ')' :: b), y, by simp, .pair ha hb⟩
      · rcases ih _ (by simp) t rfl with ht | ⟨a, x, rfl, ha⟩
        · exact Or.inl (.char hopen hclose ht)
        · exact Or.inr ⟨c :: a, x, rfl, .char hopen hclose ha⟩

/-- Texts are made of characters that open nothing, of balanced texts in brackets, and of brackets
that never close. -/
theorem bracket_induction {P : Text → Prop} (nil : P [])
    (char : ∀ c t, c ≠ '(' → P t → P (c :: t))
    (pair : ∀ a t, Balanced a → P a → P t → P ('(' :: (a ++ ')' :: t)))
    (opened : ∀ t, Unclosed t → P t → P ('(' :: t)) (t : Text) : P t := by
  induction hn : t.length using Nat.strong_induction_on generalizing t with
  | _ n ih =>
    subst hn
    cases t with
    | nil => exact nil
    | cons c t =>
      by_cases hopen : c = '('
      · subst hopen
        rcases unclosed_or_closed t with ht | ⟨a, x, rfl, ha⟩
        · exact opened t ht (ih _ (by simp) t rfl)
        · have hlength : ('(' :: (a ++ ')' :: x)).length = a.length + x.length + 2 := by
            simp only [List.length_cons, List.length_append]
            omega
          exact pair a x ha (ih _ (by omega) a rfl) (ih _ (by omega) x rfl)
      · exact char c t hopen (ih _ (by simp) t rfl)

/-! ## Matched brackets have balanced text between them -/

theorem openersFrom_append (u v : Text) (opened : List Nat) (place : Nat) :
    openersFrom opened place (u ++ v) =
      openersFrom (openersFrom opened place u) (place + u.length) v := by
  induction u generalizing opened place with
  | nil => rfl
  | cons c u ih =>
    have hplace : place + 1 + u.length = place + (c :: u).length := by simp; omega
    simp only [List.cons_append, openersFrom, ih, hplace]
    split
    · rfl
    · split <;> rfl

/-- A balanced text leaves the unmatched brackets as they are. -/
theorem Balanced.openersFrom_eq {a : Text} (ha : Balanced a) (opened : List Nat) (place : Nat) :
    openersFrom opened place a = opened := by
  induction ha generalizing opened place with
  | nil => rfl
  | char hopen hclose _ ih => rw [openersFrom, if_neg hopen, if_neg hclose, ih]
  | pair _ _ iha ihb =>
    have hclose : ¬ (')' : Char) = '(' := by decide
    rw [openersFrom, if_pos rfl, openersFrom_append, iha, openersFrom, if_neg hclose, if_pos rfl,
      List.tail_cons, ihb]

theorem openers_concat (t : Text) (c : Char) :
    openers (t ++ [c]) = if c = '(' then t.length :: openers t
      else if c = ')' then (openers t).tail else openers t := by
  rw [openers, openersFrom_append, Nat.zero_add]
  rfl

/-- Behind an opening bracket and a balanced text, the bracket is the nearest unmatched one. -/
theorem Balanced.openers_eq {a : Text} (ha : Balanced a) (x : Text) :
    openers (x ++ '(' :: a) = x.length :: openers x := by
  rw [openers, openersFrom_append, openersFrom, if_pos rfl, ha.openersFrom_eq, Nat.zero_add]
  rfl

/-- The text from the nearest unmatched bracket on is balanced, and the other unmatched brackets
are those before it. -/
theorem exists_of_openers_eq {t : Text} {first : Nat} {more : List Nat}
    (h : openers t = first :: more) :
    ∃ x a, t = x ++ '(' :: a ∧ Balanced a ∧ x.length = first ∧ openers x = more := by
  induction hn : t.length using Nat.strong_induction_on generalizing t first more with
  | _ n ih =>
    subst hn
    rcases List.eq_nil_or_concat' t with rfl | ⟨t, c, rfl⟩
    · cases h
    · rw [openers_concat] at h
      split at h
      · rename_i hc
        obtain ⟨rfl, rfl⟩ := List.cons.inj h
        exact ⟨t, [], by rw [hc], .nil, rfl, rfl⟩
      · rename_i hopen
        split at h
        · -- a closing bracket takes the nearest one away, and the next one is uncovered
          rename_i hc
          obtain ⟨nearest, hnearest⟩ : ∃ nearest, openers t = nearest :: first :: more := by
            cases hstack : openers t with
            | nil => simp [hstack] at h
            | cons nearest others =>
              rw [hstack, List.tail_cons] at h
              exact ⟨nearest, by rw [h]⟩
          obtain ⟨x, a, rfl, ha, -, hx⟩ := ih _ (by simp) hnearest rfl
          obtain ⟨y, b, rfl, hb, hy, hmore⟩ := ih _ (by simp) hx rfl
          refine ⟨y, b ++ '(' :: (a ++ ')' :: []), by simp [hc], ?_, hy, hmore⟩
          exact hb.append (.pair ha .nil)
        · rename_i hclose
          obtain ⟨x, a, rfl, ha, hx, hmore⟩ := ih _ (by simp) h rfl
          exact ⟨x, a ++ [c], by simp, ha.append (.char hopen hclose .nil), hx, hmore⟩

/-- A text that closes only its own brackets leaves those before it unmatched. -/
theorem Unclosed.suffix_openersFrom {t : Text} (ht : Unclosed t) (opened : List Nat) (place : Nat) :
    opened <:+ openersFrom opened place t := by
  induction ht generalizing opened place with
  | nil => exact List.suffix_refl _
  | char hopen hclose _ ih =>
    rw [openersFrom, if_neg hopen, if_neg hclose]
    exact ih opened _
  | @pair a b ha _ ih =>
    have hclose : ¬ (')' : Char) = '(' := by decide
    rw [openersFrom, if_pos rfl, openersFrom_append, ha.openersFrom_eq, openersFrom, if_neg hclose,
      if_pos rfl]
    exact ih opened _
  | opened _ ih =>
    rw [openersFrom, if_pos rfl]
    exact (List.suffix_cons _ _).trans (ih _ _)

/-- An opening bracket of a balanced text is closed in it. -/
theorem Balanced.exists_closed {x w : Text} (h : Balanced (x ++ '(' :: w)) :
    ∃ a y, w = a ++ ')' :: y ∧ Balanced a := by
  refine (unclosed_or_closed w).resolve_left fun hw => ?_
  have hnone := h.openersFrom_eq [] 0
  rw [openersFrom_append, openersFrom, if_pos rfl] at hnone
  have hsuffix := hw.suffix_openersFrom ((0 + x.length) :: openersFrom [] 0 x) (0 + x.length + 1)
  rw [hnone] at hsuffix
  simp at hsuffix

/-- Brackets are matched exactly when the text between them is balanced. -/
theorem matched_iff {t : Text} {first second : Nat} :
    Matched t first second ↔ ∃ x a y, t = x ++ '(' :: (a ++ ')' :: y) ∧ Balanced a ∧
      x.length = first ∧ (x ++ '(' :: a).length = second := by
  constructor
  · rintro ⟨hclose, hnearest⟩
    obtain ⟨more, hmore⟩ := List.head?_eq_some_iff.mp hnearest
    obtain ⟨x, a, hfront, ha, hx, -⟩ := exists_of_openers_eq hmore
    obtain ⟨hlt, hget⟩ := List.getElem?_eq_some_iff.mp hclose
    have hsplit : t = t.take second ++ ')' :: t.drop (second + 1) := by
      rw [← hget, List.getElem_cons_drop, List.take_append_drop]
    refine ⟨x, a, t.drop (second + 1), ?_, ha, hx, ?_⟩
    · rw [hfront] at hsplit
      simpa using hsplit
    · rw [← hfront, List.length_take]
      omega
  · rintro ⟨x, a, y, rfl, ha, rfl, rfl⟩
    have hsplit : x ++ '(' :: (a ++ ')' :: y) = (x ++ '(' :: a) ++ ')' :: y := by simp
    refine ⟨?_, ?_⟩
    · rw [hsplit, List.getElem?_append_right (le_refl _), Nat.sub_self]
      rfl
    · rw [hsplit, List.take_left, ha.openers_eq]
      rfl

end MutationPreview
