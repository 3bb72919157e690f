import Mathlib.Data.List.TakeWhile
import MutationPreview.Text.Basic

/-!
# Searching, substituting and counting in texts

What the operations on texts do, in terms of how a text is put together: a needle occurs where it
is a stretch of the text, a substitution step takes off the characters that it covers, and numerals
are told apart by their numbers.
-/

namespace MutationPreview

namespace Text

/-- Whether all characters of a text have a property is decided by going through the text. The
priority keeps it from being decided by going through all characters there are. -/
instance (priority := 1100) decidableForallMem (t : Text) (p : Char → Prop) [DecidablePred p] :
    Decidable (∀ c ∈ t, p c) := List.decidableBAll p t

/-- Likewise for whether some character of a text has a property. -/
instance (priority := 1100) decidableExistsMem (t : Text) (p : Char → Prop) [DecidablePred p] :
    Decidable (∃ c ∈ t, p c) := List.decidableBEx p t

/-! ## Cutting -/

/-- A cut of a joined text lies behind the joint or before it. -/
theorem append_cases {a b x y : Text} (h : a ++ b = x ++ y) :
    (∃ v, x = a ++ v ∧ b = v ++ y) ∨ ∃ c v, a = x ++ c :: v ∧ y = c :: v ++ b := by
  rcases List.append_eq_append_iff.mp h with ⟨v, rfl, rfl⟩ | ⟨v, rfl, rfl⟩
  · exact Or.inl ⟨v, rfl, rfl⟩
  · cases v with
    | nil => exact Or.inl ⟨[], by simp, rfl⟩
    | cons c v => exact Or.inr ⟨c, v, rfl, rfl⟩

/-- A start of a joined text ends in the first piece or goes on into the second one. -/
theorem prefix_append_cases {u a b : Text} (h : u <+: a ++ b) :
    u <+: a ∨ ∃ v, v ≠ [] ∧ v <+: b ∧ u = a ++ v := by
  rcases List.prefix_or_prefix_of_prefix h (List.prefix_append a b) with hwithin | ⟨v, rfl⟩
  · exact Or.inl hwithin
  · by_cases hv : v = []
    · exact Or.inl (by simp [hv])
    · exact Or.inr ⟨v, hv, (List.prefix_append_right_inj a).mp h, rfl⟩

theorem bytes_append (a b : Text) : Text.bytes (a ++ b) = Text.bytes a + Text.bytes b := by
  induction a with
  | nil => simp [Text.bytes]
  | cons c a ih => rw [List.cons_append, Text.bytes, Text.bytes, ih, Nat.add_assoc]

/-- A joined text has no character that neither its pieces nor the separator have. -/
theorem notMem_intercalate {x : Char} {separator : Text} {texts : List Text}
    (hseparator : x ∉ separator) (h : ∀ t ∈ texts, x ∉ t) : x ∉ List.intercalate separator texts := by
  induction texts with
  | nil => simp
  | cons t texts ih =>
    rw [List.forall_mem_cons] at h
    cases texts with
    | nil => simpa using h.1
    | cons next texts =>
      rw [List.intercalate_cons_cons, List.append_assoc, List.mem_append, List.mem_append, not_or, not_or]
      exact ⟨h.1, hseparator, ih h.2⟩

/-! ## Searching -/

theorem occursIn_iff {needle t : Text} : Text.occursIn needle t = true ↔ needle <:+: t := by
  induction t with
  | nil => simp [Text.occursIn]
  | cons c rest ih =>
    rw [Text.occursIn, Bool.or_eq_true, ih, List.isPrefixOf_iff_prefix, List.infix_cons_iff]

theorem after?_eq_some_iff {lead t rest : Text} :
    Text.after? lead t = some rest ↔ t = lead ++ rest := by
  induction lead generalizing t with
  | nil => simp [Text.after?]
  | cons a lead ih =>
    cases t with
    | nil => simp [Text.after?]
    | cons c t =>
      rw [Text.after?]
      by_cases hac : a = c
      · rw [if_pos hac, ih, hac]
        simp
      · rw [if_neg hac]
        simp [Ne.symm hac]

/-! ## Substituting -/

section Substitute

variable {rule : Text → Option (Nat × Text)}

@[simp] theorem substitute_nil : Text.substitute rule [] = [] := rfl

theorem substituteFrom_append (u rest : Text) :
    Text.substituteFrom rule u.length (u ++ rest) = Text.substitute rule rest := by
  induction u with
  | nil => rfl
  | cons c u ih => exact ih

/-- A step that covers `c :: u` writes its output and goes on behind what it covers. -/
theorem substitute_of_some {c : Char} {u rest out : Text}
    (h : rule (c :: (u ++ rest)) = some (u.length, out)) :
    Text.substitute rule (c :: (u ++ rest)) = out ++ Text.substitute rule rest := by
  rw [Text.substitute, Text.substituteFrom, h]
  exact congrArg (out ++ ·) (substituteFrom_append u rest)

theorem substitute_of_none {c : Char} {rest : Text} (h : rule (c :: rest) = none) :
    Text.substitute rule (c :: rest) = c :: Text.substitute rule rest := by
  rw [Text.substitute, Text.substituteFrom, h]
  rfl

/-- A stretch at none of whose characters a step is due is copied. -/
theorem substitute_copy {u rest : Text}
    (h : ∀ x z, u = x ++ z → z ≠ [] → rule (z ++ rest) = none) :
    Text.substitute rule (u ++ rest) = u ++ Text.substitute rule rest := by
  induction u with
  | nil => rfl
  | cons c u ih =>
    have hhere : rule (c :: (u ++ rest)) = none := h [] (c :: u) rfl (List.cons_ne_nil c u)
    have hbehind : ∀ x z, u = x ++ z → z ≠ [] → rule (z ++ rest) = none := by
      intro x z hsplit hz
      exact h (c :: x) z (by rw [hsplit, List.cons_append]) hz
    rw [List.cons_append, substitute_of_none hhere, ih hbehind, List.cons_append]

end Substitute

/-- A replacement copies a character at which the old text does not start. -/
theorem replace_cons {old new : Text} {c : Char} {rest : Text} (h : ¬ old <+: c :: rest) :
    Text.replace old new (c :: rest) = c :: Text.replace old new rest := by
  apply substitute_of_none
  simp [List.isPrefixOf_iff_prefix, h]

/-- A replacement copies a stretch in which no occurrence of the old text starts. -/
theorem replace_copy {old new u rest : Text}
    (h : ∀ x z, u = x ++ z → z ≠ [] → ¬ old <+: z ++ rest) :
    Text.replace old new (u ++ rest) = u ++ Text.replace old new rest := by
  apply substitute_copy
  intro x z hsplit hz
  simp [List.isPrefixOf_iff_prefix, h x z hsplit hz]

/-- A replacement takes off the old text where it stands. -/
theorem replace_append {old : Text} (hold : old ≠ []) (new rest : Text) :
    Text.replace old new (old ++ rest) = new ++ Text.replace old new rest := by
  obtain ⟨c, u, rfl⟩ := List.exists_cons_of_ne_nil hold
  apply substitute_of_some
  simp

/-! ## Trimming -/

section Trim

variable {p : Char → Bool}

theorem trimEnd_append_singleton {t : Text} {c : Char} (hc : p c = false) :
    Text.trimEnd p (t ++ [c]) = t ++ [c] := by
  simp [Text.trimEnd, hc]

/-- A text that ends with a character outside the class is trimmed at its start only. -/
theorem trim_append_singleton {t : Text} {c : Char} (hc : p c = false) :
    Text.trim p (t ++ [c]) = t.dropWhile p ++ [c] := by
  have hdrop : (t ++ [c]).dropWhile p = t.dropWhile p ++ [c] := by
    rw [List.dropWhile_append]
    split
    · rename_i hnil
      have hnil : t.dropWhile p = [] := by simpa using hnil
      simp [hnil, hc]
    · rfl
  rw [Text.trim, hdrop, trimEnd_append_singleton hc]

theorem dropWhile_eq_self {t : Text} (h : ∀ c ∈ t, p c = false) : t.dropWhile p = t := by
  cases t with
  | nil => rfl
  | cons c t => simp [h c]

/-- A text without characters of the class is not trimmed. -/
theorem trim_eq_self {t : Text} (h : ∀ c ∈ t, p c = false) : Text.trim p t = t := by
  rw [Text.trim, dropWhile_eq_self h, Text.trimEnd,
    dropWhile_eq_self fun c hc => h c (List.mem_reverse.mp hc), List.reverse_reverse]

/-- Characters of the class around a text are trimmed off. -/
theorem trim_around {front t back : Text} (hfront : ∀ c ∈ front, p c = true)
    (hback : ∀ c ∈ back, p c = true) : Text.trim p (front ++ (t ++ back)) = Text.trim p t := by
  have hend : ∀ u : Text, Text.trimEnd p (u ++ back) = Text.trimEnd p u := by
    intro u
    rw [Text.trimEnd, List.reverse_append,
      List.dropWhile_append_of_pos fun c hc => hback c (List.mem_reverse.mp hc), Text.trimEnd]
  rw [Text.trim, List.dropWhile_append_of_pos hfront, List.dropWhile_append, Text.trim]
  split
  · rename_i hnil
    have hnil : t.dropWhile p = [] := by simpa using hnil
    rw [hnil, List.dropWhile_eq_nil_iff.mpr hback]
  · exact hend _

/-- What trimming takes off belongs to the class. -/
theorem exists_eq_trim (p : Char → Bool) (t : Text) :
    ∃ front back, t = front ++ Text.trim p t ++ back ∧ (∀ c ∈ front, p c = true) ∧
      ∀ c ∈ back, p c = true := by
  refine ⟨t.takeWhile p, ((t.dropWhile p).reverse.takeWhile p).reverse, ?_, ?_, ?_⟩
  · have hback := List.takeWhile_append_dropWhile (p := p) (l := (t.dropWhile p).reverse)
    have hfront := List.takeWhile_append_dropWhile (p := p) (l := t)
    have hrev := congrArg List.reverse hback
    rw [List.reverse_append, List.reverse_reverse] at hrev
    rw [Text.trim, Text.trimEnd, List.append_assoc, hrev, hfront]
  · intro c hc
    exact List.mem_takeWhile_imp hc
  · intro c hc
    exact List.mem_takeWhile_imp (List.mem_reverse.mp hc)

end Trim

/-! ## Numerals -/

theorem ofNat_ne_nil (n : Nat) : Text.ofNat n ≠ [] := Nat.toDigits_ne_nil

theorem isDigit_of_mem_ofNat {n : Nat} {c : Char} (h : c ∈ Text.ofNat n) : c.isDigit = true :=
  Nat.isDigit_of_mem_toDigits (by decide) (by decide) h

theorem ofNat_injective {m n : Nat} (h : Text.ofNat m = Text.ofNat n) : m = n := by
  have hvalue := congrArg (fun ds => Nat.ofDigitChars 10 ds 0) h
  simpa [Text.ofNat] using hvalue

theorem le_ofDigitChars (ds : Text) (init : Nat) : init ≤ Nat.ofDigitChars 10 ds init := by
  induction ds generalizing init with
  | nil => simp
  | cons d ds ih =>
    rw [Nat.ofDigitChars_cons]
    have hstep := ih (10 * init + (d.toNat - '0'.toNat))
    omega

/-- A numeral that goes on after another one stands for a number at least ten times as great. -/
theorem le_of_ofNat_eq_append {i j : Nat} {d : Char} {ds : Text}
    (h : Text.ofNat j = Text.ofNat i ++ d :: ds) : 10 * i + (d.toNat - '0'.toNat) ≤ j := by
  have hvalue := congrArg (fun ds => Nat.ofDigitChars 10 ds 0) h
  simp only [Text.ofNat, Nat.ofDigitChars_ten_toDigits, Nat.ofDigitChars_append,
    Nat.ofDigitChars_cons] at hvalue
  rw [hvalue]
  exact le_ofDigitChars ds _

theorem digitChar_toNat_sub {d : Char} (hd : d.isDigit = true) :
    Nat.digitChar (d.toNat - '0'.toNat) = d ∧ d.toNat - '0'.toNat < 10 := by
  have hbounds : 48 ≤ d.toNat ∧ d.toNat ≤ 57 := by
    simp only [Char.isDigit, Bool.and_eq_true, decide_eq_true_eq] at hd
    exact ⟨hd.1, hd.2⟩
  obtain ⟨n, hn, hlt⟩ : ∃ n, d.toNat = 48 + n ∧ n < 10 :=
    ⟨d.toNat - 48, by omega, by omega⟩
  have hd' : d = Char.ofNat (48 + n) := by rw [← hn, Char.ofNat_toNat]
  subst hd'
  clear hn hbounds hd
  revert n
  decide

/-- A digit after the numeral of a positive number makes the numeral of another number. -/
theorem ofNat_append_digit {i : Nat} {d : Char} (hi : 0 < i) (hd : d.isDigit = true) :
    Text.ofNat i ++ [d] = Text.ofNat (10 * i + (d.toNat - '0'.toNat)) := by
  obtain ⟨hchar, hlt⟩ := digitChar_toNat_sub hd
  have happend := Nat.toDigits_append_toDigits (b := 10) (by decide) hi hlt
  rw [Nat.toDigits_of_lt_base hlt, hchar] at happend
  exact happend

end Text

end MutationPreview
