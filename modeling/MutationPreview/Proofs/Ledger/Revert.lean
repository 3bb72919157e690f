import MutationPreview.Proofs.Ledger.Basic

/-!
# Reverting tokens

Reversion reads the longest held token at each place (`Ledger.tokenAt?_eq_some_iff`). A token that was
written is read as itself unless the text behind it makes a longer token of it (`Ledger.Overread`). If
that never happens, reversion gives back what was held (`Ledger.substitute_tokens`).

Which places of a text are tokens depends on the format and on how many values are held, not on the
values: `Ledger.exists_places` cuts a text once for all ledgers with the same tokens.
-/

namespace MutationPreview

namespace Ledger

/-! ## The longest token -/

/-- Whether a held token has the first `k` of the characters after a lead as its number. -/
def HeldAt (l : Ledger) (rest : Text) (k : Nat) : Prop :=
  l.format.trail <+: rest.drop k ∧
    ∃ value, l.get? (l.format.lead ++ rest.take k ++ l.format.trail) = some value

theorem longest?_eq_none {l : Ledger} {rest : Text} {n : Nat} (h : l.longest? rest n = none)
    {k : Nat} (hpos : 0 < k) (hk : k ≤ n) : ¬ l.HeldAt rest k := by
  induction n with
  | zero => omega
  | succ n ih =>
    rw [longest?] at h
    rintro ⟨htrail, value, hvalue⟩
    by_cases hkn : k = n + 1
    · subst hkn
      rw [if_pos (List.isPrefixOf_iff_prefix.mpr htrail), hvalue] at h
      simp at h
    · split at h
      · simp at h
      · exact ih h (by omega) ⟨htrail, value, hvalue⟩

theorem longest?_eq_some {l : Ledger} {rest token value : Text} {n : Nat}
    (h : l.longest? rest n = some (token, value)) :
    ∃ k, 0 < k ∧ k ≤ n ∧ token = l.format.lead ++ rest.take k ++ l.format.trail ∧
      l.format.trail <+: rest.drop k ∧ l.get? token = some value ∧
      ∀ k', k < k' → k' ≤ n → ¬ l.HeldAt rest k' := by
  induction n with
  | zero => simp [longest?] at h
  | succ n ih =>
    rw [longest?] at h
    split at h
    · rename_i value' hfound
      simp only [Option.some.injEq, Prod.mk.injEq] at h
      obtain ⟨rfl, rfl⟩ := h
      split at hfound
      · rename_i htrail
        exact ⟨n + 1, by omega, by omega, rfl, List.isPrefixOf_iff_prefix.mp htrail, hfound,
          by omega⟩
      · simp at hfound
    · rename_i hfound
      obtain ⟨k, hpos, hk, htoken, htrail, hvalue, hmax⟩ := ih h
      refine ⟨k, hpos, by omega, htoken, htrail, hvalue, ?_⟩
      intro k' hlt hle
      by_cases hkn : k' = n + 1
      · subst hkn
        rintro ⟨htrail', value', hvalue'⟩
        rw [if_pos (List.isPrefixOf_iff_prefix.mpr htrail'), hvalue'] at hfound
        simp at hfound
      · exact hmax k' hlt (by omega)

theorem tokenAt?_append_lead (l : Ledger) (rest : Text) :
    l.tokenAt? (l.format.lead ++ rest) =
      l.longest? rest (rest.takeWhile Char.isDigit).length := by
  rw [tokenAt?, Text.after?_eq_some_iff.mpr rfl]

theorem tokenAt?_eq_none {l : Ledger} {t : Text} (h : ¬ l.format.lead <+: t) :
    l.tokenAt? t = none := by
  rw [tokenAt?]
  cases hafter : Text.after? l.format.lead t with
  | none => rfl
  | some rest =>
    rw [Text.after?_eq_some_iff.mp hafter] at h
    exact absurd (List.prefix_append _ _) h

/-! ## The token at a place -/

/-- A held token has its number among the digits behind the lead. -/
theorem heldAt_of_prefix {l : Ledger} {rest : Text} {i : Nat} (hi : i < l.values.length)
    (h : l.format.token (i + 1) <+: l.format.lead ++ rest) :
    l.HeldAt rest (Text.ofNat (i + 1)).length ∧
      (Text.ofNat (i + 1)).length ≤ (rest.takeWhile Char.isDigit).length := by
  obtain ⟨more, hmore⟩ := h
  simp only [TokenFormat.token, List.append_assoc, List.append_cancel_left_eq] at hmore
  subst hmore
  constructor
  · refine ⟨by simp, l.values[i], ?_⟩
    have hget := l.get?_token i
    rw [List.getElem?_eq_getElem hi] at hget
    simpa [TokenFormat.token] using hget
  · rw [List.takeWhile_append_of_pos fun c hc => Text.isDigit_of_mem_ofNat hc]
    simp

theorem tokenAt?_eq_none_iff {l : Ledger} {t : Text} :
    l.tokenAt? t = none ↔ ∀ i, i < l.values.length → ¬ l.format.token (i + 1) <+: t := by
  by_cases hlead : l.format.lead <+: t
  · obtain ⟨rest, rfl⟩ := hlead
    rw [tokenAt?_append_lead]
    constructor
    · intro hnone i hi hpre
      obtain ⟨hheld, hle⟩ := heldAt_of_prefix hi hpre
      exact longest?_eq_none hnone (List.length_pos_iff.mpr (Text.ofNat_ne_nil _)) hle hheld
    · intro h
      cases hsome : l.longest? rest (rest.takeWhile Char.isDigit).length with
      | none => rfl
      | some found =>
        obtain ⟨token, value⟩ := found
        obtain ⟨k, -, -, htoken, ⟨more, hmore⟩, hget, -⟩ := longest?_eq_some hsome
        obtain ⟨i, hi, rfl⟩ := get?_eq_some_iff.mp hget
        refine absurd ⟨more, ?_⟩ (h i (List.getElem?_eq_some_iff.mp hi).1)
        rw [htoken, List.append_assoc, List.append_assoc, hmore, List.take_append_drop]
  · simp only [tokenAt?_eq_none hlead, true_iff]
    intro i _ hpre
    refine hlead (List.IsPrefix.trans ?_ hpre)
    exact ⟨Text.ofNat (i + 1) ++ l.format.trail, by simp [TokenFormat.token]⟩

/-- The token at a place is the longest held token that the text starts with. -/
theorem tokenAt?_eq_some_iff {l : Ledger} {t token value : Text} :
    l.tokenAt? t = some (token, value) ↔
      l.get? token = some value ∧ token <+: t ∧
        ∀ i, i < l.values.length → l.format.token (i + 1) <+: t →
          (l.format.token (i + 1)).length ≤ token.length := by
  have hfound : ∀ {token value}, l.tokenAt? t = some (token, value) →
      l.get? token = some value ∧ token <+: t ∧
        ∀ i, i < l.values.length → l.format.token (i + 1) <+: t →
          (l.format.token (i + 1)).length ≤ token.length := by
    intro token value h
    have hlead : l.format.lead <+: t := by
      by_contra hlead
      simp [tokenAt?_eq_none hlead] at h
    obtain ⟨rest, rfl⟩ := hlead
    rw [tokenAt?_append_lead] at h
    obtain ⟨k, -, hk, htoken, ⟨more, hmore⟩, hget, hlongest⟩ := longest?_eq_some h
    refine ⟨hget, ⟨more, ?_⟩, ?_⟩
    · rw [htoken, List.append_assoc, List.append_assoc, hmore, List.take_append_drop]
    · intro i hi hpre
      obtain ⟨hheld, hle⟩ := heldAt_of_prefix hi hpre
      have hnot : ¬ k < (Text.ofNat (i + 1)).length := fun hlt => hlongest _ hlt hle hheld
      have hlen : k ≤ rest.length := hk.trans (List.takeWhile_prefix _).length_le
      rw [htoken]
      simp only [TokenFormat.token, List.length_append, List.length_take]
      omega
  refine ⟨hfound, ?_⟩
  rintro ⟨hget, hpre, hlongest⟩
  obtain ⟨i, hi, htoken⟩ := get?_eq_some_iff.mp hget
  have hlt : i < l.values.length := (List.getElem?_eq_some_iff.mp hi).1
  cases hat : l.tokenAt? t with
  | none => exact absurd (htoken ▸ hpre) (tokenAt?_eq_none_iff.mp hat i hlt)
  | some found =>
    -- two longest tokens at one place are the same
    obtain ⟨token', value'⟩ := found
    obtain ⟨hget', hpre', hlongest'⟩ := hfound hat
    obtain ⟨j, hj, htoken'⟩ := get?_eq_some_iff.mp hget'
    have hle := hlongest j (List.getElem?_eq_some_iff.mp hj).1 (htoken' ▸ hpre')
    have hle' := hlongest' i hlt (htoken ▸ hpre)
    rw [← htoken] at hle'
    rw [← htoken'] at hle
    have hsame : token' = token :=
      (List.prefix_of_prefix_length_le hpre' hpre hle).eq_of_length (by omega)
    subst hsame
    rw [hget] at hget'
    rw [Option.some.inj hget']

theorem revertRule_eq_none {l : Ledger} {t : Text} (h : ¬ l.format.lead <+: t) :
    l.revertRule t = none := by
  rw [revertRule, tokenAt?_eq_none h]
  simp [List.isPrefixOf_iff_prefix, h]

/-! ## Tokens that are read as longer ones -/

/-- Whether the text behind the token numbered `i + 1` makes the token of a later value of it. -/
def Overread (l : Ledger) (i : Nat) (rest : Text) : Prop :=
  ∃ ds j, ds ≠ [] ∧ (∀ d ∈ ds, d.isDigit = true) ∧
    ds ++ l.format.trail <+: l.format.trail ++ rest ∧
    j < l.values.length ∧ Text.ofNat (j + 1) = Text.ofNat (i + 1) ++ ds

/-- Tokens differ in length as their numbers do. -/
theorem length_number_le {f : TokenFormat} {m n : Nat} (h : (f.token m).length ≤ (f.token n).length) :
    (Text.ofNat m).length ≤ (Text.ofNat n).length := by
  simp only [TokenFormat.token, List.length_append] at h
  omega

/-- At a token that was written, reversion reads that token or one that goes on after it. -/
theorem tokenAt?_token {l : Ledger} {i : Nat} (hi : i < l.values.length) (rest : Text) :
    ∃ j value ds rest', l.tokenAt? (l.format.token (i + 1) ++ rest) =
        some (l.format.token (j + 1), value) ∧
      l.values[j]? = some value ∧ Text.ofNat (j + 1) = Text.ofNat (i + 1) ++ ds ∧
      l.format.token (i + 1) ++ rest = l.format.token (j + 1) ++ rest' ∧
      (ds ≠ [] ↔ l.Overread i rest) := by
  cases hat : l.tokenAt? (l.format.token (i + 1) ++ rest) with
  | none => exact absurd (List.prefix_append _ _) (tokenAt?_eq_none_iff.mp hat i hi)
  | some found =>
    obtain ⟨token, value⟩ := found
    obtain ⟨hget, ⟨rest', hrest'⟩, hlongest⟩ := tokenAt?_eq_some_iff.mp hat
    obtain ⟨j, hj, rfl⟩ := get?_eq_some_iff.mp hget
    have hjlt : j < l.values.length := (List.getElem?_eq_some_iff.mp hj).1
    have hlen := length_number_le (hlongest i hi (List.prefix_append _ _))
    -- behind the lead, both numbers start the same text
    have htext := hrest'
    simp only [TokenFormat.token, List.append_assoc, List.append_cancel_left_eq] at htext
    obtain ⟨ds, hds⟩ : Text.ofNat (i + 1) <+: Text.ofNat (j + 1) :=
      List.prefix_of_prefix_length_le ⟨_, htext.symm⟩ (List.prefix_append _ _) hlen
    refine ⟨j, value, ds, rest', rfl, hj, hds.symm, hrest'.symm, ?_⟩
    rw [← hds, List.append_assoc, List.append_cancel_left_eq] at htext
    constructor
    · intro hne
      refine ⟨ds, j, hne, fun d hd => ?_, ⟨rest', by rw [← htext, List.append_assoc]⟩, hjlt, hds.symm⟩
      exact Text.isDigit_of_mem_ofNat (hds ▸ List.mem_append_right _ hd)
    · rintro ⟨ds', j', hne, -, ⟨rest'', hpre⟩, hj', hnumber⟩ rfl
      -- a longer token would have been read instead
      have hlonger : l.format.token (j' + 1) <+: l.format.token (i + 1) ++ rest := by
        refine ⟨rest'', ?_⟩
        simp only [TokenFormat.token, hnumber, List.append_assoc, List.append_cancel_left_eq]
        rw [← hpre, List.append_assoc]
      have hle := length_number_le (hlongest j' hj' hlonger)
      rw [hnumber, ← hds, List.append_nil, List.length_append] at hle
      have hpos := List.length_pos_iff.mpr hne
      omega

/-- Reversion takes off the token that it reads. -/
theorem substitute_of_tokenAt? {l : Ledger} {token value rest : Text} (hne : token ≠ [])
    (h : l.tokenAt? (token ++ rest) = some (token, value)) :
    Text.substitute l.revertRule (token ++ rest) =
      value ++ Text.substitute l.revertRule rest := by
  obtain ⟨c, u, rfl⟩ := List.exists_cons_of_ne_nil hne
  apply Text.substitute_of_some
  have h' : l.tokenAt? (c :: (u ++ rest)) = some (c :: u, value) := h
  rw [revertRule, h']
  simp

/-- Reversion writes the value of a token that is not read as a longer one. -/
theorem substitute_token {l : Ledger} {i : Nat} {value rest : Text}
    (hvalue : l.values[i]? = some value) (hclear : ¬ l.Overread i rest) :
    Text.substitute l.revertRule (l.format.token (i + 1) ++ rest) =
      value ++ Text.substitute l.revertRule rest := by
  have hi : i < l.values.length := (List.getElem?_eq_some_iff.mp hvalue).1
  obtain ⟨j, value', ds, rest', hat, hj, hnumber, hsplit, hover⟩ := tokenAt?_token hi rest
  have hds : ds = [] := by
    by_contra hds
    exact hclear (hover.mp hds)
  rw [hds, List.append_nil] at hnumber
  have hji : j = i := by
    have hinj := Text.ofNat_injective hnumber
    omega
  subst hji
  rw [hvalue] at hj
  rw [← Option.some.inj hj] at hat
  exact substitute_of_tokenAt? (TokenFormat.token_ne_nil _ _) hat

/-- Reversion copies a text that does not hold the first character of the lead. -/
theorem substitute_append_of_notMem {l : Ledger} {o : Char} {lead : Text}
    (hlead : l.format.lead = o :: lead) {u : Text} (hu : o ∉ u) (rest : Text) :
    Text.substitute l.revertRule (u ++ rest) = u ++ Text.substitute l.revertRule rest := by
  induction u with
  | nil => rfl
  | cons c u ih =>
    have hpre : ¬ l.format.lead <+: c :: (u ++ rest) := by
      rw [hlead]
      intro hpre
      exact hu (by simp [(List.cons_prefix_cons.mp hpre).1])
    rw [List.cons_append, Text.substitute_of_none (revertRule_eq_none hpre),
      ih fun hmem => hu (List.mem_cons_of_mem _ hmem), List.cons_append]

theorem revert_nil (l : Ledger) : l.revert [] = [] := by
  rw [revert]
  split <;> rfl

/-- A text without the lead is left as it is. -/
theorem revert_of_absent {l : Ledger} {t : Text} (h : ¬ l.format.lead <:+: t) : l.revert t = t := by
  rw [revert]
  split
  · rfl
  · induction t with
    | nil => rfl
    | cons c t ih =>
      have hpre : ¬ l.format.lead <+: c :: t := fun hpre => h hpre.isInfix
      rw [Text.substitute_of_none (revertRule_eq_none hpre),
        ih fun hwithin => h (hwithin.trans (List.suffix_cons _ _).isInfix)]

/-- With a lead that is not empty, an empty ledger needs no special case. -/
theorem revert_eq_substitute {l : Ledger} (hlead : l.format.lead ≠ []) (t : Text) :
    l.revert t = Text.substitute l.revertRule t := by
  rw [revert]
  split
  · rename_i hempty
    have hvalues : l.values = [] := by simpa using hempty
    have htoken : ∀ t, l.tokenAt? t = none := fun t =>
      tokenAt?_eq_none_iff.mpr fun i hi => by simp [hvalues] at hi
    obtain ⟨c, lead, hcons⟩ := List.exists_cons_of_ne_nil hlead
    -- a lead that is copied leaves the text as it was
    have hcopy : ∀ n, ∀ t : Text, t.length ≤ n → Text.substitute l.revertRule t = t := by
      intro n
      induction n with
      | zero =>
        intro t ht
        have hnil : t = [] := List.length_eq_zero_iff.mp (by omega)
        rw [hnil, Text.substitute_nil]
      | succ n ih =>
        intro t ht
        cases t with
        | nil => rfl
        | cons d t =>
          by_cases hpre : l.format.lead <+: d :: t
          · obtain ⟨rest, hrest⟩ := hpre
            rw [hcons, List.cons_append, List.cons.injEq] at hrest
            obtain ⟨rfl, rfl⟩ := hrest
            have hrule : l.revertRule (c :: (lead ++ rest)) = some (lead.length, c :: lead) := by
              rw [revertRule, htoken]
              simp [hcons]
            rw [Text.substitute_of_some hrule, ih rest (by simp at ht; omega)]
            simp
          · rw [Text.substitute_of_none (revertRule_eq_none hpre), ih t (by simpa using ht)]
    exact (hcopy t.length t (Nat.le_refl _)).symm
  · rfl

/-! ## Where tokens stand -/

/-- Whether a ledger has the tokens of format `f` with the numbers 1 to `k`. -/
def HasTokens (f : TokenFormat) (k : Nat) (l : Ledger) : Prop := l.format = f ∧ l.values.length = k

/-- The value at a place of the list. -/
def valueAt (l : Ledger) (i : Nat) : Text := l.values.getD i []

theorem valueAt_mem {l : Ledger} {i : Nat} (hi : i < l.values.length) : l.valueAt i ∈ l.values := by
  have hget : l.valueAt i = l.values[i] := by simp [valueAt, hi]
  rw [hget]
  exact List.getElem_mem hi

/-- The longest token at a place is the same in all ledgers with the same tokens. -/
theorem tokenAt?_cases (f : TokenFormat) (k : Nat) (t : Text) :
    (∀ l : Ledger, l.HasTokens f k → l.tokenAt? t = none) ∨
      ∃ i, i < k ∧ f.token (i + 1) <+: t ∧ ∀ l : Ledger, l.HasTokens f k →
        l.tokenAt? t = some (f.token (i + 1), l.valueAt i) := by
  -- any one of them tells which token it is
  obtain ⟨l₀, rfl, rfl⟩ : ∃ l₀ : Ledger, l₀.HasTokens f k :=
    ⟨⟨f, List.replicate k []⟩, rfl, List.length_replicate⟩
  cases hat : l₀.tokenAt? t with
  | none =>
    left
    rintro l ⟨hformat, hlength⟩
    refine tokenAt?_eq_none_iff.mpr fun i hi => ?_
    rw [hformat]
    exact tokenAt?_eq_none_iff.mp hat i (hlength ▸ hi)
  | some found =>
    right
    obtain ⟨token, value⟩ := found
    obtain ⟨hget, hpre, hlongest⟩ := tokenAt?_eq_some_iff.mp hat
    obtain ⟨i, hi, rfl⟩ := get?_eq_some_iff.mp hget
    have hlt : i < l₀.values.length := (List.getElem?_eq_some_iff.mp hi).1
    refine ⟨i, hlt, hpre, ?_⟩
    rintro l ⟨hformat, hlength⟩
    have hget : l.get? (l.format.token (i + 1)) = some (l.valueAt i) :=
      get?_eq_some_iff.mpr ⟨i, by simp [valueAt, hlength, hlt], rfl⟩
    rw [← hformat] at hpre hlongest ⊢
    exact tokenAt?_eq_some_iff.mpr ⟨hget, hpre, fun j hj => hlongest j (hlength ▸ hj)⟩

/-- What reversion does at one place, the same in all ledgers with the same tokens: it copies one
character, copies the lead, or writes the value of a token that stands there. -/
theorem revertRule_cases (f : TokenFormat) (k : Nat) (t : Text) :
    (∀ l : Ledger, l.HasTokens f k → l.revertRule t = none) ∨
      (f.lead <+: t ∧ ∀ l : Ledger, l.HasTokens f k →
        l.revertRule t = some (f.lead.length - 1, f.lead)) ∨
      ∃ i, i < k ∧ f.token (i + 1) <+: t ∧ ∀ l : Ledger, l.HasTokens f k →
        l.revertRule t = some ((f.token (i + 1)).length - 1, l.valueAt i) := by
  rcases tokenAt?_cases f k t with hnone | ⟨i, hi, hpre, hsome⟩
  · by_cases hlead : f.lead <+: t
    · refine Or.inr (Or.inl ⟨hlead, fun l hl => ?_⟩)
      rw [revertRule, hnone l hl, hl.1]
      simp [List.isPrefixOf_iff_prefix.mpr hlead]
    · refine Or.inl fun l hl => revertRule_eq_none ?_
      rwa [hl.1]
  · refine Or.inr (Or.inr ⟨i, hi, hpre, fun l hl => ?_⟩)
    rw [revertRule, hsome l hl]

/-- What one step of a pass covers is a start of the text. -/
theorem cover_append_drop {u t : Text} {c : Char} (hu : u ≠ []) (h : u <+: c :: t) :
    u.length - 1 ≤ t.length ∧ u ++ t.drop (u.length - 1) = c :: t := by
  obtain ⟨rest, hrest⟩ := h
  obtain ⟨d, u, rfl⟩ := List.exists_cons_of_ne_nil hu
  simp only [List.cons_append, List.cons.injEq] at hrest
  obtain ⟨rfl, rfl⟩ := hrest
  simp

/-- One list of places serves all ledgers with the same tokens: the tokens stand there in the text,
and reverting the text puts the values of the ledger into them. -/
theorem exists_places {f : TokenFormat} (hlead : f.lead ≠ []) (k : Nat) (t : Text) :
    ∃ segs : List (Segment Nat), (∀ i ∈ Segment.spans segs, i < k) ∧
      Segment.join (fun i => f.token (i + 1)) segs = t ∧
      ∀ l : Ledger, l.HasTokens f k → l.revert t = Segment.join l.valueAt segs := by
  -- the pass is followed with the number of characters that the last step still covers
  have hpass : ∀ (t : Text) (skip : Nat), skip ≤ t.length → ∃ segs : List (Segment Nat),
      (∀ i ∈ Segment.spans segs, i < k) ∧
      Segment.join (fun i => f.token (i + 1)) segs = t.drop skip ∧
      ∀ l : Ledger, l.HasTokens f k →
        Text.substituteFrom l.revertRule skip t = Segment.join l.valueAt segs := by
    intro t
    induction t with
    | nil =>
      intro skip _
      exact ⟨[], by simp, by simp, fun l _ => by cases skip <;> rfl⟩
    | cons c t ih =>
      intro skip hskip
      cases skip with
      | succ skip => exact ih skip (by simpa using hskip)
      | zero =>
        rcases revertRule_cases f k (c :: t) with hnone | ⟨hpre, hsome⟩ | ⟨i, hi, hpre, hsome⟩
        · obtain ⟨segs, hlt, htext, heq⟩ := ih 0 (Nat.zero_le _)
          refine ⟨.plain c :: segs, hlt, by simpa using htext, ?_⟩
          intro l hl
          rw [Text.substituteFrom, hnone l hl, Segment.join_plain, ← heq l hl]
        · obtain ⟨hle, hcover⟩ := cover_append_drop hlead hpre
          obtain ⟨segs, hlt, htext, heq⟩ := ih _ hle
          refine ⟨f.lead.map .plain ++ segs, ?_, ?_, ?_⟩
          · rw [Segment.spans_append, Segment.spans_map_plain]
            exact hlt
          · rw [Segment.join_append, Segment.join_map_plain, htext, hcover]
            rfl
          · intro l hl
            rw [Text.substituteFrom, hsome l hl, Segment.join_append, Segment.join_map_plain,
              ← heq l hl]
        · obtain ⟨hle, hcover⟩ := cover_append_drop (TokenFormat.token_ne_nil _ _) hpre
          obtain ⟨segs, hlt, htext, heq⟩ := ih _ hle
          refine ⟨.span i :: segs, ?_, ?_, ?_⟩
          · intro j hj
            rcases List.mem_cons.mp hj with rfl | hj
            · exact hi
            · exact hlt j hj
          · rw [Segment.join_span, htext, hcover]
            rfl
          · intro l hl
            rw [Text.substituteFrom, hsome l hl, Segment.join_span, ← heq l hl]
  obtain ⟨segs, hlt, htext, heq⟩ := hpass t 0 (Nat.zero_le _)
  refine ⟨segs, hlt, htext, ?_⟩
  intro l hl
  have hleadl : l.format.lead ≠ [] := by
    rw [hl.1]
    exact hlead
  rw [revert_eq_substitute hleadl]
  exact heq l hl

/-! ## Held text -/

section Tokens

variable {α : Type} {cover : α → Text} {l : Ledger}

/-- A text without the lead has none of it where the tokens of its spans stand beside it. -/
theorem lead_not_first (hun : Text.Unbordered l.format.lead)
    {c : Char} {segs : List (Segment α)}
    (habsent : ¬ l.format.lead <:+: Segment.join cover (.plain c :: segs)) :
    ¬ l.format.lead <+: c :: Segment.join (fun a => l.tokenOf (cover a)) segs := by
  rintro ⟨rest, hrest⟩
  obtain ⟨run, tail, rfl, htail⟩ := Segment.exists_run segs
  rw [Segment.join_append, Segment.join_map_plain, ← List.cons_append] at hrest
  rw [Segment.join_plain, Segment.join_append, Segment.join_map_plain, ← List.cons_append]
    at habsent
  rcases List.append_eq_append_iff.mp hrest with ⟨z, hz, -⟩ | ⟨y, hy, hyrest⟩
  · -- the lead would lie in the run before the first token
    apply habsent
    rw [hz, List.append_assoc]
    exact (List.prefix_append _ _).isInfix
  · rcases htail with rfl | ⟨a, more, rfl⟩
    · apply habsent
      have hnil : y = [] := by
        rw [Segment.join_nil] at hyrest
        exact (List.append_eq_nil_iff.mp hyrest.symm).1
      rw [hy, hnil, List.append_nil]
      exact (List.prefix_append _ _).isInfix
    · cases y with
      | nil =>
        apply habsent
        rw [hy, List.append_nil]
        exact (List.prefix_append _ _).isInfix
      | cons d y =>
        -- its end would be the start of the token
        refine hun (c :: run) (d :: y) (by simp) (by simp) hy ?_
        rw [Segment.join_span, tokenOf, TokenFormat.token, List.append_assoc, List.append_assoc]
          at hyrest
        rcases List.append_eq_append_iff.mp hyrest with ⟨z, hz, -⟩ | ⟨z, hz, -⟩
        · have hlen := congrArg List.length hy
          have hlen' := congrArg List.length hz
          simp only [List.length_append, List.length_cons] at hlen hlen'
          omega
        · exact ⟨z, hz.symm⟩

/-- Behind a span, its token is never read as a longer one. -/
def Clear (cover : α → Text) (l : Ledger) : List (Segment α) → Prop
  | [] => True
  | .plain _ :: segs => Clear cover l segs
  | .span a :: segs =>
    ¬ l.Overread (l.values.idxOf (cover a)) (Segment.join (fun b => l.tokenOf (cover b)) segs) ∧
      Clear cover l segs

/-- Reversion copies a character that no token covers. -/
theorem substitute_tokens_plain (cover : α → Text) (hun : Text.Unbordered l.format.lead)
    {c : Char} {segs : List (Segment α)}
    (habsent : ¬ l.format.lead <:+: Segment.join cover (.plain c :: segs)) :
    Text.substitute l.revertRule
        (Segment.join (fun a => l.tokenOf (cover a)) (.plain c :: segs)) =
      c :: Text.substitute l.revertRule (Segment.join (fun a => l.tokenOf (cover a)) segs) := by
  rw [Segment.join_plain]
  exact Text.substitute_of_none (revertRule_eq_none (lead_not_first hun habsent))

theorem substitute_tokens_span {a : α} {rest : Text} (hheld : cover a ∈ l.values)
    (hclear : ¬ l.Overread (l.values.idxOf (cover a)) rest) :
    Text.substitute l.revertRule (l.tokenOf (cover a) ++ rest) =
      cover a ++ Text.substitute l.revertRule rest := by
  have hlt : l.values.idxOf (cover a) < l.values.length := List.idxOf_lt_length_of_mem hheld
  refine substitute_token ?_ hclear
  rw [List.getElem?_eq_getElem hlt, List.getElem_idxOf hlt]

/-- Reversion gives back what was held, if no token is read as a longer one. -/
theorem substitute_tokens (hun : Text.Unbordered l.format.lead)
    {segs : List (Segment α)} (habsent : ¬ l.format.lead <:+: Segment.join cover segs)
    (hheld : ∀ a ∈ Segment.spans segs, cover a ∈ l.values) (hclear : Clear cover l segs) :
    Text.substitute l.revertRule (Segment.join (fun a => l.tokenOf (cover a)) segs) =
      Segment.join cover segs := by
  induction segs with
  | nil => rfl
  | cons s segs ih =>
    have habsent' : ¬ l.format.lead <:+: Segment.join cover segs := by
      intro hwithin
      apply habsent
      cases s with
      | plain c => exact hwithin.trans (List.suffix_cons _ _).isInfix
      | span a => exact hwithin.trans (List.suffix_append _ _).isInfix
    cases s with
    | plain c =>
      rw [substitute_tokens_plain cover hun habsent, ih habsent' hheld hclear, Segment.join_plain]
    | span a =>
      rw [Segment.join_span, substitute_tokens_span (hheld a (by simp)) hclear.1,
        ih habsent' (fun b hb => hheld b (by simp [hb])) hclear.2, Segment.join_span]

/-- From every place between segments on, reversion gives back a text that was held under a lead fresh
to it, if no token is read as a longer one. -/
theorem HoldSpansSpec.revert_from {f : TokenFormat} {t text : Text} {segs A B : List (Segment α)}
    (h : HoldSpansSpec cover ⟨f.avoiding t, []⟩ segs l text) (hjoin : Segment.join cover segs = t)
    (hun : Text.Unbordered (f.avoiding t).lead) (hsplit : segs = A ++ B) (hclear : Clear cover l B) :
    l.revert (Segment.join (fun a => l.tokenOf (cover a)) B) = Segment.join cover B := by
  have hformat : l.format = f.avoiding t := h.continues.format
  have hne : l.format.lead ≠ [] := by
    rw [hformat]
    exact TokenFormat.avoiding_ne_nil f t
  have habsent : ¬ l.format.lead <:+: Segment.join cover B := by
    intro hlead
    have hwhole := hlead.trans (List.suffix_append (Segment.join cover A) _).isInfix
    rw [← Segment.join_append, ← hsplit, hjoin, hformat] at hwhole
    exact TokenFormat.avoiding_absent f t hwhole
  have hheld : ∀ a ∈ Segment.spans B, cover a ∈ l.values := by
    intro a ha
    exact h.held a (by rw [hsplit]; simp [ha])
  rw [revert_eq_substitute hne, substitute_tokens (hformat ▸ hun) habsent hheld hclear]

/-- Reversion gives back a text that was held under a lead fresh to it, if no token is read as a
longer one. -/
theorem HoldSpansSpec.revert_eq {f : TokenFormat} {t text : Text} {segs : List (Segment α)}
    (h : HoldSpansSpec cover ⟨f.avoiding t, []⟩ segs l text) (hjoin : Segment.join cover segs = t)
    (hun : Text.Unbordered (f.avoiding t).lead) (hclear : Clear cover l segs) :
    l.revert text = t := by
  rw [h.text_eq, h.revert_from hjoin hun (List.nil_append segs).symm hclear, hjoin]

/-- A trail that starts with no digit ends the number of a token. -/
theorem clear_of_trail (t : Char) (trail : Text) (htrail : l.format.trail = t :: trail)
    (ht : t.isDigit = false) (segs : List (Segment α)) : Clear cover l segs := by
  induction segs with
  | nil => trivial
  | cons s segs ih =>
    cases s with
    | plain c => exact ih
    | span a =>
      refine ⟨?_, ih⟩
      rintro ⟨ds, j, hds, hdigit, ⟨rest, hpre⟩, -, -⟩
      obtain ⟨d, ds, rfl⟩ := List.exists_cons_of_ne_nil hds
      rw [htrail] at hpre
      simp only [List.cons_append, List.cons.injEq] at hpre
      have hd := hdigit d (by simp)
      rw [hpre.1, ht] at hd
      exact absurd hd (by simp)

/-- With tokens that have no trail, a token is read as a longer one exactly when a digit stands behind
it that makes its number the number of another held value. -/
theorem overread_iff {lead : Text} {o : Char} (htrail : l.format.trail = [])
    (hlead : l.format.lead = o :: lead) (ho : o.isDigit = false) {i : Nat}
    {segs : List (Segment α)} :
    l.Overread i (Segment.join (fun a => l.tokenOf (cover a)) segs) ↔
      ∃ d rest, segs = .plain d :: rest ∧ d.isDigit = true ∧
        10 * (i + 1) + (d.toNat - '0'.toNat) ≤ l.values.length := by
  constructor
  · rintro ⟨ds, j, hds, hdigit, ⟨rest, hpre⟩, hj, hnumber⟩
    obtain ⟨d, ds, rfl⟩ := List.exists_cons_of_ne_nil hds
    have hd := hdigit d (by simp)
    rw [htrail, List.append_nil, List.nil_append] at hpre
    cases segs with
    | nil => simp at hpre
    | cons s segs =>
      cases s with
      | plain c =>
        simp only [Segment.join_plain, List.cons_append, List.cons.injEq] at hpre
        refine ⟨c, segs, rfl, hpre.1 ▸ hd, ?_⟩
        have hle := Text.le_of_ofNat_eq_append hnumber
        rw [← hpre.1]
        omega
      | span a =>
        -- a token starts with the lead, which starts with no digit
        simp only [Segment.join_span, tokenOf, TokenFormat.token, hlead, List.cons_append,
          List.cons.injEq] at hpre
        rw [hpre.1, ho] at hd
        simp at hd
  · rintro ⟨d, rest, rfl, hd, hle⟩
    refine ⟨[d], 10 * (i + 1) + (d.toNat - '0'.toNat) - 1, by simp, by simpa using hd, ?_, ?_, ?_⟩
    · rw [htrail]
      exact ⟨_, rfl⟩
    · omega
    · rw [Text.ofNat_append_digit (by omega) hd]
      congr 1
      omega

/-- With tokens that have no trail, no token is read as a longer one exactly when no digit behind a
span makes its number the number of another held value. -/
theorem clear_iff {lead : Text} {o : Char} (htrail : l.format.trail = [])
    (hlead : l.format.lead = o :: lead) (ho : o.isDigit = false) {segs : List (Segment α)} :
    Clear cover l segs ↔
      ∀ before a digit after, segs = before ++ .span a :: .plain digit :: after →
        digit.isDigit = true →
        l.values.length < 10 * (l.values.idxOf (cover a) + 1) + (digit.toNat - '0'.toNat) := by
  induction segs with
  | nil => simp [Clear]
  | cons s segs ih =>
    cases s with
    | plain c =>
      rw [Clear, ih]
      constructor
      · intro h before a digit after hsplit
        cases before with
        | nil => simp at hsplit
        | cons s before =>
          simp only [List.cons_append, List.cons.injEq] at hsplit
          exact h before a digit after hsplit.2
      · intro h before a digit after hsplit
        exact h (.plain c :: before) a digit after (by rw [hsplit, List.cons_append])
    | span a =>
      rw [Clear, ih, overread_iff htrail hlead ho]
      constructor
      · rintro ⟨hhere, h⟩ before b digit after hsplit hdigit
        cases before with
        | nil =>
          simp only [List.nil_append, List.cons.injEq, Segment.span.injEq] at hsplit
          obtain ⟨rfl, rfl⟩ := hsplit
          by_contra hle
          exact hhere ⟨digit, after, rfl, hdigit, by omega⟩
        | cons s before =>
          simp only [List.cons_append, List.cons.injEq] at hsplit
          exact h before b digit after hsplit.2 hdigit
      · intro h
        refine ⟨?_, ?_⟩
        · rintro ⟨digit, after, rfl, hdigit, hle⟩
          have hlt := h [] a digit after rfl hdigit
          omega
        · intro before b digit after hsplit
          exact h (.span a :: before) b digit after (by rw [hsplit, List.cons_append])

end Tokens

end Ledger

end MutationPreview
