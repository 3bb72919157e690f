import MutationPreview.Ledger
import MutationPreview.Proofs.Text.Segment

/-!
# Tokens and the values that they stand for

A token is told apart by its number, so a ledger gives a token back exactly the value at that
number (`Ledger.get?_eq_some_iff`). Holding the spans of a text writes the token of each span's
value, under the numbering that the ledger has in the end (`Ledger.holdSpans_spec`), and the lead
of the tokens is fresh to the text around them (`TokenFormat.isFresh_avoiding`).
-/

namespace MutationPreview

/-! ## Formats of tokens -/

namespace TokenFormat

theorem token_injective {f : TokenFormat} {m n : Nat} (h : f.token m = f.token n) : m = n := by
  rw [token, token, List.append_assoc, List.append_assoc] at h
  exact Text.ofNat_injective (List.append_cancel_right (List.append_cancel_left h))

theorem token_ne_nil (f : TokenFormat) (n : Nat) : f.token n ≠ [] := by
  simp [token, Text.ofNat_ne_nil]

theorem mem_token {f : TokenFormat} {n : Nat} {c : Char} :
    c ∈ f.token n ↔ c ∈ f.lead ∨ c ∈ Text.ofNat n ∨ c ∈ f.trail := by
  rw [token, List.mem_append, List.mem_append, or_assoc]

theorem isFresh_iff {t lead : Text} : isFresh t lead = true ↔ lead ≠ [] ∧ ¬ lead <:+: t := by
  rw [isFresh, Bool.and_eq_true, Bool.not_eq_true', Bool.not_eq_true', ← Text.occursIn_iff]
  simp

/-- The search for a fresh lead only appends underscores, and it passes no fresh lead by. -/
theorem lengthen_spec (t : Text) (fuel : Nat) (lead : Text) :
    ∃ k, lengthen t fuel lead = lead ++ List.replicate k '_' ∧
      ∀ j < k, isFresh t (lead ++ List.replicate j '_') = false := by
  induction fuel generalizing lead with
  | zero => exact ⟨0, by simp [lengthen], by simp⟩
  | succ fuel ih =>
    rw [lengthen]
    split
    · exact ⟨0, by simp, by simp⟩
    · rename_i hstale
      obtain ⟨k, hk, hbefore⟩ := ih (lead ++ ['_'])
      -- behind the underscore of this turn stand those of the later ones
      have hlater : ∀ j, lead ++ ['_'] ++ List.replicate j '_' =
          lead ++ List.replicate (j + 1) '_' := by
        intro j
        rw [List.append_assoc, List.singleton_append, List.replicate_succ]
      refine ⟨k + 1, hk.trans (hlater k), ?_⟩
      intro j hj
      cases j with
      | zero => simpa using hstale
      | succ j =>
        rw [← hlater j]
        exact hbefore j (by omega)

/-- The search ends with a fresh lead once it may grow longer than the text. -/
theorem isFresh_lengthen {t : Text} {fuel : Nat} {lead : Text}
    (h : t.length < lead.length + fuel) : isFresh t (lengthen t fuel lead) = true := by
  induction fuel generalizing lead with
  | zero =>
    rw [lengthen, isFresh_iff]
    refine ⟨?_, ?_⟩
    · rintro rfl
      simp at h
    · intro hwithin
      have hlen := hwithin.length_le
      omega
  | succ fuel ih =>
    rw [lengthen]
    split
    · assumption
    · apply ih
      rw [List.length_append, List.length_singleton]
      omega

theorem isFresh_avoiding (f : TokenFormat) (t : Text) :
    isFresh t (f.avoiding t).lead = true := by
  apply isFresh_lengthen
  omega

theorem avoiding_ne_nil (f : TokenFormat) (t : Text) : (f.avoiding t).lead ≠ [] :=
  (isFresh_iff.mp (f.isFresh_avoiding t)).1

theorem avoiding_absent (f : TokenFormat) (t : Text) : ¬ (f.avoiding t).lead <:+: t :=
  (isFresh_iff.mp (f.isFresh_avoiding t)).2

theorem avoiding_trail (f : TokenFormat) (t : Text) : (f.avoiding t).trail = f.trail := rfl

theorem exists_avoiding_lead (f : TokenFormat) (t : Text) :
    ∃ k, (f.avoiding t).lead = f.lead ++ List.replicate k '_' := by
  obtain ⟨k, hlead, -⟩ := lengthen_spec t (t.length + 1) f.lead
  exact ⟨k, hlead⟩

end TokenFormat

/-- No proper end of the text is a start of it, so two occurrences never overlap. -/
def Text.Unbordered (t : Text) : Prop :=
  ∀ x y, x ≠ [] → y ≠ [] → t = x ++ y → ¬ y <+: t

/-- A text whose first character does not come again is unbordered. -/
theorem Text.unbordered_of_notMem {c : Char} {t : Text} (h : c ∉ t) :
    Text.Unbordered (c :: t) := by
  intro x y hx hy heq hpre
  obtain ⟨d, x, rfl⟩ := List.exists_cons_of_ne_nil hx
  obtain ⟨e, y, rfl⟩ := List.exists_cons_of_ne_nil hy
  simp only [List.cons_append, List.cons.injEq] at heq
  have hec : e = c := by
    obtain ⟨rest, hrest⟩ := hpre
    simp only [List.cons_append, List.cons.injEq] at hrest
    exact hrest.1
  apply h
  rw [heq.2, hec]
  simp

/-! ## Looking up tokens -/

namespace Ledger

private theorem lookup_mapIdx (f : TokenFormat) (values : List Text) (k : Nat) (token value : Text) :
    (values.mapIdx fun i value => (f.token (i + k), value)).lookup token = some value ↔
      ∃ i, values[i]? = some value ∧ token = f.token (i + k) := by
  induction values generalizing k with
  | nil => simp
  | cons v values ih =>
    have hshift : (fun i value => (f.token (i + 1 + k), value)) =
        fun (i : Nat) (value : Text) => (f.token (i + (k + 1)), value) := by
      funext i value
      rw [Nat.add_assoc, Nat.add_comm 1 k]
    rw [List.mapIdx_cons, List.lookup_cons, hshift]
    by_cases htoken : token = f.token (0 + k)
    · have hbeq : (token == f.token (0 + k)) = true := by simpa using htoken
      rw [hbeq]
      constructor
      · intro h
        exact ⟨0, by simpa using h, htoken⟩
      · rintro ⟨i, hi, htoken'⟩
        have hzero : i = 0 := by
          have hinj := TokenFormat.token_injective (htoken.symm.trans htoken')
          omega
        subst hzero
        simpa using hi
    · have hbeq : (token == f.token (0 + k)) = false := by simpa using htoken
      rw [hbeq]
      refine (ih (k + 1)).trans ?_
      constructor
      · rintro ⟨i, hi, rfl⟩
        exact ⟨i + 1, by simpa using hi, by rw [Nat.add_assoc, Nat.add_comm 1 k]⟩
      · rintro ⟨i, hi, rfl⟩
        cases i with
        | zero => exact absurd rfl htoken
        | succ i => exact ⟨i, by simpa using hi, by rw [Nat.add_assoc, Nat.add_comm 1 k]⟩

/-- A text is given a value exactly when it is the token with the number of that value. -/
theorem get?_eq_some_iff {l : Ledger} {token value : Text} :
    l.get? token = some value ↔
      ∃ i, l.values[i]? = some value ∧ token = l.format.token (i + 1) :=
  lookup_mapIdx l.format l.values 1 token value

theorem get?_token (l : Ledger) (i : Nat) : l.get? (l.format.token (i + 1)) = l.values[i]? := by
  apply Option.ext
  intro value
  rw [get?_eq_some_iff]
  constructor
  · rintro ⟨j, hj, htoken⟩
    have hij := TokenFormat.token_injective htoken
    have hij : j = i := by omega
    rw [← hij]
    exact hj
  · intro h
    exact ⟨i, h, rfl⟩

theorem holds_iff {l : Ledger} {token : Text} :
    l.holds token = true ↔ ∃ i, i < l.values.length ∧ token = l.format.token (i + 1) := by
  rw [holds, Option.isSome_iff_exists]
  constructor
  · rintro ⟨value, hvalue⟩
    obtain ⟨i, hi, htoken⟩ := get?_eq_some_iff.mp hvalue
    exact ⟨i, (List.getElem?_eq_some_iff.mp hi).1, htoken⟩
  · rintro ⟨i, hi, htoken⟩
    exact ⟨l.values[i], get?_eq_some_iff.mpr ⟨i, List.getElem?_eq_getElem hi, htoken⟩⟩

/-! ## Holding -/

/-- The token of a held value. -/
def tokenOf (l : Ledger) (value : Text) : Text := l.format.token (l.values.idxOf value + 1)

/-- One ledger continues another: it has the same tokens and some more. -/
structure Extends (l l' : Ledger) : Prop where
  format : l'.format = l.format
  values : l.values <+: l'.values

theorem Extends.refl (l : Ledger) : l.Extends l := ⟨rfl, List.prefix_rfl⟩

theorem Extends.trans {l l' l'' : Ledger} (h : l.Extends l') (h' : l'.Extends l'') :
    l.Extends l'' := ⟨h'.format.trans h.format, h.values.trans h'.values⟩

/-- A held value keeps its token. -/
theorem Extends.tokenOf_eq {l l' : Ledger} (h : l.Extends l') {value : Text}
    (hmem : value ∈ l.values) : l'.tokenOf value = l.tokenOf value := by
  obtain ⟨more, hmore⟩ := h.values
  rw [tokenOf, tokenOf, h.format, ← hmore, List.idxOf_append, if_pos hmem]

/-- A value that is held already keeps its token. -/
theorem hold_of_mem {l : Ledger} {value : Text} (h : value ∈ l.values) :
    l.hold value = (l, l.tokenOf value) := by
  have hidx : l.values.findIdx? (· = value) = some (l.values.idxOf value) := by
    rw [List.findIdx?_eq_some_iff_getElem]
    refine ⟨List.idxOf_lt_length_of_mem h, by simp, fun j hj => ?_⟩
    have hne := List.not_of_lt_findIdx hj
    simpa using hne
  rw [hold, hidx, tokenOf]

/-- Another value gets the next number. -/
theorem hold_of_notMem {l : Ledger} {value : Text} (h : value ∉ l.values) :
    l.hold value = (⟨l.format, l.values ++ [value]⟩, l.format.token (l.values.length + 1)) := by
  have hnone : l.values.findIdx? (· = value) = none := by
    rw [List.findIdx?_eq_none_iff]
    intro v hv
    have hne : v ≠ value := fun heq => h (heq ▸ hv)
    simpa using hne
  rw [hold, hnone]

/-- What holding one value does: the value is held in the end under the token given, and nothing
else has changed. -/
structure HoldSpec (l : Ledger) (value : Text) (l' : Ledger) (token : Text) : Prop where
  continues : l.Extends l'
  held : value ∈ l'.values
  only : ∀ v ∈ l'.values, v ∈ l.values ∨ v = value
  nodup : l.values.Nodup → l'.values.Nodup
  token_eq : token = l'.tokenOf value

theorem hold_spec (l : Ledger) (value : Text) :
    HoldSpec l value (l.hold value).1 (l.hold value).2 := by
  by_cases hmem : value ∈ l.values
  · rw [hold_of_mem hmem]
    exact ⟨Extends.refl l, hmem, fun v hv => Or.inl hv, fun h => h, rfl⟩
  · rw [hold_of_notMem hmem]
    refine ⟨⟨rfl, List.prefix_append _ _⟩, by simp, ?_, ?_, ?_⟩
    · intro v hv
      simpa using hv
    · intro hnodup
      rw [List.nodup_append]
      refine ⟨hnodup, by simp, ?_⟩
      intro v hv w hw
      have hw : w = value := by simpa using hw
      rw [hw]
      rintro rfl
      exact hmem hv
    · simp [tokenOf, List.idxOf_append, hmem]

/-- What holding all spans of a text does. -/
structure HoldSpansSpec {α : Type} (cover : α → Text) (l : Ledger) (segs : List (Segment α))
    (l' : Ledger) (t : Text) : Prop where
  continues : l.Extends l'
  held : ∀ a ∈ Segment.spans segs, cover a ∈ l'.values
  only : ∀ v ∈ l'.values, v ∈ l.values ∨ ∃ a ∈ Segment.spans segs, cover a = v
  nodup : l.values.Nodup → l'.values.Nodup
  text_eq : t = Segment.join (fun a => l'.tokenOf (cover a)) segs

theorem holdSpans_spec {α : Type} (cover : α → Text) (l : Ledger) (segs : List (Segment α)) :
    HoldSpansSpec cover l segs (holdSpans cover l segs).1 (holdSpans cover l segs).2 := by
  induction segs generalizing l with
  | nil => exact ⟨Extends.refl l, by simp, fun v hv => Or.inl hv, fun h => h, rfl⟩
  | cons s segs ih =>
    cases s with
    | plain c =>
      have hrec := ih l
      refine ⟨hrec.continues, hrec.held, hrec.only, hrec.nodup, ?_⟩
      simp only [holdSpans, Segment.join_plain]
      rw [← hrec.text_eq]
    | span a =>
      have hone := hold_spec l (cover a)
      have hrec := ih (l.hold (cover a)).1
      simp only [holdSpans]
      refine ⟨hone.continues.trans hrec.continues, ?_, ?_, fun h => hrec.nodup (hone.nodup h), ?_⟩
      · intro b hb
        rcases List.mem_cons.mp hb with rfl | hb
        · exact hrec.continues.values.subset hone.held
        · exact hrec.held b hb
      · intro v hv
        rcases hrec.only v hv with hv | ⟨b, hb, rfl⟩
        · rcases hone.only v hv with hv | rfl
          · exact Or.inl hv
          · exact Or.inr ⟨a, by simp, rfl⟩
        · exact Or.inr ⟨b, by simp [hb], rfl⟩
      · rw [Segment.join_span, hone.token_eq, hrec.continues.tokenOf_eq hone.held, ← hrec.text_eq]

end Ledger

end MutationPreview
