import MutationPreview.Proofs.Ledger.Revert

/-!
# Where reversion may be cut

What reversion does at a place is settled by the tokens that the text from there on starts with, the
longest of which is put back (`Ledger.revertRule_congr`). So two ledgers revert a text alike if
they tell the same tokens in it (`Ledger.revert_hold`), and a text may be cut for reversion between
two stretches that no token lies across (`Ledger.revert_append`).
-/

namespace MutationPreview

namespace Text

variable {rule rule' : Text → Option (Nat × Text)}

/-- Two rules that agree from every place on give the same text. -/
theorem substitute_congr {t : Text} (h : ∀ u, u ≠ [] → u <:+ t → rule u = rule' u) :
    Text.substitute rule t = Text.substitute rule' t := by
  have hfrom : ∀ (t : Text) (skip : Nat), (∀ u, u ≠ [] → u <:+ t → rule u = rule' u) →
      Text.substituteFrom rule skip t = Text.substituteFrom rule' skip t := by
    intro t
    induction t with
    | nil =>
      intro skip _
      cases skip <;> rfl
    | cons c t ih =>
      intro skip h
      have hrest : ∀ skip, Text.substituteFrom rule skip t = Text.substituteFrom rule' skip t :=
        fun skip => ih skip fun u hu hsuffix => h u hu (hsuffix.trans (List.suffix_cons c t))
      cases skip with
      | succ skip => exact hrest skip
      | zero =>
        rw [Text.substituteFrom, Text.substituteFrom, h (c :: t) (by simp) List.suffix_rfl]
        cases rule' (c :: t) with
        | none => simp only [hrest]
        | some step => simp only [hrest]
  exact hfrom t 0 h

/-- A pass over two texts in a row is a pass over each, if no step in the first looks at the
second or covers some of it. -/
theorem substitute_append {a b : Text}
    (hrule : ∀ x z, a = x ++ z → z ≠ [] → rule (z ++ b) = rule z)
    (hcover : ∀ z more out, rule z = some (more, out) → more < z.length) :
    Text.substitute rule (a ++ b) = Text.substitute rule a ++ Text.substitute rule b := by
  -- the steps of the pass shorten the first text
  induction hn : a.length using Nat.strongRecOn generalizing a with
  | ind n ih =>
    cases a with
    | nil => rfl
    | cons c a =>
      have hbehind : ∀ v, v.length < n → (∃ x, c :: a = x ++ v) →
          Text.substitute rule (v ++ b) = Text.substitute rule v ++ Text.substitute rule b := by
        rintro v hv ⟨x, hx⟩
        refine ih v.length (by omega) ?_ rfl
        intro y z hz hne
        exact hrule (x ++ y) z (by rw [hx, hz, List.append_assoc]) hne
      have hstep := hrule [] (c :: a) rfl (by simp)
      cases hrest : rule (c :: a) with
      | none =>
        rw [hrest, List.cons_append] at hstep
        rw [List.cons_append, Text.substitute_of_none hstep, Text.substitute_of_none hrest,
          hbehind a (by rw [← hn]; simp) ⟨[c], rfl⟩, List.cons_append]
      | some step =>
        obtain ⟨more, out⟩ := step
        have hlt := hcover _ _ _ hrest
        obtain ⟨u, v, rfl, hu⟩ : ∃ u v, a = u ++ v ∧ u.length = more :=
          ⟨a.take more, a.drop more, (List.take_append_drop _ _).symm, by
            simp only [List.length_cons] at hlt
            rw [List.length_take]
            omega⟩
        subst hu
        rw [hrest, List.cons_append, List.append_assoc] at hstep
        rw [List.cons_append, List.append_assoc, Text.substitute_of_some hstep,
          Text.substitute_of_some hrest, hbehind v ?_ ⟨c :: u, rfl⟩, List.append_assoc]
        rw [← hn]
        simp only [List.length_cons, List.length_append]
        omega

end Text

namespace Ledger

/-! ## What a place is settled by -/

/-- What reversion does at a place is settled by the lead and the held tokens there. -/
theorem revertRule_congr {l l' : Ledger} {t t' : Text} (hformat : l'.format = l.format)
    (hlead : l.format.lead <+: t ↔ l.format.lead <+: t')
    (htoken : ∀ i value, l.values[i]? = some value ∧ l.format.token (i + 1) <+: t ↔
      l'.values[i]? = some value ∧ l.format.token (i + 1) <+: t') :
    l.revertRule t = l'.revertRule t' := by
  have hheld : ∀ i, i < l.values.length ∧ l.format.token (i + 1) <+: t ↔
      i < l'.values.length ∧ l.format.token (i + 1) <+: t' := by
    intro i
    constructor
    · rintro ⟨hi, hpre⟩
      obtain ⟨hi', hpre'⟩ := (htoken i _).mp ⟨List.getElem?_eq_getElem hi, hpre⟩
      exact ⟨(List.getElem?_eq_some_iff.mp hi').1, hpre'⟩
    · rintro ⟨hi, hpre⟩
      obtain ⟨hi', hpre'⟩ := (htoken i _).mpr ⟨List.getElem?_eq_getElem hi, hpre⟩
      exact ⟨(List.getElem?_eq_some_iff.mp hi').1, hpre'⟩
  have hat : l.tokenAt? t = l'.tokenAt? t' := by
    cases hsome : l.tokenAt? t with
    | none =>
      rw [tokenAt?_eq_none_iff] at hsome
      refine (tokenAt?_eq_none_iff.mpr ?_).symm
      rw [hformat]
      intro i hi hpre
      obtain ⟨hi', hpre'⟩ := (hheld i).mpr ⟨hi, hpre⟩
      exact hsome i hi' hpre'
    | some found =>
      obtain ⟨token, value⟩ := found
      obtain ⟨hget, hpre, hlongest⟩ := tokenAt?_eq_some_iff.mp hsome
      obtain ⟨i, hi, rfl⟩ := get?_eq_some_iff.mp hget
      obtain ⟨hi', hpre'⟩ := (htoken i value).mp ⟨hi, hpre⟩
      refine (tokenAt?_eq_some_iff.mpr ⟨?_, hpre', ?_⟩).symm
      · exact get?_eq_some_iff.mpr ⟨i, hi', by rw [hformat]⟩
      · rw [hformat]
        intro j hj hprej
        obtain ⟨hj', hprej'⟩ := (hheld j).mpr ⟨hj, hprej⟩
        exact hlongest j hj' hprej'
  have hcopy : l.format.lead.isPrefixOf t = l.format.lead.isPrefixOf t' := by
    rw [Bool.eq_iff_iff, List.isPrefixOf_iff_prefix, List.isPrefixOf_iff_prefix]
    exact hlead
  rw [revertRule, revertRule, hat, hformat, hcopy]

/-! ## Two stretches in a row -/

/-- Whether neither the lead nor a held token lies across the boundary between two texts. -/
def CutsAt (l : Ledger) (a b : Text) : Prop :=
  ∀ x z, a = x ++ z → z ≠ [] →
    (l.format.lead <+: z ++ b → l.format.lead <+: z) ∧
      ∀ i, i < l.values.length → l.format.token (i + 1) <+: z ++ b → l.format.token (i + 1) <+: z

/-- What reversion covers at a place is a start of the text. -/
theorem revertRule_le {l : Ledger} (hne : l.format.lead ≠ []) {a out : Text} {more : Nat}
    (h : l.revertRule a = some (more, out)) : more < a.length := by
  rcases revertRule_cases l.format l.values.length a with hnone | ⟨hpre, hsome⟩ | ⟨i, -, hpre, hsome⟩
  · rw [hnone l ⟨rfl, rfl⟩] at h
    cases h
  · have hpos := List.length_pos_iff.mpr hne
    have hle := hpre.length_le
    rw [hsome l ⟨rfl, rfl⟩, Option.some.injEq, Prod.mk.injEq] at h
    omega
  · have hpos := List.length_pos_iff.mpr (TokenFormat.token_ne_nil l.format (i + 1))
    have hle := hpre.length_le
    rw [hsome l ⟨rfl, rfl⟩, Option.some.injEq, Prod.mk.injEq] at h
    omega

/-- Two texts that no token lies across may be reverted one by one. -/
theorem revert_append {l : Ledger} (hne : l.format.lead ≠ []) {a b : Text} (h : l.CutsAt a b) :
    l.revert (a ++ b) = l.revert a ++ l.revert b := by
  rw [revert_eq_substitute hne, revert_eq_substitute hne, revert_eq_substitute hne]
  refine Text.substitute_append ?_ fun z more out hz => revertRule_le hne hz
  intro x z hx hz
  obtain ⟨hlead, htoken⟩ := h x z hx hz
  refine revertRule_congr rfl ⟨hlead, fun hpre => hpre.trans (List.prefix_append _ _)⟩ ?_
  intro i value
  constructor
  · rintro ⟨hi, hpre⟩
    exact ⟨hi, htoken i (List.getElem?_eq_some_iff.mp hi).1 hpre⟩
  · rintro ⟨hi, hpre⟩
    exact ⟨hi, hpre.trans (List.prefix_append _ _)⟩

/-- A character that neither the lead nor a number has cuts the text for reversion. -/
theorem revert_append_cons {l : Ledger} {b : Char} (hne : l.format.lead ≠ [])
    (htrail : l.format.trail = []) (hb : b ∉ l.format.lead) (hdigit : b.isDigit = false)
    (a rest : Text) : l.revert (a ++ b :: rest) = l.revert a ++ b :: l.revert rest := by
  have hacross : ∀ u : Text, b ∉ u → ∀ z : Text, u <+: z ++ b :: rest → u <+: z := by
    rintro u hu z ⟨more, hmore⟩
    obtain ⟨v, rfl, -⟩ := Segment.prefix_of_notMem hu hmore
    exact List.prefix_append _ _
  have hcut : l.CutsAt a (b :: rest) := by
    refine fun x z _ _ => ⟨hacross _ hb z, fun i _ => hacross _ (fun hmem => ?_) z⟩
    rw [TokenFormat.mem_token, htrail] at hmem
    rcases hmem with hmem | hmem | hmem
    · exact hb hmem
    · simp [Text.isDigit_of_mem_ofNat hmem] at hdigit
    · simp at hmem
  obtain ⟨o, lead, hlead⟩ := List.exists_cons_of_ne_nil hne
  have hother : o ∉ [b] := by
    rw [List.mem_singleton]
    rintro rfl
    exact hb (by simp [hlead])
  have hcopy : l.revert (b :: rest) = b :: l.revert rest := by
    rw [revert_eq_substitute hne, revert_eq_substitute hne]
    exact substitute_append_of_notMem hlead hother rest
  rw [revert_append hne hcut, hcopy]

/-- A character that starts the lead and comes nowhere else in a token starts what reversion reads
anew. -/
theorem revert_append_lead {l : Ledger} {o : Char} {lead : Text} (hlead : l.format.lead = o :: lead)
    (ho : o ∉ lead) (hdigit : o.isDigit = false) (htrail : o ∉ l.format.trail) (a rest : Text) :
    l.revert (a ++ o :: rest) = l.revert a ++ l.revert (o :: rest) := by
  refine revert_append (by simp [hlead]) ?_
  -- in a token that starts before it, the character would come a second time
  have hacross : ∀ u : Text, o ∉ u → ∀ z : Text, z ≠ [] → o :: u <+: z ++ o :: rest → o :: u <+: z := by
    rintro u hu z hz ⟨more, hmore⟩
    obtain ⟨d, z, rfl⟩ := List.exists_cons_of_ne_nil hz
    simp only [List.cons_append, List.cons.injEq] at hmore
    obtain ⟨rfl, hmore⟩ := hmore
    obtain ⟨v, rfl, -⟩ := Segment.prefix_of_notMem hu hmore
    exact ⟨v, rfl⟩
  intro x z _ hz
  refine ⟨?_, ?_⟩
  · rw [hlead]
    exact hacross lead ho z hz
  · intro i _
    have htoken : l.format.token (i + 1) =
        o :: (lead ++ Text.ofNat (i + 1) ++ l.format.trail) := by
      simp [TokenFormat.token, hlead]
    rw [htoken]
    refine hacross _ ?_ z hz
    simp only [List.mem_append, not_or]
    refine ⟨⟨ho, fun hmem => ?_⟩, htrail⟩
    simp [Text.isDigit_of_mem_ofNat hmem] at hdigit

/-! ## One more value -/

/-- One more value changes the reversion of a text only where its token stands. -/
theorem revert_hold {l : Ledger} (hne : l.format.lead ≠ []) {value t : Text}
    (h : ¬ l.format.token (l.values.length + 1) <:+: t) :
    (l.hold value).1.revert t = l.revert t := by
  have hspec := hold_spec l value
  have hne' : (l.hold value).1.format.lead ≠ [] := by
    rw [hspec.continues.format]
    exact hne
  rw [revert_eq_substitute hne, revert_eq_substitute hne']
  refine Text.substitute_congr ?_
  intro u _ hu
  refine (revertRule_congr hspec.continues.format Iff.rfl ?_).symm
  intro i v
  rw [hold]
  split
  · rfl
  · simp only
    refine and_congr_left fun hpre => ?_
    rcases Nat.lt_trichotomy i l.values.length with hlt | rfl | hgt
    · rw [List.getElem?_append_left hlt]
    · exact absurd (hpre.isInfix.trans hu.isInfix) h
    · rw [List.getElem?_eq_none (by omega), List.getElem?_eq_none (by simp; omega)]

end Ledger

end MutationPreview
