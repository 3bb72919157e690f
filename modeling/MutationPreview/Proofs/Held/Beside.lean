import MutationPreview.Proofs.Held.Spans

/-!
# What stands beside a literal

To the patterns that tidy a query, the token of a literal is part of the word that it stands in; once
the literal is put back, its quotes end the words beside it. So a query may show a word that tidying
looks for where the held text has none. `Ledger.KeepsApart` says of a text that no word which tidying
looks for touches a literal, and that no entity call has several literals side by side.

What a query shows is read back place by place (`Ledger.Places`): a character outside quotes, a
stretch without quotes and a run of literals stand in the held text too, the literals as their tokens.
-/

namespace MutationPreview

namespace Pattern

/-! ## Words that touch a literal -/

/-- The given text. -/
def exactly (t : Text) : Pattern := chain (t.map just)

/-- A call of the entity function up to its argument. -/
def callOpening : Pattern := chain [word "toentityid".toList, blanks, just '(', blanks]

/-- An entity token right before a literal. -/
def tokenAtLiteral (lead : Text) : Pattern := chain [word ":entityid".toList, exactly lead]

/-- A mark right behind a literal. -/
def markAtLiteral (token : Text) : Pattern := chain [exactly token, word "tmp_".toList]

/-- A call right behind a literal whose argument starts with a literal. -/
def callAtLiteral (token lead : Text) : Pattern := chain [exactly token, callOpening, exactly lead]

/-- A call whose argument starts with two literals side by side. -/
def callOfLiterals (token lead : Text) : Pattern :=
  chain [wordEdge, callOpening, exactly token, exactly lead]

variable {token lead u w a b : Text}

theorem edgeFree_exactly (t : Text) : (exactly t).edgeFree = true := by
  induction t with
  | nil => rfl
  | cons c t ih => rw [exactly, List.map_cons, edgeFree_chain_cons, ← exactly, ih]; rfl

theorem spells_exactly {t : Text} : (exactly t).Spells u ↔ u = t := by
  induction t generalizing u with
  | nil => exact Iff.rfl
  | cons c t ih =>
    rw [exactly, List.map_cons, spells_chain_cons rfl (edgeFree_exactly t)]
    constructor
    · rintro ⟨v, w, rfl, hv, hw⟩
      rw [spells_just.mp hv, ih.mp hw]
      rfl
    · rintro rfl
      exact ⟨[c], t, rfl, spells_just.mpr rfl, ih.mpr rfl⟩

theorem edgeFree_callOpening : callOpening.edgeFree = true := by decide

theorem spells_callOpening (hw : (word "toentityid".toList).Spells w) (ha : blanks.Spells a)
    (hb : blanks.Spells b) : callOpening.Spells (w ++ (a ++ '(' :: b)) := by
  rw [callOpening, spells_chain_cons (by decide) (by decide)]
  refine ⟨w, _, rfl, hw, (spells_chain_cons (by decide) (by decide)).mpr ⟨a, _, rfl, ha, ?_⟩⟩
  exact (spells_chain_cons (by decide) (by decide)).mpr ⟨['('], b, rfl, spells_just.mpr rfl, hb⟩

theorem edgeFree_tokenAtLiteral (lead : Text) : (tokenAtLiteral lead).edgeFree = true := by
  rw [tokenAtLiteral, edgeFree_chain_cons, edgeFree_word]
  exact edgeFree_exactly lead

theorem spells_tokenAtLiteral : (tokenAtLiteral lead).Spells u ↔
    ∃ e, u = e ++ lead ∧ (word ":entityid".toList).Spells e := by
  refine (spells_seq (edgeFree_word _) (edgeFree_exactly lead)).trans ⟨?_, ?_⟩
  · rintro ⟨e, v, rfl, he, hv⟩
    exact ⟨e, by rw [spells_exactly.mp hv], he⟩
  · rintro ⟨e, rfl, he⟩
    exact ⟨e, lead, rfl, he, spells_exactly.mpr rfl⟩

theorem edgeFree_markAtLiteral (token : Text) : (markAtLiteral token).edgeFree = true := by
  rw [markAtLiteral, edgeFree_chain_cons, edgeFree_exactly]
  exact edgeFree_word _

theorem spells_markAtLiteral : (markAtLiteral token).Spells u ↔
    ∃ m, u = token ++ m ∧ (word "tmp_".toList).Spells m := by
  refine (spells_seq (edgeFree_exactly token) (edgeFree_word _)).trans ⟨?_, ?_⟩
  · rintro ⟨v, m, rfl, hv, hm⟩
    exact ⟨m, by rw [spells_exactly.mp hv], hm⟩
  · rintro ⟨m, rfl, hm⟩
    exact ⟨token, m, rfl, spells_exactly.mpr rfl, hm⟩

theorem edgeFree_callAtLiteral (token lead : Text) : (callAtLiteral token lead).edgeFree = true := by
  rw [callAtLiteral, edgeFree_chain_cons, edgeFree_chain_cons, edgeFree_exactly,
    edgeFree_callOpening]
  exact edgeFree_exactly lead

theorem spells_callAtLiteral {o : Text} (ho : callOpening.Spells o) :
    (callAtLiteral token lead).Spells (token ++ (o ++ lead)) := by
  have hrest : (chain [callOpening, exactly lead]).Spells (o ++ lead) :=
    (spells_seq edgeFree_callOpening (edgeFree_exactly lead)).mpr
      ⟨o, lead, rfl, ho, spells_exactly.mpr rfl⟩
  refine (spells_chain_cons (edgeFree_exactly token) ?_).mpr
    ⟨token, _, rfl, spells_exactly.mpr rfl, hrest⟩
  rw [edgeFree_chain_cons, edgeFree_callOpening]
  exact edgeFree_exactly lead

/-- A call of the entity function is read where a word may start. -/
theorem reads_callOfLiterals {o before after : Text}
    (hedge : Cursor.atWordEdge ⟨before, o ++ (token ++ lead) ++ after⟩ = true)
    (ho : callOpening.Spells o) :
    (callOfLiterals token lead).Reads before (o ++ (token ++ lead)) after := by
  refine reads_chain_cons.mpr ⟨[], _, rfl, ⟨rfl, hedge⟩, ?_⟩
  refine reads_chain_cons.mpr ⟨o, _, rfl, ho.reads edgeFree_callOpening _ _, ?_⟩
  refine reads_chain_cons.mpr
    ⟨token, lead, rfl, (spells_exactly.mpr rfl).reads (edgeFree_exactly token) _ _, ?_⟩
  exact (spells_exactly.mpr rfl).reads (edgeFree_exactly lead) _ _

end Pattern

open Pattern

namespace Ledger

variable {l : Ledger} {t : Text}

/-- No word that tidying looks for touches a literal of the text, and no entity call of it has
several literals side by side. -/
structure KeepsApart (l : Ledger) (t : Text) : Prop where
  no_token : (tokenAtLiteral l.format.lead).hasMatch t = false
  no_mark : ∀ i < l.values.length, (markAtLiteral (l.format.token (i + 1))).hasMatch t = false
  no_call : ∀ i < l.values.length,
    (callAtLiteral (l.format.token (i + 1)) l.format.lead).hasMatch t = false
  no_several : ∀ i < l.values.length,
    (callOfLiterals (l.format.token (i + 1)) l.format.lead).hasMatch t = false

instance (l : Ledger) : DecidablePred l.KeepsApart := fun t =>
  decidable_of_iff ((tokenAtLiteral l.format.lead).hasMatch t = false ∧
      (∀ i < l.values.length, (markAtLiteral (l.format.token (i + 1))).hasMatch t = false) ∧
      (∀ i < l.values.length,
        (callAtLiteral (l.format.token (i + 1)) l.format.lead).hasMatch t = false) ∧
      ∀ i < l.values.length,
        (callOfLiterals (l.format.token (i + 1)) l.format.lead).hasMatch t = false)
    ⟨fun ⟨htoken, hmark, hcall, hseveral⟩ => ⟨htoken, hmark, hcall, hseveral⟩,
      fun h => ⟨h.no_token, h.no_mark, h.no_call, h.no_several⟩⟩

/-! ## Runs of tokens -/

/-- The tokens of several values side by side. -/
def tokenRun (l : Ledger) (is : List Nat) : Text := is.flatMap fun i => l.format.token (i + 1)

/-- Several values side by side. -/
def valueRun (l : Ledger) (is : List Nat) : Text := is.flatMap l.valueAt

variable {is : List Nat} {i k : Nat}

theorem tokenRun_ne_nil (h : is ≠ []) : l.tokenRun is ≠ [] := by
  obtain ⟨i, is, rfl⟩ := List.exists_cons_of_ne_nil h
  simp [tokenRun, TokenFormat.token_ne_nil]

theorem lead_prefix_tokenRun (h : is ≠ []) : l.format.lead <+: l.tokenRun is := by
  obtain ⟨i, is, rfl⟩ := List.exists_cons_of_ne_nil h
  rw [tokenRun, List.flatMap_cons, TokenFormat.token, List.append_assoc, List.append_assoc]
  exact List.prefix_append _ _

theorem forall_mem_tokenRun {p : Char → Prop} (h : ∀ i, ∀ c ∈ l.format.token (i + 1), p c) :
    ∀ c ∈ l.tokenRun is, p c := by
  intro c hc
  obtain ⟨i, -, hc⟩ := List.mem_flatMap.mp hc
  exact h i c hc

theorem IsStandard.token_eq (hl : l.IsStandard) (i : Nat) :
    l.format.token i = l.format.lead ++ Text.ofNat i := by
  rw [TokenFormat.token, hl.trail_eq, List.append_nil]

theorem IsStandard.exists_lead (hl : l.IsStandard) :
    ∃ lead, l.format.lead = 'S' :: lead ∧ 'S' ∉ lead := by
  obtain ⟨k, hk⟩ := hl.exists_format
  exact ⟨"TR_".toList ++ List.replicate k '_', by rw [hk]; rfl, by simp [List.mem_replicate]⟩

/-- The first letter of the lead comes once in a token. -/
theorem IsStandard.count_token (hl : l.IsStandard) (i : Nat) : (l.format.token i).count 'S' = 1 := by
  obtain ⟨lead, hlead, hfirst⟩ := hl.exists_lead
  have hdigit : 'S' ∉ Text.ofNat i := fun hmem =>
    absurd (Text.isDigit_of_mem_ofNat hmem) (by decide)
  rw [hl.token_eq, hlead, List.count_append, List.count_cons_self, List.count_eq_zero.mpr hfirst,
    List.count_eq_zero.mpr hdigit]

/-- Several tokens are no token. -/
theorem IsStandard.eq_singleton (hl : l.IsStandard) (h : l.tokenRun is = l.format.token (k + 1)) :
    is = [k] := by
  have hcount : ∀ is : List Nat, (l.tokenRun is).count 'S' = is.length := by
    intro is
    induction is with
    | nil => rfl
    | cons i is ih =>
      rw [tokenRun, List.flatMap_cons, List.count_append, hl.count_token, List.length_cons, ← ih,
        tokenRun, Nat.add_comm]
  have hlength := hcount is
  rw [h, hl.count_token] at hlength
  obtain ⟨i, rfl⟩ := List.length_eq_one_iff.mp hlength.symm
  have hsame : l.format.token (i + 1) = l.format.token (k + 1) := by simpa [tokenRun] using h
  rw [Nat.add_right_cancel (TokenFormat.token_injective hsame)]

end Ledger

/-! ## Quoted values -/

/-- A text of quoted spans and nothing else. -/
theorem isQuoted_of_outsideQuotes {t : Text} (h : outsideQuotes t = []) :
    IsQuoted t ∧ t.count '\'' % 2 = 0 := by
  have hpaired := paired_segments t
  generalize Grammar.literal.segments t = segs at hpaired
  induction hpaired with
  | nil => exact ⟨fun _ => rfl, rfl⟩
  | other hc => simp [outsideQuotes_cons hc] at h
  | unclosed hnone => simp [outsideQuotes_unclosed hnone] at h
  | span hcontent _ _ ih =>
    rw [outsideQuotes_inQuotes_append hcontent] at h
    obtain ⟨hquoted, hcount⟩ := ih h
    refine ⟨fun rest => ?_, ?_⟩
    · rw [List.append_assoc, outsideQuotes_inQuotes_append hcontent, hquoted]
    · rw [List.count_append, count_inQuotes hcontent]
      omega

theorem exists_quote_of_outsideQuotes {t : Text} (hne : t ≠ []) (h : outsideQuotes t = []) :
    ∃ rest, t = '\'' :: rest := by
  obtain ⟨c, t, rfl⟩ := List.exists_cons_of_ne_nil hne
  by_cases hc : c = '\''
  · exact ⟨t, by rw [hc]⟩
  · simp [outsideQuotes_cons hc] at h

namespace Ledger

variable {l : Ledger}

/-- Every held value is made of quoted spans. -/
def Quoted (l : Ledger) : Prop := ∀ v ∈ l.values, v ≠ [] ∧ outsideQuotes v = []

/-- The places of tokens of held values in a text that has no quotes. -/
structure Places (l : Ledger) (segs : List (Segment Nat)) : Prop where
  held : ∀ i ∈ Segment.spans segs, i < l.values.length
  unquoted : Segment.plain '\'' ∉ segs

/-- A text without quotes and what it is reverted to have the same places. -/
theorem IsStandard.exists_cut (hl : l.IsStandard) {t : Text} (ht : '\'' ∉ t) :
    ∃ segs, l.Places segs ∧ t = Segment.join (fun i => l.format.token (i + 1)) segs ∧
      l.revert t = Segment.join l.valueAt segs := by
  obtain ⟨segs, hheld, rfl, hrevert⟩ := exists_places hl.lead_ne_nil l.values.length t
  rw [Segment.mem_join, not_or] at ht
  exact ⟨segs, ⟨hheld, ht.1⟩, rfl, hrevert l ⟨rfl, rfl⟩⟩

namespace Places

variable {segs A B : List (Segment Nat)} {x y w z arg : Text} {c : Char}

theorem left (h : l.Places (A ++ B)) : l.Places A :=
  ⟨fun i hi => h.held i (by simp [hi]), fun hmem => h.unquoted (by simp [hmem])⟩

theorem right (h : l.Places (A ++ B)) : l.Places B :=
  ⟨fun i hi => h.held i (by simp [hi]), fun hmem => h.unquoted (by simp [hmem])⟩

/-- The quotes of what is shown come in pairs. -/
theorem count_even (h : l.Places segs) (hvalues : l.Quoted) :
    (Segment.join l.valueAt segs).count '\'' % 2 = 0 := by
  induction segs with
  | nil => rfl
  | cons s segs ih =>
    have hrest := ih (right (A := [s]) h)
    cases s with
    | plain c =>
      have hc : c ≠ '\'' := by
        rintro rfl
        exact h.unquoted List.mem_cons_self
      rwa [Segment.join_plain, List.count_cons_of_ne hc]
    | span i =>
      have hvalue := hvalues _ (valueAt_mem (h.held i (by simp)))
      have hcount := (isQuoted_of_outsideQuotes hvalue.2).2
      rw [Segment.join_span, List.count_append]
      omega

/-- A character outside the quotes of what is shown stands in the held text. -/
theorem split_char (h : l.Places segs) (hvalues : l.Quoted) (hc : c ≠ '\'')
    (hx : x.count '\'' % 2 = 0) (hjoin : Segment.join l.valueAt segs = x ++ c :: y) :
    ∃ A B, segs = A ++ .plain c :: B ∧ x = Segment.join l.valueAt A ∧
      y = Segment.join l.valueAt B := by
  rcases Segment.split_join_at hjoin with hplain | ⟨A, i, B, p, q, rfl, hvalue, rfl, -⟩
  · exact hplain
  · -- it would stand outside the quotes of a value
    exfalso
    have heven := h.left.count_even hvalues
    rw [List.count_append] at hx
    have hnone := (hvalues _ (valueAt_mem (h.held i (by simp)))).2
    rw [hvalue, outsideQuotes_append (by omega), outsideQuotes_cons hc] at hnone
    simp at hnone

/-- A stretch without quotes stands in the held text. -/
theorem split_stretch (h : l.Places segs) (hvalues : l.Quoted) (hw : '\'' ∉ w)
    (hjoin : Segment.join l.valueAt segs = w ++ y) :
    ∃ B, segs = w.map .plain ++ B ∧ y = Segment.join l.valueAt B := by
  refine Segment.split_join_start (fun i hi => ?_) hjoin
  obtain ⟨hne, hnone⟩ := hvalues _ (valueAt_mem (h.held i hi))
  obtain ⟨rest, hrest⟩ := exists_quote_of_outsideQuotes hne hnone
  exact ⟨'\'', rest, hrest, hw⟩

/-- A stretch without quotes that stands outside quotes stands in the held text. -/
theorem split_outside (h : l.Places segs) (hvalues : l.Quoted) (hne : w ≠ []) (hw : '\'' ∉ w)
    (hx : x.count '\'' % 2 = 0) (hjoin : Segment.join l.valueAt segs = x ++ (w ++ y)) :
    ∃ A B, segs = A ++ (w.map .plain ++ B) ∧ x = Segment.join l.valueAt A ∧
      y = Segment.join l.valueAt B := by
  obtain ⟨c, w, rfl⟩ := List.exists_cons_of_ne_nil hne
  rw [List.mem_cons, not_or] at hw
  obtain ⟨A, B, rfl, rfl, hB⟩ := h.split_char hvalues (Ne.symm hw.1) hx hjoin
  obtain ⟨B, rfl, rfl⟩ := Places.split_stretch (h.right.right (A := [.plain c])) hvalues hw.2 hB.symm
  exact ⟨A, B, rfl, rfl, rfl⟩

/-- Quoted spans and nothing else are values side by side. -/
theorem split_quoted (h : l.Places segs) (hvalues : l.Quoted) (harg : outsideQuotes arg = [])
    (hz : z.head? ≠ some '\'') (hjoin : Segment.join l.valueAt segs = arg ++ z) :
    ∃ is B, segs = is.map .span ++ B ∧ arg = l.valueRun is ∧ z = Segment.join l.valueAt B := by
  induction segs generalizing arg with
  | nil =>
    obtain ⟨rfl, rfl⟩ := List.append_eq_nil_iff.mp hjoin.symm
    exact ⟨[], [], rfl, rfl, rfl⟩
  | cons s segs ih =>
    by_cases hnil : arg = []
    · exact ⟨[], s :: segs, rfl, hnil, by simpa [hnil] using hjoin.symm⟩
    obtain ⟨rest, rfl⟩ := exists_quote_of_outsideQuotes hnil harg
    cases s with
    | plain c =>
      obtain ⟨rfl, -⟩ := List.cons.inj hjoin
      exact absurd List.mem_cons_self h.unquoted
    | span i =>
      have hvalue := (hvalues _ (valueAt_mem (h.held i (by simp)))).2
      rw [Segment.join_span] at hjoin
      rcases List.append_eq_append_iff.mp hjoin with ⟨v, hv, hrest⟩ | ⟨v, hv, hrest⟩
      · rw [hv, (isQuoted_of_outsideQuotes hvalue).1] at harg
        obtain ⟨is, B, rfl, rfl, rfl⟩ := ih (right (A := [.span i]) h) harg hrest
        exact ⟨i :: is, B, rfl, by rw [hv]; rfl, rfl⟩
      · -- what the value has more stands behind the quoted spans, so there is nothing
        cases v with
        | nil =>
          rw [List.append_nil] at hv
          exact ⟨[i], segs, rfl, by simp [valueRun, hv], by simpa using hrest⟩
        | cons c v =>
          exfalso
          have hc : c ≠ '\'' := by
            rintro rfl
            simp [hrest] at hz
          rw [hv, (isQuoted_of_outsideQuotes harg).1, outsideQuotes_cons hc] at hvalue
          simp at hvalue

end Places

end Ledger

end MutationPreview
