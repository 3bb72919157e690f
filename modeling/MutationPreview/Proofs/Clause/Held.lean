import MutationPreview.Proofs.Clause.Plain
import MutationPreview.Proofs.Held.Spans

/-!
# Plain clauses in held text

Holding the literals of a plain clause writes a token for each of them
(`PlainClause.mapLiterals_text`), which is a word that no pattern looks for (`Value.isPlainWord_held`).
Reverting puts the literals back, comparison by comparison (`PlainClause.revert_text`).
-/

namespace MutationPreview

open Pattern Ledger

/-! ## Closed texts -/

/-- Whether the quotes of a text are closed and no terminator stands outside them. -/
structure IsClosed (t : Text) : Prop where
  even : t.count '\'' % 2 = 0
  unended : ';' ∉ outsideQuotes t

namespace IsClosed

theorem append {a b : Text} (ha : IsClosed a) (hb : IsClosed b) : IsClosed (a ++ b) where
  even := by
    rw [List.count_append, Nat.add_mod, ha.even, hb.even]
  unended := by
    rw [outsideQuotes_append ha.even]
    simp [ha.unended, hb.unended]

theorem of_notMem {t : Text} (hquote : '\'' ∉ t) (hend : ';' ∉ t) : IsClosed t where
  even := by rw [List.count_eq_zero.mpr hquote]
  unended hmem := hend ((outsideQuotes_sublist t).subset hmem)

theorem inQuotes {content : Text} (h : '\'' ∉ content) : IsClosed (inQuotes content) where
  even := by rw [count_inQuotes h]
  unended := by
    have houtside := outsideQuotes_inQuotes_append h []
    rw [List.append_nil] at houtside
    simp [houtside]

end IsClosed

theorem Value.isClosed_text (v : Value) : IsClosed v.text := by
  cases v with
  | number digits h =>
    exact .of_notMem (fun hmem => absurd (h.2 _ hmem) (by decide))
      (fun hmem => absurd (h.2 _ hmem) (by decide))
  | literal content h => exact .inQuotes fun hmem => absurd (h _ hmem) (by decide)

theorem IsClosed.of_isClauseChar {t : Text} (h : ∀ c ∈ t, isClauseChar c = true) : IsClosed t :=
  .of_notMem (fun hmem => absurd (h _ hmem) (by decide)) (fun hmem => absurd (h _ hmem) (by decide))

theorem PlainClause.isClosed_text (c : PlainClause) : IsClosed (c.text ' ' Value.text) :=
  text_all (fun _ _ => .append) (fun _ => .of_isClauseChar) (fun p _ => p.value.isClosed_text)
    (.of_notMem (by decide) (by decide))

/-! ## Held values -/

namespace Value

/-- The literals of a value: itself, or none. -/
def literals : Value → List Text
  | number _ _ => []
  | literal content _ => [inQuotes content]

/-- A value has no line breaks and no typographic quotes. -/
theorem notMem_text {x : Char} (hx : x ∈ ['\r', '\n', '’']) (v : Value) : x ∉ v.text := by
  cases v with
  | number digits h =>
    intro hmem
    have hdigit : ∀ x ∈ ['\r', '\n', '’'], x.isDigit = false := by decide
    have hx := hdigit x hx
    rw [h.2 x hmem] at hx
    cases hx
  | literal content h =>
    intro hmem
    simp only [text, inQuotes, List.mem_cons, List.mem_append, List.not_mem_nil, or_false] at hmem
    rcases hmem with rfl | hmem | rfl
    · exact absurd hx (by decide)
    · exact h x hmem (List.mem_cons_of_mem _ hx)
    · exact absurd hx (by decide)

theorem quotedSpans_text (v : Value) (t : Text) :
    quotedSpans (v.text ++ t) = v.literals ++ quotedSpans t := by
  cases v with
  | number digits h =>
    exact quotedSpans_append_of_notMem (fun hmem => absurd (h.2 _ hmem) (by decide)) t
  | literal content h =>
    exact quotedSpans_inQuotes_append (fun hmem => absurd (h _ hmem) (by decide)) t

/-- In held text, values are plain words. -/
theorem isPlainWord_held {l : Ledger} (hl : l.IsStandard) (v : Value) : IsPlainWord (v.held l) := by
  cases v with
  | number digits h =>
    obtain ⟨c, rest, rfl⟩ := List.exists_cons_of_ne_nil h.1
    refine isPlainWord_of_head (fun d hd => Ledger.isWord_of_isDigit (h.2 d hd)) ?_
    have hdigits : ∀ n < 128, (Char.ofNat n).isDigit = true →
        ∀ x ∈ "waofjut".toList, sameLetter x (Char.ofNat n) = false := by decide
    have hc := hdigits c.toNat
    rw [Char.ofNat_toNat] at hc
    exact hc (toNat_of_isNameChar (by simp [isNameChar, Char.isAlphanum, h.2 c (by simp)]))
      (h.2 c (by simp))
  | literal content h =>
    have hmark : l.IsMark (l.tokenOf (inQuotes content)) := Or.inr ⟨_, rfl⟩
    have hword : ∀ c ∈ l.tokenOf (inQuotes content), isWord c = true := fun c hc =>
      hl.isWord_of_mem hmark hc
    obtain ⟨rest, hrest⟩ : ∃ rest, l.tokenOf (inQuotes content) = 'S' :: rest := by
      obtain ⟨k, hformat⟩ := hl.exists_format
      rw [Ledger.tokenOf, TokenFormat.token, hformat]
      exact ⟨_, rfl⟩
    rw [hrest] at hword
    rw [held, hrest]
    exact isPlainWord_of_head hword (by decide)

/-- Reverting puts the literal back for its token, also when more has been held since. -/
theorem revert_held {l l' : Ledger} (hl : l'.IsStandard) (hmore : l.Extends l') {v : Value}
    (hv : ∀ u ∈ v.literals, u ∈ l.values) : l'.revert (v.held l) = v.text := by
  cases v with
  | number digits h =>
    obtain ⟨k, hformat⟩ := hl.exists_format
    refine revert_of_absent fun hwithin => ?_
    have hletter : 'S' ∈ digits := hwithin.subset (by simp [hformat])
    exact absurd (h.2 _ hletter) (by decide)
  | literal content h =>
    have hmem := hv (inQuotes content) (by simp [literals])
    have hvalue := List.getElem?_idxOf (hmore.values.subset hmem)
    have hclear : ¬ l'.Overread (l'.values.idxOf (inQuotes content)) [] := by
      rintro ⟨ds, j, hne, -, hpre, -⟩
      rw [hl.trail_eq] at hpre
      simp [hne] at hpre
    have htoken := substitute_token hvalue hclear
    rw [List.append_nil, Text.substitute_nil, List.append_nil] at htoken
    rw [held, ← hmore.tokenOf_eq hmem, revert_eq_substitute hl.lead_ne_nil]
    exact htoken

end Value

namespace PlainClause

variable {c : PlainClause} {l l' : Ledger} {gap : Char}

/-- Holding the literals of a clause writes their tokens. -/
theorem mapLiterals_text (l : Ledger) (t : Text) :
    mapLiterals l.tokenOf (c.text ' ' Value.text ++ t) =
      c.text ' ' (Value.held l) ++ mapLiterals l.tokenOf t := by
  refine text_rel Value.text (Value.held l)
    (Q := fun a b => ∀ t, mapLiterals l.tokenOf (a ++ t) = b ++ mapLiterals l.tokenOf t)
    ?_ ?_ ?_ (mapLiterals_cons _ (by decide)) t
  · intro a a' b b' ha hb t
    rw [List.append_assoc, ha, hb, List.append_assoc]
  · intro u hu t
    exact mapLiterals_append_of_notMem _ (fun hmem => absurd (hu _ hmem) (by decide)) t
  · intro p _ t
    cases p.value with
    | number digits h =>
      exact mapLiterals_append_of_notMem _ (fun hmem => absurd (h.2 _ hmem) (by decide)) t
    | literal content h =>
      exact mapLiterals_inQuotes_append _ (fun hmem => absurd (h _ hmem) (by decide)) t

/-- What stands before a comparison in its clause is closed. -/
theorem exists_split {q : Comparison} (hq : q ∈ c.comparisons) :
    ∃ a b, c.text ' ' Value.text = a ++ (q.text Value.text ++ b) ∧ IsClosed a := by
  have hcomparison : ∀ p : Comparison, IsClosed (p.text Value.text) := by
    intro p
    rw [p.text_eq]
    exact .append (.of_isClauseChar p.isClauseChar_of_mem_front) p.value.isClosed_text
  have hmore : ∀ {more : List (Connective × Comparison)}, q ∈ more.map Prod.snd →
      ∃ a b, textOfMore ' ' Value.text more = a ++ (q.text Value.text ++ b) ∧ IsClosed a := by
    intro more hq
    induction more with
    | nil => simp at hq
    | cons entry more ih =>
      obtain ⟨k, p⟩ := entry
      have hfront : IsClosed (' ' :: (k.text ++ [' '])) :=
        .of_isClauseChar (by cases k <;> decide)
      rw [List.map_cons, List.mem_cons] at hq
      rcases hq with rfl | hq
      · exact ⟨_, textOfMore ' ' Value.text more, by simp [textOfMore], hfront⟩
      · obtain ⟨a, b, htext, ha⟩ := ih hq
        exact ⟨_, b, by simp [textOfMore, htext], (hfront.append (hcomparison p)).append ha⟩
  rw [comparisons, List.mem_cons] at hq
  rcases hq with rfl | hq
  · exact ⟨[], _, rfl, .of_notMem (by simp) (by simp)⟩
  · obtain ⟨a, b, htext, ha⟩ := hmore hq
    exact ⟨_, b, by rw [text, htext, List.append_assoc], (hcomparison c.first).append ha⟩

/-- The literals of a clause are quoted spans of the statement. -/
theorem mem_quotedSpans {q : Comparison} (hq : q ∈ c.comparisons) {u : Text}
    (hu : u ∈ q.value.literals) (t : Text) : u ∈ quotedSpans (c.text ' ' Value.text ++ t) := by
  obtain ⟨a, b, htext, ha⟩ := exists_split hq
  have hfront : '\'' ∉ q.front := fun hmem =>
    absurd (q.isClauseChar_of_mem_front _ hmem) (by decide)
  rw [htext, q.text_eq, List.append_assoc, List.append_assoc, List.append_assoc,
    quotedSpans_append ha.even, quotedSpans_append_of_notMem hfront, Value.quotedSpans_text]
  simp [hu]

theorem infix_text {q : Comparison} (hq : q ∈ c.comparisons) :
    q.column.text <:+: c.text ' ' Value.text := by
  obtain ⟨a, b, htext, -⟩ := exists_split hq
  rw [htext]
  exact ⟨a, _, by rw [Comparison.text, List.append_assoc, List.append_assoc]⟩

theorem revert_comparison (hl : l'.IsStandard) (hmore : l.Extends l') {q : Comparison}
    (hheld : ∀ u ∈ q.value.literals, u ∈ l.values)
    (habsent : ¬ l'.format.lead <:+: q.column.text) :
    l'.revert (q.text (Value.held l)) = q.text Value.text := by
  have hspace : EndsToken ' ' := by decide
  have hoperator : l'.revert q.operator.text = q.operator.text := by
    obtain ⟨k, hformat⟩ := hl.exists_format
    refine revert_of_absent fun hwithin => ?_
    have hletter : 'S' ∈ q.operator.text := hwithin.subset (by simp [hformat])
    exact absurd (q.operator.separates _ hletter).1 (by decide)
  rw [Comparison.text, hl.revert_cut hspace, hl.revert_cut hspace, revert_of_absent habsent, hoperator,
    Value.revert_held hl hmore hheld]
  rfl

/-- Reverting a clause puts its literals back, whatever gap stands before its connectives. -/
theorem revert_text {write : Value → Text} (hl : l.IsStandard)
    (hrevert : ∀ q ∈ c.comparisons, l.revert (q.text write) = q.text Value.text)
    (hgap : EndsToken gap) :
    l.revert (c.text gap write ++ [';']) = c.text gap Value.text ++ [';'] := by
  have hspace : EndsToken ' ' := by decide
  have hfront : ∀ {e : Char}, EndsToken e → ∀ t, l.revert (e :: t) = e :: l.revert t := by
    intro e he t
    have hone : ∀ c ∈ [e], EndsToken c := by simpa using he
    exact hl.revert_front hone t
  -- what stands behind a comparison starts with a character that ends a token
  have hstart : ∀ more : List (Connective × Comparison),
      ∃ e t, textOfMore gap write more ++ [';'] = e :: t ∧ EndsToken e := by
    intro more
    cases more with
    | nil => exact ⟨';', [], rfl, by decide⟩
    | cons entry more => exact ⟨gap, _, rfl, hgap⟩
  have hcomparison : ∀ (q : Comparison) (more : List (Connective × Comparison)),
      l.revert (q.text write) = q.text Value.text →
      l.revert (q.text write ++ (textOfMore gap write more ++ [';'])) =
        q.text Value.text ++ l.revert (textOfMore gap write more ++ [';']) := by
    intro q more hq
    obtain ⟨e, t, htext, he⟩ := hstart more
    rw [htext, hl.revert_cut he, hfront he, hq]
  have hmore : ∀ more : List (Connective × Comparison),
      (∀ q ∈ more.map Prod.snd, l.revert (q.text write) = q.text Value.text) →
      l.revert (textOfMore gap write more ++ [';']) = textOfMore gap Value.text more ++ [';'] := by
    intro more hall
    induction more with
    | nil =>
      have hend : EndsToken ';' := by decide
      exact (hfront hend []).trans (by rw [Ledger.revert_nil]; rfl)
    | cons entry more ih =>
      obtain ⟨k, q⟩ := entry
      rw [List.map_cons, List.forall_mem_cons] at hall
      have hconnective : l.revert k.text = k.text := by
        have hends : ∀ c ∈ k.text, EndsToken c := by cases k <;> decide
        have hself := hl.revert_front hends []
        rwa [Ledger.revert_nil, List.append_nil] at hself
      have htext : textOfMore gap write ((k, q) :: more) ++ [';'] =
          gap :: (k.text ++ ' ' :: (q.text write ++ (textOfMore gap write more ++ [';']))) := by
        simp [textOfMore]
      rw [htext, hfront hgap, hl.revert_cut hspace, hconnective, hcomparison q more hall.1, ih hall.2]
      simp [textOfMore]
  rw [comparisons, List.forall_mem_cons] at hrevert
  rw [text, List.append_assoc, hcomparison _ _ hrevert.1, hmore _ hrevert.2, text, List.append_assoc]

end PlainClause

end MutationPreview
