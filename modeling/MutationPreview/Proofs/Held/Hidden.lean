import MutationPreview.Proofs.Clause.Words
import MutationPreview.Proofs.Held.Literals
import MutationPreview.Proofs.Ledger.Cut

/-!
# Held texts with their literals hidden

A token stands for a literal and is no quote, so what lies outside literals can be seen in a held
text too: `Ledger.hidden` puts one quote in place of each token. Blanks and connectives are the
same before and after (`IsStandard.keepsWords`).

Main statement: hiding the literals of a reverted text is the same as reverting it to hidden
literals (`IsStandard.hideLiterals_revert`), provided that a quote which nothing closes comes
after all tokens.
-/

namespace MutationPreview

open Pattern

theorem isDigit_of_isBlank {c : Char} (h : isBlank c = true) : c.isDigit = false := by
  rw [Bool.eq_false_iff]
  intro hdigit
  obtain ⟨hchar, hlt⟩ := Text.digitChar_toNat_sub hdigit
  have hall : ∀ n < 10, isBlank (Nat.digitChar n) = false := by decide
  have hblank := hall _ hlt
  rw [hchar, h] at hblank
  simp at hblank

namespace Ledger

/-- The ledger with one quote for every value. -/
def hidden (l : Ledger) : Ledger := { l with values := l.values.map fun _ => ['\''] }

theorem hidden_hasTokens (l : Ledger) : l.hidden.HasTokens l.format l.values.length :=
  ⟨rfl, by simp [hidden]⟩

theorem valueAt_hidden {l : Ledger} {i : Nat} (hi : i < l.values.length) :
    l.hidden.valueAt i = ['\''] := by
  simp [hidden, valueAt, hi]

/-- A text reverted with and without its literals, at the same places. -/
theorem exists_hidden {l : Ledger} (hlead : l.format.lead ≠ []) (t : Text) :
    ∃ segs : List (Segment Nat), (∀ i ∈ Segment.spans segs, i < l.values.length) ∧
      Segment.join (fun i => l.format.token (i + 1)) segs = t ∧
      l.revert t = Segment.join l.valueAt segs ∧
      l.hidden.revert t = Segment.join (fun _ => ['\'']) segs := by
  obtain ⟨segs, hspans, htext, hrevert⟩ := exists_places hlead l.values.length t
  refine ⟨segs, hspans, htext, hrevert l ⟨rfl, rfl⟩, ?_⟩
  rw [hrevert l.hidden l.hidden_hasTokens]
  exact Segment.join_congr fun i hi => valueAt_hidden (hspans i hi)

/-! ## Tokens of literals -/

theorem IsStandard.lead_ne_nil {l : Ledger} (h : l.IsStandard) : l.format.lead ≠ [] := by
  obtain ⟨k, hk⟩ := h.exists_format
  simp [hk]

theorem IsStandard.trail_eq {l : Ledger} (h : l.IsStandard) : l.format.trail = [] := by
  obtain ⟨k, hk⟩ := h.exists_format
  rw [hk]

theorem IsStandard.mem_lead {l : Ledger} (h : l.IsStandard) {c : Char} (hc : c ∈ l.format.lead) :
    c ∈ "STR_".toList := by
  obtain ⟨k, hk⟩ := h.exists_format
  rw [hk, List.mem_append, List.mem_replicate] at hc
  rcases hc with hc | ⟨-, rfl⟩
  · exact hc
  · decide

theorem IsStandard.letter_mem_lead {l : Ledger} (h : l.IsStandard) : 'T' ∈ l.format.lead := by
  obtain ⟨k, hk⟩ := h.exists_format
  simp [hk]

theorem IsStandard.hidden {l : Ledger} (h : l.IsStandard) : l.hidden.IsStandard := h

/-- Whether a character ends every token before it. -/
def EndsToken (c : Char) : Prop := c ∉ "STR_".toList ∧ c.isDigit = false

instance : DecidablePred EndsToken := fun c =>
  inferInstanceAs (Decidable (c ∉ "STR_".toList ∧ c.isDigit = false))

theorem endsToken_of_isBlank {c : Char} (h : isBlank c = true) : EndsToken c := by
  refine ⟨?_, isDigit_of_isBlank h⟩
  intro hc
  have hall : ∀ c ∈ "STR_".toList, isBlank c = false := by decide
  rw [hall c hc] at h
  simp at h

theorem endsToken_of_isClauseEdge {c : Char} (h : isClauseEdge c = true) : EndsToken c := by
  simp only [isClauseEdge, Bool.or_eq_true, beq_iff_eq] at h
  rcases h with rfl | rfl <;> exact ⟨by decide, by decide⟩

section Cut

variable {l : Ledger} (h : l.IsStandard)

include h

theorem IsStandard.revert_cut {c : Char} (hc : EndsToken c) (a rest : Text) :
    l.revert (a ++ c :: rest) = l.revert a ++ c :: l.revert rest :=
  revert_append_cons h.lead_ne_nil h.trail_eq (fun hmem => hc.1 (h.mem_lead hmem)) hc.2 a rest

theorem IsStandard.revert_front {front : Text} (hfront : ∀ c ∈ front, EndsToken c) (t : Text) :
    l.revert (front ++ t) = front ++ l.revert t := by
  induction front with
  | nil => rfl
  | cons c front ih =>
    have hcut := h.revert_cut (hfront c List.mem_cons_self) [] (front ++ t)
    rw [List.nil_append, revert_nil, List.nil_append] at hcut
    rw [List.cons_append, hcut, ih fun d hd => hfront d (List.mem_cons_of_mem _ hd)]
    rfl

theorem IsStandard.revert_back {back : Text} (hback : ∀ c ∈ back, EndsToken c) (t : Text) :
    l.revert (t ++ back) = l.revert t ++ back := by
  cases back with
  | nil => simp
  | cons c back =>
    have hnone := h.revert_front (fun d hd => hback d (List.mem_cons_of_mem _ hd)) []
    rw [List.append_nil, revert_nil, List.append_nil] at hnone
    rw [h.revert_cut (hback c List.mem_cons_self), hnone]

/-- Hiding literals leaves blanks and connectives as they are. -/
theorem IsStandard.keepsWords : KeepsWords l.hidden.revert where
  nil := revert_nil _
  cut a b rest hb := h.hidden.revert_cut (endsToken_of_isBlank hb) a rest
  word w hw c hc := by
    obtain ⟨segs, -, htext, -, hhidden⟩ := exists_hidden h.lead_ne_nil w
    rw [hhidden, Segment.mem_join] at hc
    rcases hc with hc | ⟨i, -, hc⟩
    · apply hw
      rw [← htext, Segment.mem_join]
      exact Or.inl hc
    · rw [List.mem_singleton.mp hc]
      decide
  keeps w hw := by
    apply revert_of_absent
    intro hwithin
    have hletter := mem_connectiveLetters hw (hwithin.subset h.letter_mem_lead)
    exact absurd hletter (by decide)
  reflects w hw := by
    obtain ⟨segs, -, htext, -, hhidden⟩ := exists_hidden h.lead_ne_nil w
    have hspans : Segment.spans segs = [] := by
      rw [List.eq_nil_iff_forall_not_mem]
      intro i hi
      have hquote : '\'' ∈ l.hidden.revert w := by
        rw [hhidden, Segment.mem_join]
        exact Or.inr ⟨i, hi, List.mem_singleton_self _⟩
      exact absurd (mem_connectiveLetters hw hquote) (by decide)
    rw [hhidden, ← htext, Segment.eq_map_plain (fun _ => []) hspans, Segment.join_map_plain,
      Segment.join_map_plain]

end Cut

/-! ## Hiding the literals of a reverted text -/

/-- Whether a quote in a held text comes after all tokens and all other quotes. -/
def QuoteLast (lead t : Text) : Prop := ∀ a b, t = a ++ '\'' :: b → '\'' ∉ b ∧ ¬ lead <:+: b

theorem QuoteLast.stretch {lead t u : Text} (h : QuoteLast lead t) (hstretch : u <:+: t) :
    QuoteLast lead u := by
  rintro a b rfl
  obtain ⟨x, y, rfl⟩ := hstretch
  obtain ⟨hquote, hlead⟩ := h (x ++ a) (b ++ y) (by simp)
  exact ⟨fun hmem => hquote (List.mem_append_left _ hmem),
    fun hb => hlead (hb.trans (List.prefix_append _ _).isInfix)⟩

/-- Behind a quote that comes last there is no token. -/
theorem QuoteLast.spans_eq_nil {f : TokenFormat} {segs : List (Segment Nat)}
    (h : QuoteLast f.lead ('\'' :: Segment.join (fun i => f.token (i + 1)) segs)) :
    Segment.spans segs = [] := by
  rw [List.eq_nil_iff_forall_not_mem]
  intro i hi
  have htoken := Segment.infix_join (fun i => f.token (i + 1)) hi
  have hlead : f.lead <:+: f.token (i + 1) := by
    rw [TokenFormat.token, List.append_assoc]
    exact (List.prefix_append _ _).isInfix
  exact (h [] _ rfl).2 (hlead.trans htoken)

theorem IsStandard.hideLiterals_revert {l : Ledger} (h : l.IsStandard)
    (hvalues : ∀ v ∈ l.values, ∃ content, '\'' ∉ content ∧ v = inQuotes content) {t : Text}
    (hlast : QuoteLast l.format.lead t) : hideLiterals (l.revert t) = l.hidden.revert t := by
  obtain ⟨segs, hspans, rfl, hrevert, hhidden⟩ := exists_hidden h.lead_ne_nil t
  rw [hrevert, hhidden]
  clear hrevert hhidden
  induction segs with
  | nil => simp
  | cons s segs ih =>
    have htail : QuoteLast l.format.lead
        (Segment.join (fun i => l.format.token (i + 1)) segs) := by
      refine hlast.stretch ?_
      rw [← List.singleton_append, Segment.join_append]
      exact (List.suffix_append _ _).isInfix
    have hrest := ih (fun i hi => hspans i (by cases s <;> simp [hi])) htail
    cases s with
    | plain c =>
      by_cases hc : c = '\''
      · subst hc
        have hnone := hlast.spans_eq_nil
        have hquote := (hlast [] _ rfl).1
        rw [Segment.join_plain, hideLiterals_unclosed ?_, hrest, Segment.join_plain]
        rw [Segment.eq_map_plain (fun i => l.format.token (i + 1)) hnone, Segment.join_map_plain]
        exact hquote
      · rw [Segment.join_plain, hideLiterals_cons hc, hrest, Segment.join_plain]
    | span i =>
      obtain ⟨content, hcontent, hvalue⟩ := hvalues _ (valueAt_mem (hspans i (by simp)))
      rw [Segment.join_span, hvalue, hideLiterals_inQuotes_append hcontent, hrest,
        Segment.join_span]
      rfl

end Ledger

end MutationPreview
