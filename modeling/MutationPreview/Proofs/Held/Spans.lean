import MutationPreview.Proofs.Held.Hidden
import MutationPreview.Proofs.Ledger.Cut
import MutationPreview.Proofs.Text.Spans
import MutationPreview.Proofs.Tidy.Steps

/-!
# The literals of a held text

`Held.spansIn` lists the quoted spans that stand in a text once its subqueries and literals are put
back. Tokens are made of word characters, those of subqueries in brackets, so a text may be cut
behind any other character (`Held.Sound.putBack_append`), and the spans are those of the pieces.

Main statement: setting the text in lines leaves the spans as they are (`Held.Sound.spansIn_layOut`).
-/

namespace MutationPreview

open Pattern Ledger

/-! ## Boundaries that no token lies across -/

namespace Ledger

variable {l : Ledger} {a b : Text}

/-- The lead or a token of a ledger. -/
def IsMark (l : Ledger) (u : Text) : Prop := u = l.format.lead ∨ ∃ i, u = l.format.token (i + 1)

/-- A text may be cut where no token goes on: behind a character `c` of it, with `y` next. -/
theorem cutsAt_of_not_across (h : ∀ z c y w, l.IsMark (z ++ c :: y :: w) → a.getLast? = some c →
    ¬ y :: w <+: b) : l.CutsAt a b := by
  have hacross : ∀ u, l.IsMark u → ∀ x z, a = x ++ z → z ≠ [] → u <+: z ++ b → u <+: z := by
    intro u hu x z ha hz hpre
    rcases Text.prefix_append_cases hpre with hle | ⟨w, hw, hbehind, rfl⟩
    · exact hle
    · obtain ⟨y, w, rfl⟩ := List.exists_cons_of_ne_nil hw
      rcases List.eq_nil_or_concat z with rfl | ⟨z, c, rfl⟩
      · exact absurd rfl hz
      · rw [List.concat_eq_append] at ha hu
        exact absurd hbehind (h z c y w (by simpa using hu) (by simp [ha, ← List.append_assoc]))
  intro x z ha hz
  exact ⟨hacross _ (Or.inl rfl) x z ha hz, fun i _ => hacross _ (Or.inr ⟨i, rfl⟩) x z ha hz⟩

/-- A text without the first character of the lead starts no token. -/
theorem cutsAt_of_notMem {o : Char} {lead : Text} (hlead : l.format.lead = o :: lead)
    (ho : o ∉ a) : l.CutsAt a b := by
  intro x z ha hz
  obtain ⟨d, z, rfl⟩ := List.exists_cons_of_ne_nil hz
  have hne : o ≠ d := by
    rintro rfl
    exact ho (by simp [ha])
  constructor
  · rw [hlead]
    intro hpre
    exact absurd (List.cons_prefix_cons.mp hpre).1 hne
  · intro i _ hpre
    rw [TokenFormat.token, hlead] at hpre
    exact absurd (List.cons_prefix_cons.mp hpre).1 hne

theorem isWord_of_isDigit {c : Char} (h : c.isDigit = true) : isWord c = true := by
  obtain ⟨hchar, hlt⟩ := Text.digitChar_toNat_sub h
  have hall : ∀ n < 10, isWord (Nat.digitChar n) = true := by decide
  have hword := hall _ hlt
  rwa [hchar] at hword

/-- Tokens of literals are made of word characters. -/
theorem IsStandard.isWord_of_mem (h : l.IsStandard) {u : Text} (hu : l.IsMark u) {c : Char}
    (hc : c ∈ u) : isWord c = true := by
  have hletters : ∀ c ∈ "STR_".toList, isWord c = true := by decide
  rcases hu with rfl | ⟨i, rfl⟩
  · exact hletters c (h.mem_lead hc)
  · rw [TokenFormat.mem_token, h.trail_eq] at hc
    rcases hc with hc | hc | hc
    · exact hletters c (h.mem_lead hc)
    · exact isWord_of_isDigit (Text.isDigit_of_mem_ofNat hc)
    · simp at hc

/-- Beside a character that is no part of a word, no token of a literal goes on. -/
theorem IsStandard.cutsAt (h : l.IsStandard)
    (hedge : a.getLast?.any isWord = false ∨ b.head?.any isWord = false) : l.CutsAt a b := by
  refine cutsAt_of_not_across fun z c y w hmark hlast hpre => ?_
  have hc := h.isWord_of_mem hmark (c := c) (by simp)
  have hy := h.isWord_of_mem hmark (c := y) (by simp)
  obtain ⟨rest, rfl⟩ := hpre
  rcases hedge with hedge | hedge
  · simp [hlast, hc] at hedge
  · simp [hy] at hedge

/-- The tokens of subqueries under the default configuration, with the lead lengthened. -/
def IsBracketed (l : Ledger) (k : Nat) : Prop :=
  l.format = ⟨"(SUB_".toList ++ List.replicate k '_', ")".toList⟩

theorem isWord_of_mem_subLead {k : Nat} {c : Char}
    (hc : c ∈ "SUB_".toList ++ List.replicate k '_') : isWord c = true := by
  have hletters : ∀ c ∈ "SUB_".toList, isWord c = true := by decide
  rcases List.mem_append.mp hc with hc | hc
  · exact hletters c hc
  · rw [List.eq_of_mem_replicate hc]
    decide

/-- A token of a subquery is a word between brackets, and its lead has no closing bracket. -/
theorem IsBracketed.exists_word {k : Nat} (h : l.IsBracketed k) {u : Text} (hu : l.IsMark u) :
    ∃ v tail, u = '(' :: (v ++ tail) ∧ "SUB_".toList <+: v ∧ (∀ c ∈ v, isWord c = true) ∧
      (tail = [] ∨ tail = [')']) := by
  rcases hu with rfl | ⟨i, rfl⟩
  · refine ⟨"SUB_".toList ++ List.replicate k '_', [], ?_, List.prefix_append _ _,
      fun c hc => isWord_of_mem_subLead hc, Or.inl rfl⟩
    rw [h, List.append_nil]
    rfl
  · refine ⟨"SUB_".toList ++ (List.replicate k '_' ++ Text.ofNat (i + 1)), [')'], ?_,
      List.prefix_append _ _, ?_, Or.inr rfl⟩
    · rw [h, TokenFormat.token]
      simp
    · intro c hc
      rw [← List.append_assoc] at hc
      rcases List.mem_append.mp hc with hc | hc
      · exact isWord_of_mem_subLead hc
      · exact isWord_of_isDigit (Text.isDigit_of_mem_ofNat hc)

/-- A held token is a word that starts with `S`, in brackets. -/
theorem IsBracketed.exists_word_of_holds {k : Nat} (h : l.IsBracketed k) {w : Text}
    (hw : l.holds w = true) : ∃ v, w = '(' :: ('S' :: v ++ [')']) ∧ ∀ c ∈ 'S' :: v, isWord c = true := by
  obtain ⟨i, -, rfl⟩ := holds_iff.mp hw
  refine ⟨"UB_".toList ++ (List.replicate k '_' ++ Text.ofNat (i + 1)), ?_, ?_⟩
  · rw [h, TokenFormat.token]
    simp
  · have hletters : ∀ c ∈ "SUB_".toList, isWord c = true := by decide
    have hlead : 'S' :: ("UB_".toList ++ (List.replicate k '_' ++ Text.ofNat (i + 1))) =
        "SUB_".toList ++ (List.replicate k '_' ++ Text.ofNat (i + 1)) := rfl
    rw [hlead]
    simp only [List.forall_mem_append]
    refine ⟨hletters, fun c hc => ?_, fun c hc => isWord_of_isDigit (Text.isDigit_of_mem_ofNat hc)⟩
    rw [List.eq_of_mem_replicate hc]
    decide

/-- What stands in a token of a subquery before its last character: a bracket and word characters. -/
theorem IsBracketed.cases_of_mark {k : Nat} (h : l.IsBracketed k) {z w : Text} {c y : Char}
    (hmark : l.IsMark (z ++ c :: y :: w)) :
    (z = [] ∧ c = '(' ∧ "SUB_".toList <+: y :: w ∧ isWord y = true) ∨
      isWord c = true ∧ (isWord y = true ∨ y = ')') := by
  obtain ⟨v, tail, heq, hstart, hword, htail⟩ := h.exists_word hmark
  have hinside : ∀ z, z ++ c :: y :: w = v ++ tail → isWord c = true ∧ (isWord y = true ∨ y = ')') := by
    intro z heq
    have hc : c ∈ v := by
      rcases htail with rfl | rfl
      · rw [List.append_nil] at heq
        simp [← heq]
      · have hcut := congrArg List.dropLast heq
        rw [List.dropLast_concat, List.dropLast_append_of_ne_nil (by simp)] at hcut
        simp [← hcut]
    have hy : y ∈ v ++ tail := by simp [← heq]
    refine ⟨hword c hc, ?_⟩
    rcases List.mem_append.mp hy with hy | hy
    · exact Or.inl (hword y hy)
    · rcases htail with rfl | rfl
      · simp at hy
      · exact Or.inr (by simpa using hy)
  cases z with
  | nil =>
    simp only [List.nil_append, List.cons.injEq] at heq
    obtain ⟨rfl, heq⟩ := heq
    refine Or.inl ⟨rfl, rfl, ?_, ?_⟩
    · rw [heq]
      exact hstart.trans (List.prefix_append v tail)
    · obtain ⟨more, rfl⟩ := hstart
      obtain rfl : y = 'S' := (List.cons.inj heq).1
      decide
  | cons d z =>
    simp only [List.cons_append, List.cons.injEq] at heq
    exact Or.inr (hinside z heq.2)

/-- Behind a character that is no part of a word, a token of a subquery goes on only as its own
start. -/
theorem IsBracketed.cutsAt {k : Nat} (h : l.IsBracketed k) (ha : a.getLast?.any isWord = false)
    (hb : a.getLast? = some '(' → ¬ "SUB_".toList <+: b) : l.CutsAt a b := by
  refine cutsAt_of_not_across fun z c y w hmark hlast hpre => ?_
  rcases h.cases_of_mark hmark with ⟨-, rfl, hstart, -⟩ | ⟨hc, -⟩
  · exact hb hlast (hstart.trans hpre)
  · simp [hlast, hc] at ha

/-- A bracket that starts no held token is copied, and the text behind it is reverted by itself. -/
theorem IsBracketed.revert_open {k : Nat} (h : l.IsBracketed k)
    (hb : ∀ w, l.holds w = true → ¬ w <+: '(' :: b) : l.revert ('(' :: b) = '(' :: l.revert b := by
  have hlead : l.format.lead = '(' :: ("SUB_".toList ++ List.replicate k '_') := by
    rw [h]
    rfl
  have hinside : '(' ∉ "SUB_".toList ++ List.replicate k '_' := fun hmem =>
    absurd (isWord_of_mem_subLead hmem) (by decide)
  have hne : l.format.lead ≠ [] := by simp [hlead]
  have hnone : l.tokenAt? ('(' :: b) = none :=
    tokenAt?_eq_none_iff.mpr fun i hi => hb _ (holds_iff.mpr ⟨i, hi, rfl⟩)
  rw [revert_eq_substitute hne, revert_eq_substitute hne]
  by_cases hpre : l.format.lead <+: '(' :: b
  · -- the lead is copied as a whole, and no token starts behind its bracket
    have hrule : l.revertRule ('(' :: b) = some (l.format.lead.length - 1, l.format.lead) := by
      rw [revertRule, hnone]
      simp [List.isPrefixOf_iff_prefix.mpr hpre]
    obtain ⟨rest, hrest⟩ := hpre
    rw [hlead, List.cons_append, List.cons.injEq] at hrest
    obtain ⟨-, rfl⟩ := hrest
    rw [hlead, List.length_cons, Nat.add_sub_cancel] at hrule
    rw [Text.substitute_of_some hrule, substitute_append_of_notMem hlead hinside, List.cons_append]
  · rw [Text.substitute_of_none (revertRule_eq_none hpre)]

/-- Before a character that is neither part of a word nor a closing bracket, every token of a
subquery has ended. -/
theorem IsBracketed.cutsAt_head {k : Nat} (h : l.IsBracketed k) {c : Char}
    (hc : isWord c = false ∧ c ≠ ')') : l.CutsAt a (c :: b) := by
  refine cutsAt_of_not_across fun z d y w hmark _ hpre => ?_
  obtain rfl : y = c := (List.cons_prefix_cons.mp hpre).1
  rcases h.cases_of_mark hmark with ⟨-, -, -, hy⟩ | ⟨-, hy | hy⟩
  · simp [hc.1] at hy
  · simp [hc.1] at hy
  · exact hc.2 hy

/-- Reverting subqueries leaves the first and the last character of a text as they are. -/
theorem IsBracketed.ends_revert {k : Nat} (h : l.IsBracketed k)
    (hcovers : ∀ v ∈ l.values, ∃ body, v = Subquery.cover body) (t : Text) :
    (l.revert t).head? = t.head? ∧ (l.revert t).getLast? = t.getLast? := by
  have hlead : l.format.lead ≠ [] := by
    rw [h]
    simp
  obtain ⟨segs, hspans, rfl, hrevert⟩ := exists_places hlead l.values.length t
  rw [hrevert l ⟨rfl, rfl⟩]
  -- a token and what it stands for both open and close with a bracket
  have hends : ∀ i ∈ Segment.spans segs, ∃ body body',
      l.format.token (i + 1) = '(' :: (body ++ [')']) ∧ l.valueAt i = '(' :: (body' ++ [')']) := by
    intro i hi
    obtain ⟨body', hbody⟩ := hcovers _ (valueAt_mem (hspans i hi))
    refine ⟨"SUB_".toList ++ List.replicate k '_' ++ Text.ofNat (i + 1), body', ?_, hbody⟩
    rw [h, TokenFormat.token]
    simp
  constructor
  · cases segs with
    | nil => rfl
    | cons s segs =>
      cases s with
      | plain c => rfl
      | span i =>
        obtain ⟨body, body', htoken, hvalue⟩ := hends i (by simp)
        rw [Segment.join_span, Segment.join_span, htoken, hvalue]
        rfl
  · rcases List.eq_nil_or_concat segs with rfl | ⟨segs, s, rfl⟩
    · rfl
    · rw [List.concat_eq_append] at hends ⊢
      rw [Segment.join_append, Segment.join_append]
      cases s with
      | plain c => simp
      | span i =>
        obtain ⟨body, body', htoken, hvalue⟩ := hends i (by simp)
        have hlast : ∀ x body : Text, (x ++ '(' :: (body ++ [')'])).getLast? = some ')' := by
          intro x body
          simp [List.getLast?_append, List.getLast?_cons]
        simp only [Segment.join_span, Segment.join_nil, List.append_nil, htoken, hvalue, hlast]

/-- No token of a literal lies across the bracket of a subquery. One list of places serves for all
texts that stand there in brackets: literals are put back in each of them and between them. -/
theorem IsStandard.exists_revert_join (h : l.IsStandard) (segs : List (Segment Nat)) :
    ∃ places : List (Segment Nat), Segment.spans places = Segment.spans segs ∧
      ∀ cover : Nat → Text, (∀ i ∈ Segment.spans segs, ∃ body, cover i = Subquery.cover body) →
        l.revert (Segment.join cover segs) = Segment.join (fun i => l.revert (cover i)) places := by
  -- the run of characters before the next span is carried along
  suffices hrun : ∀ run : Text, ∃ places : List (Segment Nat),
      Segment.spans places = Segment.spans segs ∧
      ∀ cover : Nat → Text, (∀ i ∈ Segment.spans segs, ∃ body, cover i = Subquery.cover body) →
        l.revert (run ++ Segment.join cover segs) =
          Segment.join (fun i => l.revert (cover i)) places from hrun []
  induction segs with
  | nil =>
    intro run
    exact ⟨(l.revert run).map .plain, by simp, fun cover _ => by simp⟩
  | cons s segs ih =>
    intro run
    cases s with
    | plain c =>
      obtain ⟨places, hspans, hplaces⟩ := ih (run ++ [c])
      refine ⟨places, hspans, fun cover hcover => ?_⟩
      rw [← hplaces cover hcover, List.append_assoc]
      rfl
    | span i =>
      obtain ⟨places, hspans, hplaces⟩ := ih []
      refine ⟨(l.revert run).map .plain ++ .span i :: places, by simp [hspans], ?_⟩
      intro cover hcover
      obtain ⟨body, hbody⟩ := hcover i (by simp)
      have hrest := hplaces cover fun j hj => hcover j (by simp [hj])
      have hopen : isWord '(' = false := by decide
      have hclose : isWord ')' = false := by decide
      rw [List.nil_append] at hrest
      rw [Segment.join_span, revert_append h.lead_ne_nil (h.cutsAt (Or.inr ?_)),
        revert_append h.lead_ne_nil (h.cutsAt (Or.inl ?_)), hrest, Segment.join_append,
        Segment.join_map_plain, Segment.join_span]
      · rw [hbody, Subquery.cover, List.getLast?_concat]
        exact hclose
      · rw [hbody, Subquery.cover]
        exact hopen

end Ledger

/-! ## Putting back -/

namespace Held

/-- A held statement whose quotes are all closed: subqueries have no quote, and the quotes of each
literal pair among themselves. -/
structure Sound (q : Held) : Prop where
  standard : q.IsStandard
  covers : ∀ v ∈ q.subqueries.values, ∃ body, v = Subquery.cover body
  unquoted : ∀ v ∈ q.subqueries.values, '\'' ∉ v
  closed : ∀ v ∈ q.literals.values, v.count '\'' % 2 = 0

/-- A text with the subqueries and literals of a held statement put back. -/
def putBack (q : Held) (t : Text) : Text := q.literals.revert (q.subqueries.revert t)

/-- The quoted spans that stand in a text when everything is put back. -/
def spansIn (q : Held) (t : Text) : List Text := quotedSpans (q.putBack t)

/-- What is held as a subquery is a text in brackets. -/
theorem covers_standard (raw : Text) :
    ∀ v ∈ (Held.standard raw).subqueries.values, ∃ body, v = Subquery.cover body := by
  obtain ⟨t, -, hsub⟩ := literals_spec raw
  intro v hv
  rcases hsub.only v hv with hnil | ⟨body, -, hbody⟩
  · simp at hnil
  · exact ⟨body, hbody.symm⟩

theorem IsStandard.exists_isBracketed {q : Held} (h : q.IsStandard) :
    ∃ k, q.subqueries.IsBracketed k := by
  obtain ⟨t, ht⟩ := h.subqueries
  obtain ⟨k, hk⟩ := TokenFormat.exists_avoiding_lead Profile.standard.subqueryFormat t
  refine ⟨k, ?_⟩
  rw [IsBracketed, ht, show "(SUB_".toList = Profile.standard.subqueryFormat.lead from rfl, ← hk]
  rfl

theorem IsStandard.exists_bracket_lead {q : Held} (h : q.IsStandard) :
    ∃ lead, q.subqueries.format.lead = '(' :: lead := by
  obtain ⟨k, hk⟩ := h.exists_isBracketed
  exact ⟨"SUB_".toList ++ List.replicate k '_', by rw [hk]; rfl⟩

theorem IsStandard.exists_letter_lead {q : Held} (h : q.IsStandard) :
    ∃ lead, q.literals.format.lead = 'S' :: lead ∧ 'T' ∈ lead := by
  obtain ⟨k, hk⟩ := h.literals.exists_format
  exact ⟨"TR_".toList ++ List.replicate k '_', by rw [hk]; rfl, by simp⟩

namespace Sound

variable {q : Held} {a b t : Text}

theorem sub_lead_ne_nil (h : q.Sound) : q.subqueries.format.lead ≠ [] := by
  obtain ⟨lead, hlead⟩ := h.standard.exists_bracket_lead
  simp [hlead]

/-- A text is cut behind a character that is no part of a word, unless that is the bracket of a held
token. -/
theorem putBack_append (h : q.Sound) (ha : a.getLast?.any isWord = false)
    (hb : a.getLast? = some '(' → ∀ w, q.subqueries.holds w = true → ¬ w <+: '(' :: b) :
    q.putBack (a ++ b) = q.putBack a ++ q.putBack b := by
  obtain ⟨k, hk⟩ := h.standard.exists_isBracketed
  have hcut : q.subqueries.revert (a ++ b) = q.subqueries.revert a ++ q.subqueries.revert b := by
    by_cases hlast : a.getLast? = some '('
    · obtain ⟨a, rfl⟩ := List.getLast?_eq_some_iff.mp hlast
      have hlead : q.subqueries.format.lead = '(' :: ("SUB_".toList ++ List.replicate k '_') := by
        rw [hk]
        rfl
      have hanew : ∀ rest : Text, q.subqueries.revert (a ++ '(' :: rest) =
          q.subqueries.revert a ++ q.subqueries.revert ('(' :: rest) := fun rest =>
        Ledger.revert_append_lead hlead
          (fun hmem => absurd (isWord_of_mem_subLead hmem) (by decide)) (by decide)
          (by rw [hk]; simp) a rest
      have hnone : ∀ w, q.subqueries.holds w = true → ¬ w <+: ['('] := by
        intro w hw hpre
        obtain ⟨v, rfl, -⟩ := hk.exists_word_of_holds hw
        simpa using hpre.length_le
      rw [List.append_assoc, List.singleton_append, hanew, hanew, hk.revert_open (hb hlast),
        hk.revert_open hnone, Ledger.revert_nil, List.append_assoc, List.singleton_append]
    · exact Ledger.revert_append h.sub_lead_ne_nil (hk.cutsAt ha fun hopen => absurd hopen hlast)
  rw [putBack, hcut, Ledger.revert_append h.standard.literals.lead_ne_nil]
  · rfl
  · refine h.standard.literals.cutsAt (Or.inl ?_)
    rw [(hk.ends_revert h.covers a).2]
    exact ha

/-- A text is cut before a character that is neither part of a word nor a closing bracket. -/
theorem putBack_append_cons (h : q.Sound) {c : Char} (hc : isWord c = false ∧ c ≠ ')') :
    q.putBack (a ++ c :: b) = q.putBack a ++ q.putBack (c :: b) := by
  obtain ⟨k, hk⟩ := h.standard.exists_isBracketed
  rw [putBack, Ledger.revert_append h.sub_lead_ne_nil (hk.cutsAt_head hc),
    Ledger.revert_append h.standard.literals.lead_ne_nil]
  · rfl
  · refine h.standard.literals.cutsAt (Or.inr ?_)
    rw [(hk.ends_revert h.covers (c :: b)).1]
    simp [hc.1]

/-- Where neither a bracket opens nor a `T` stands, there is nothing to put back. -/
theorem putBack_eq_self (h : q.Sound) (hopen : '(' ∉ t) (hletter : 'T' ∉ t) : q.putBack t = t := by
  obtain ⟨lead, hlead⟩ := h.standard.exists_bracket_lead
  obtain ⟨lead', hlead', hmem⟩ := h.standard.exists_letter_lead
  rw [putBack, Ledger.revert_of_absent (l := q.subqueries), Ledger.revert_of_absent]
  · intro hwithin
    exact hletter (hwithin.subset (by simp [hlead', hmem]))
  · intro hwithin
    exact hopen (hwithin.subset (by simp [hlead]))

/-- Where neither a bracket opens nor an `S` stands, no token starts. -/
theorem putBack_append_of_notMem (h : q.Sound) (hopen : '(' ∉ a) (hletter : 'S' ∉ a) :
    q.putBack (a ++ b) = a ++ q.putBack b := by
  obtain ⟨lead, hlead⟩ := h.standard.exists_bracket_lead
  obtain ⟨lead', hlead', -⟩ := h.standard.exists_letter_lead
  rw [putBack, Ledger.revert_eq_substitute h.sub_lead_ne_nil,
    Ledger.substitute_append_of_notMem hlead hopen,
    Ledger.revert_eq_substitute h.standard.literals.lead_ne_nil,
    Ledger.substitute_append_of_notMem hlead' hletter,
    ← Ledger.revert_eq_substitute h.sub_lead_ne_nil,
    ← Ledger.revert_eq_substitute h.standard.literals.lead_ne_nil]
  rfl

/-- A word without a `T`, at the end of which no word goes on, is no part of a token. -/
theorem putBack_word_append (h : q.Sound) (hopen : '(' ∉ a) (hletter : 'T' ∉ a)
    (hb : b.head?.any isWord = false) : q.putBack (a ++ b) = a ++ q.putBack b := by
  obtain ⟨k, hk⟩ := h.standard.exists_isBracketed
  obtain ⟨lead, hlead⟩ := h.standard.exists_bracket_lead
  have hself := h.putBack_eq_self hopen hletter
  have hcut : q.putBack (a ++ b) = q.putBack a ++ q.putBack b := by
    rw [putBack, Ledger.revert_append h.sub_lead_ne_nil (cutsAt_of_notMem hlead hopen),
      Ledger.revert_append h.standard.literals.lead_ne_nil]
    · rfl
    · refine h.standard.literals.cutsAt (Or.inr ?_)
      rw [(hk.ends_revert h.covers b).1]
      exact hb
  rw [hcut, hself]

/-- In a text without quotes, all quotes that are put back are closed. -/
theorem count_putBack (h : q.Sound) (ht : '\'' ∉ t) : (q.putBack t).count '\'' % 2 = 0 := by
  obtain ⟨segs, hspans, htext, hrevert⟩ := exists_places h.standard.literals.lead_ne_nil
    q.literals.values.length (q.subqueries.revert t)
  have hquote : '\'' ∉ q.subqueries.revert t :=
    (Ledger.keeps_revert h.sub_lead_ne_nil h.unquoted t).notMem ht
  have hcount : ∀ segs : List (Segment Nat), .plain '\'' ∉ segs →
      (∀ i ∈ Segment.spans segs, i < q.literals.values.length) →
      (Segment.join q.literals.valueAt segs).count '\'' % 2 = 0 := by
    intro segs
    induction segs with
    | nil => simp
    | cons s segs ih =>
      intro hplain hspans
      cases s with
      | plain c =>
        simp only [List.mem_cons, Segment.plain.injEq, not_or] at hplain
        rw [Segment.join_plain, List.count_cons_of_ne (Ne.symm hplain.1)]
        exact ih hplain.2 hspans
      | span i =>
        have hvalue := h.closed _ (valueAt_mem (hspans i (by simp)))
        have hrest := ih (by simpa using hplain) fun j hj => hspans j (by simp [hj])
        rw [Segment.join_span, List.count_append]
        omega
  rw [putBack, hrevert q.literals ⟨rfl, rfl⟩]
  refine hcount segs (fun hplain => hquote ?_) hspans
  rw [← htext]
  exact Segment.mem_join.mpr (Or.inl hplain)

/-! ## Spans -/

theorem spansIn_append (h : q.Sound) (hquote : '\'' ∉ a) (ha : a.getLast?.any isWord = false)
    (hb : a.getLast? = some '(' → ∀ w, q.subqueries.holds w = true → ¬ w <+: '(' :: b) :
    q.spansIn (a ++ b) = q.spansIn a ++ q.spansIn b := by
  rw [spansIn, h.putBack_append ha hb, quotedSpans_append (h.count_putBack hquote)]
  rfl

theorem spansIn_eq_nil (h : q.Sound) (hquote : '\'' ∉ t) (hopen : '(' ∉ t) (hletter : 'T' ∉ t) :
    q.spansIn t = [] := by
  rw [spansIn, h.putBack_eq_self hopen hletter, quotedSpans_of_notMem hquote]

/-- A character that is no part of a token, and no quote. -/
structure IsSeparator (c : Char) : Prop where
  edge : isWord c = false
  bracket : c ≠ '(' ∧ c ≠ ')'
  quote : c ≠ '\''

theorem isSeparator_of_isBlank {c : Char} (h : isBlank c = true) : IsSeparator c := by
  have hmarks : ∀ d ∈ "()'".toList, isBlank d = false := by decide
  have hne : ∀ d ∈ "()'".toList, c ≠ d := by
    rintro d hd rfl
    rw [hmarks c hd] at h
    simp at h
  exact ⟨isWord_of_isBlank h, ⟨hne '(' (by decide), hne ')' (by decide)⟩, hne '\'' (by decide)⟩

theorem isSeparator_of_isGap {c : Char} (h : Grammar.isGap c = true) : IsSeparator c := by
  refine isSeparator_of_isBlank ?_
  rw [Grammar.isGap, Bool.or_eq_true, beq_iff_eq, beq_iff_eq] at h
  rcases h with rfl | rfl <;> decide

/-- Separators have no part in the spans. -/
theorem spansIn_run (h : q.Sound) {g : Text} (hg : ∀ c ∈ g, IsSeparator c) :
    q.spansIn (g ++ b) = q.spansIn b := by
  induction g with
  | nil => rfl
  | cons c g ih =>
    have hc := hg c (by simp)
    have hself : q.putBack [c] = [c] := by
      refine h.putBack_eq_self (by simpa using hc.bracket.1.symm) ?_
      rw [List.mem_singleton]
      rintro rfl
      exact absurd hc.edge (by decide)
    have hcut : q.putBack ([c] ++ (g ++ b)) = q.putBack [c] ++ q.putBack (g ++ b) :=
      h.putBack_append (by simpa using hc.edge) fun hopen => absurd (by simpa using hopen) hc.bracket.1
    rw [List.cons_append, ← ih fun d hd => hg d (by simp [hd]), spansIn, ← List.singleton_append,
      hcut, hself, List.singleton_append, quotedSpans_cons hc.quote]
    rfl

/-- Separators cut a text for its spans. -/
theorem spansIn_cut (h : q.Sound) (hquote : '\'' ∉ a) {g : Text} (hne : g ≠ [])
    (hg : ∀ c ∈ g, IsSeparator c) : q.spansIn (a ++ (g ++ b)) = q.spansIn a ++ q.spansIn b := by
  obtain ⟨c, g, rfl⟩ := List.exists_cons_of_ne_nil hne
  have hc := hg c (by simp)
  rw [spansIn, List.cons_append, h.putBack_append_cons ⟨hc.edge, hc.bracket.2⟩,
    quotedSpans_append (h.count_putBack hquote), ← List.cons_append]
  exact congrArg (q.spansIn a ++ ·) (h.spansIn_run hg)

/-! ## Setting in lines -/

theorem spansIn_breakLines (h : q.Sound) (ht : '\'' ∉ t) :
    q.spansIn (breakLines t) = q.spansIn t := by
  rw [breakLines_eq]
  refine (replaceAll_invariant (by decide) ?_).symm
  intro before m rest segs hm _ hsplit
  obtain ⟨g, k, g', htext, hg, hk, hg', hline⟩ := exists_of_lineStart hm
  have hbefore : '\'' ∉ before.reverse := fun hmem => ht (by simp [← hsplit, hmem])
  have hword : q.spansIn k = [] := h.spansIn_eq_nil (Reads.notMem (by decide) hk)
    (Reads.notMem (by decide) hk) (Reads.notMem (by decide) hk)
  have hquote : '\'' ∉ k := Reads.notMem (by decide) hk
  -- whatever the gaps are, they cut the text before and behind the word
  have hgaps : ∀ g g' : Text, IsGapRun g → IsGapRun g' →
      q.spansIn (before.reverse ++ (g ++ (k ++ (g' ++ Segment.join lineOf segs)))) =
        q.spansIn before.reverse ++ q.spansIn (Segment.join lineOf segs) := by
    intro g g' hg hg'
    rw [h.spansIn_cut hbefore hg.1 fun c hc => isSeparator_of_isGap (hg.2 c hc),
      h.spansIn_cut hquote hg'.1 fun c hc => isSeparator_of_isGap (hg'.2 c hc), hword,
      List.nil_append]
  have hone := hgaps ['\n'] [' '] ⟨by simp, by simp [Grammar.isGap]⟩ ⟨by simp, by simp [Grammar.isGap]⟩
  rw [htext, hline]
  simp only [List.append_assoc, List.cons_append, List.nil_append] at hone ⊢
  rw [hgaps g g' hg hg', hone]

theorem spansIn_collapseSpaces (h : q.Sound) (ht : '\'' ∉ t) :
    q.spansIn (collapseSpaces t) = q.spansIn t := by
  refine (replaceAll_invariant (by decide) ?_).symm
  intro before m rest segs hm _ hsplit
  obtain ⟨rest', -, -, -, hreads⟩ := matchAt?_some hm
  obtain ⟨v, htext, hv⟩ := reads_spaceRun_iff.mp hreads
  have hbefore : '\'' ∉ before.reverse := fun hmem => ht (by simp [← hsplit, hmem])
  have hspace : ∀ c ∈ ' ' :: ' ' :: v, IsSeparator c := by
    intro c hc
    obtain rfl : c = ' ' := by
      simp only [List.mem_cons] at hc
      rcases hc with rfl | rfl | hc
      · rfl
      · rfl
      · exact hv c hc
    exact isSeparator_of_isGap (by decide)
  rw [htext, h.spansIn_cut hbefore (by simp) hspace,
    h.spansIn_cut hbefore (by simp) fun c hc => hspace c (by simp_all)]

/-- Setting a text in lines keeps its spans. -/
theorem spansIn_layOut (h : q.Sound) (ht : '\'' ∉ t) : q.spansIn (layOut t) = q.spansIn t := by
  rw [layOut, h.spansIn_collapseSpaces ((keeps_breakLines (by decide) t).notMem ht),
    h.spansIn_breakLines ht]

end Sound

end Held

end MutationPreview
