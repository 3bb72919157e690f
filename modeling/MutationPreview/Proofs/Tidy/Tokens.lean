import MutationPreview.Proofs.Mutation.Reached
import MutationPreview.Proofs.Tidy.Dropped

/-!
# Tokens of subqueries in a tidied text

Tidying works on a text in which tokens stand for subqueries. It takes no token away and moves none,
but dropping a mark may show a token that was not there before. The tokens of the tidied text are
those that stood in the text with a mark passed over behind a bracket (`Held.IsStandard.tokensIn_tidy`):
what is injected holds no token and no token lies across its ends, and other gaps leave tokens alone.

Main statement: `Held.tokensIn_tidy_eq_iff`.
-/

namespace MutationPreview

open Pattern

namespace Ledger.IsBracketed

variable {l : Ledger} {k : Nat} (hl : l.IsBracketed k)

include hl

/-! ## Injecting and setting in lines -/

/-- Other gaps leave tokens alone. -/
theorem tokensIn_respaced {t u : Text} (h : Respaced t u) : l.tokensIn t = l.tokensIn u := by
  have hgap : ∀ {w : Text}, (∀ c ∈ w, isWord c = true) → ∀ c ∈ w ++ [')'], Grammar.isGap c = false := by
    intro w hw
    rw [List.forall_mem_append]
    exact ⟨fun c hc => isGap_of_isWord (hw c hc), by decide⟩
  have honto : ∀ {t u w : Text}, Respaced t u → (∀ c ∈ w, isWord c = true) →
      w ++ [')'] <+: t → w ++ [')'] <+: u := by
    rintro t u w h hw ⟨y, rfl⟩
    obtain ⟨y', rfl, -⟩ := h.split_start (hgap hw)
    exact List.prefix_append _ _
  induction h with
  | nil => rfl
  | @char t u c h ih =>
    rw [tokensIn, tokensIn, ih]
    congr 1
    by_cases hc : c = '('
    · subst hc
      exact hl.tokensAt_bracket_congr fun v hv => ⟨honto h hv, honto h.symm hv⟩
    · rw [hl.tokensAt_cons_of_ne hc, hl.tokensAt_cons_of_ne hc]
  | @gap g g' t u hg hg' _ ih =>
    have hopen : ∀ {g : Text}, IsGapRun g → '(' ∉ g := fun hg hmem => absurd (hg.2 _ hmem) (by decide)
    rw [hl.tokensIn_append_of_notMem (hopen hg), hl.tokensIn_append_of_notMem (hopen hg'), ih]

theorem tokensIn_layOut (t : Text) : l.tokensIn (layOut t) = l.tokensIn t :=
  layOut_preserves (P := fun u => l.tokensIn u = l.tokensIn t)
    (fun hu hkept => (hl.tokensIn_respaced hu).trans hkept) rfl

/-- The characters of a token: its brackets, the letters of its lead, and digits. -/
theorem mem_mark {u : Text} (hu : l.IsMark u) {c : Char} (hc : c ∈ u) :
    c ∈ "(SUB_)".toList ∨ c.isDigit = true := by
  have hlead : ∀ {c}, c ∈ l.format.lead → c ∈ "(SUB_)".toList := by
    intro c hc
    rw [hl] at hc
    rcases List.mem_append.mp hc with hc | hc
    · have hletters : ∀ c ∈ "(SUB_".toList, c ∈ "(SUB_)".toList := by decide
      exact hletters c hc
    · rw [List.eq_of_mem_replicate hc]
      decide
  rcases hu with rfl | ⟨i, rfl⟩
  · exact Or.inl (hlead hc)
  · rcases TokenFormat.mem_token.mp hc with hc | hc | hc
    · exact Or.inl (hlead hc)
    · exact Or.inr (Text.isDigit_of_mem_ofNat hc)
    · rw [hl] at hc
      obtain rfl : c = ')' := by simpa using hc
      exact Or.inl (by decide)

/-- No token lies across the start of a call. -/
theorem cutsAt_function {w : Text} (hw : (word "toentityid".toList).Spells w) (a b : Text) :
    l.CutsAt a (w ++ b) := by
  refine Ledger.cutsAt_of_not_across fun z c y v hmark _ hpre => ?_
  have hletters := reads_word_iff.mp hw
  rw [show "toentityid".toList = 't' :: "oentityid".toList from rfl] at hletters
  cases hletters with
  | @cons _ d _ w hd _ =>
    obtain rfl : y = d := (List.cons_prefix_cons.mp hpre).1
    have hother : (!("(SUB_)".toList.contains y) && !y.isDigit) = true :=
      forall_of_sameLetter (p := fun y => !("(SUB_)".toList.contains y) && !y.isDigit) (x := 't')
        (by decide) (by decide) hd
    simp only [Bool.and_eq_true, Bool.not_eq_true', List.contains_eq_mem,
      decide_eq_false_iff_not] at hother
    rcases hl.mem_mark hmark (c := y) (by simp) with hmem | hdigit
    · exact hother.1 hmem
    · rw [hother.2] at hdigit
      cases hdigit

/-- A call whose argument is a held literal is no token of a subquery and has none in it. -/
theorem tokensIn_call {literals : Ledger} (hlit : literals.IsStandard) {w a b c : Text}
    (hw : (word "toentityid".toList).Spells w) (ha : blanks.Spells a) (hb : blanks.Spells b)
    (hc : blanks.Spells c) (i : Nat) (before after : Text) :
    l.tokensIn (before ++ (w ++ a ++ '(' :: (b ++ literals.format.token (i + 1) ++ c ++ [')']) ++ after)) =
      l.tokensIn before ++ l.tokensIn after := by
  obtain ⟨⟨hopen, -⟩, hinside, -⟩ := brackets_of_call hw ha hb hc (hlit.isArgument_token (k := i))
  -- what stands behind the bracket is a blank or the token of a literal
  have hargument : ∀ rest, l.tokensAt ('(' :: (b ++ literals.format.token (i + 1) ++ rest)) = [] := by
    intro rest
    refine Ledger.tokensAt_eq_nil fun token htoken hpre => ?_
    obtain ⟨j, -, rfl⟩ := Ledger.holds_iff.mp htoken
    have hlead : "SUB_".toList <+: b ++ literals.format.token (i + 1) ++ rest := by
      rw [hl, TokenFormat.token] at hpre
      simp only [List.append_assoc] at hpre ⊢
      exact (List.prefix_append _ _).trans (List.cons_prefix_cons.mp hpre).2
    cases b with
    | nil =>
      obtain ⟨n, hformat⟩ := hlit.exists_format
      rw [hformat, TokenFormat.token] at hlead
      exact absurd (List.cons_prefix_cons.mp (List.cons_prefix_cons.mp hlead).2).1 (by decide)
    | cons d b =>
      obtain rfl : 'S' = d := (List.cons_prefix_cons.mp hlead).1
      exact absurd (spells_blanks.mp hb 'S' (by simp)) (by decide)
  have hend : l.CutsAt (w ++ a ++ '(' :: (b ++ literals.format.token (i + 1) ++ c ++ [')'])) after := by
    have hclose : isWord ')' = false := by decide
    have hlast : (w ++ a ++ '(' :: (b ++ literals.format.token (i + 1) ++ c ++ [')'])).getLast? =
        some ')' := by
      rw [← List.cons_append, ← List.append_assoc, List.getLast?_concat]
    refine hl.cutsAt (by rw [hlast]; simpa using hclose) fun hbracket => ?_
    rw [hlast] at hbracket
    exact absurd (Option.some.inj hbracket) (by decide)
  have hcall : l.tokensIn (w ++ a ++ '(' :: (b ++ literals.format.token (i + 1) ++ c ++ [')'])) = [] := by
    rw [hl.tokensIn_append_of_notMem hopen, Ledger.tokensIn, List.append_assoc _ c, hargument,
      ← List.append_assoc, hl.tokensIn_append_of_notMem hinside]
    rw [Ledger.tokensIn, hl.tokensAt_cons_of_ne (by decide)]
    rfl
  have hstart : l.CutsAt before (w ++ a ++ '(' :: (b ++ literals.format.token (i + 1) ++ c ++ [')']) ++
      after) := by
    simp only [List.append_assoc]
    exact hl.cutsAt_function hw _ _
  rw [Ledger.tokensIn_append hstart, Ledger.tokensIn_append hend, hcall, List.nil_append]

/-- The call that is written is no token of a subquery and has none in it. -/
theorem tokensIn_entityCallText {literals : Ledger} (hlit : literals.IsStandard) (i : Nat)
    (before after : Text) :
    l.tokensIn (before ++
        (entityCallText Profile.standard (literals.format.token (i + 1)) ++ after)) =
      l.tokensIn before ++ l.tokensIn after := by
  have hcall := hl.tokensIn_call hlit (w := "toentityid".toList) (a := []) (b := []) (c := [])
    (spells_of_readings (by decide)) (spells_blanks.mpr (by simp)) (spells_blanks.mpr (by simp))
    (spells_blanks.mpr (by simp)) i before after
  rw [entityCallText_eq]
  simpa using hcall

/-- Injecting the identifier leaves the tokens alone. -/
theorem tokensIn_injectIdentifier {literals : Ledger} (hlit : literals.IsStandard) (i : Nat) (t : Text) :
    l.tokensIn (injectIdentifier Profile.standard literals (literals.format.token (i + 1)) t) =
      l.tokensIn t := by
  rw [Held.injectIdentifier_eq]
  refine (replaceAll_invariant (G := l.tokensIn) (by decide) ?_).symm.trans
    (replaceAll_invariant (G := l.tokensIn) (by decide) ?_).symm
  · intro before m rest segs hsome _ _
    obtain ⟨rest', -, -, -, hreads⟩ := matchAt?_some hsome
    obtain ⟨e, htext, he⟩ := exists_of_spells_token (reads_entityToken_iff.mp hreads).1
    have hword := isWord_of_spells_word token_letters he
    have hopen : '(' ∉ m.text := by
      rw [htext, List.mem_cons, not_or]
      exact ⟨by decide, fun hmem => absurd (hword.2 _ hmem) (by decide)⟩
    have hcut : l.CutsAt before.reverse (m.text ++ Segment.join
        (fun _ => entityCallText Profile.standard (literals.format.token (i + 1))) segs) := by
      rw [htext]
      exact hl.cutsAt_head ⟨by decide, by decide⟩
    rw [hl.tokensIn_entityCallText hlit, Ledger.tokensIn_append hcut,
      hl.tokensIn_append_of_notMem hopen]
  · intro before m rest segs hsome _ _
    obtain ⟨w, a, b, arg, c, htext, hw, ha, hb, hc, -, -, argument, hpart, rfl⟩ :=
      exists_of_entityCall hsome
    rw [Held.callOf, hpart]
    by_cases hholds : literals.holds argument.text = true
    · obtain ⟨j, -, harg⟩ := Ledger.holds_iff.mp hholds
      simp only [hholds, if_true]
      rw [hl.tokensIn_entityCallText hlit, htext, harg, hl.tokensIn_call hlit hw ha hb hc]
    · simp only [hholds]
      rfl

end Ledger.IsBracketed

namespace Held

/-- The tokens of a tidied text are those that stood in the text with marks behind brackets passed
over. -/
theorem IsStandard.tokensIn_tidy {q : Held} (hq : q.IsStandard) (identifier : Text) :
    q.subqueries.tokensIn (tidy Profile.standard identifier q).text =
      q.subqueries.markedTokensIn q.text := by
  obtain ⟨k, hsub⟩ := hq.exists_isBracketed
  have hlit : (q.literals.hold (quoteLiteral identifier)).1.IsStandard :=
    (hq.holdLiteral (quoteLiteral identifier)).literals
  rw [tidy_eq, (Ledger.hold_spec q.literals (quoteLiteral identifier)).token_eq, Ledger.tokenOf,
    hsub.tokensIn_layOut, hsub.tokensIn_injectIdentifier hlit, hsub.tokensIn_dropWords]

/-- Tidying leaves the tokens of subqueries as they were, exactly if no held token stands in the text
with a mark of staging tables behind its bracket. -/
theorem tokensIn_tidy_eq_iff (raw identifier : Text) :
    let held := Held.standard raw
    held.subqueries.tokensIn (tidy Profile.standard identifier held).text =
        held.subqueries.tokensIn held.text ↔
      ∀ before mark token after, held.text = before ++ '(' :: (mark ++ (token ++ after)) →
        (word "tmp_".toList).Spells mark → held.subqueries.holds ('(' :: token) = false := by
  intro held
  have hstandard := isStandard_standard raw
  obtain ⟨k, hsub⟩ := hstandard.exists_isBracketed
  rw [hstandard.tokensIn_tidy]
  exact hsub.hidesNoToken_iff

/-- Text in brackets that starts with the mark becomes a token when the mark is dropped, and stands
for the subquery then. -/
theorem token_behind_mark :
    let held := Held.standard
      "delete from s.t where a in (select b from s.u where c = 1) and d in (tmp_SUB_1);".toList
    held.subqueries.tokensIn held.text = ["(SUB_1)".toList] ∧
      held.subqueries.tokensIn (tidy Profile.standard "ABC".toList held).text =
        ["(SUB_1)".toList, "(SUB_1)".toList] := by
  decide

end Held

end MutationPreview
