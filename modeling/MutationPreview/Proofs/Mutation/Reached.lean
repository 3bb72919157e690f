import MutationPreview.Proofs.Mutation.Injected
import MutationPreview.Proofs.Tidy.Marks

/-!
# What tidying reaches

A preview is tidied while its literals are held. Where literals keep apart from the words that are
looked for, tidying reaches all of the text: once the identifier is injected the text is settled
(`settled_injectIdentifier`), and it stays so when it is set in lines (`Settled.respaced`). When its
literals are put back, no entity token and no mark is left outside quotes, and every call of the
entity function with a literal carries the identifier (`Settled.isReached`).
-/

namespace MutationPreview

open Pattern Ledger

/-- A pattern matches at some place outside the quotes of a text. -/
def Pattern.MatchesOutside (p : Pattern) (t : Text) : Prop :=
  ∃ n < t.length + 1, (t.take n).count '\'' % 2 = 0 ∧
    (p.matchAt? ⟨(t.take n).reverse, t.drop n⟩).isSome = true

instance (p : Pattern) : DecidablePred p.MatchesOutside := fun t => by
  unfold Pattern.MatchesOutside
  infer_instance

theorem Pattern.exists_of_matchesOutside {p : Pattern} {t : Text} (h : p.MatchesOutside t) :
    ∃ x u y, t = x ++ (u ++ y) ∧ x.count '\'' % 2 = 0 ∧ p.Reads x.reverse u y := by
  obtain ⟨n, -, hcount, hmatch⟩ := h
  obtain ⟨m, hm⟩ := Option.isSome_iff_exists.mp hmatch
  obtain ⟨rest, hrest, -, -, hreads⟩ := matchAt?_some hm
  refine ⟨t.take n, m.text, rest, ?_, hcount, hreads⟩
  rw [← hrest, List.take_append_drop]

/-- A text outside whose quotes there is no entity token and no mark, and where every call with a
literal, that is with quoted spans and nothing else, has the quoted identifier. -/
structure IsReached (identifier sql : Text) : Prop where
  no_token : ¬ Profile.standard.entityToken.MatchesOutside sql
  no_mark : ¬ Profile.standard.stagingMark.MatchesOutside sql
  calls : ∀ x arg y, IsCall sql x arg y → x.count '\'' % 2 = 0 → arg ≠ [] →
    outsideQuotes arg = [] → arg = quoteLiteral identifier

/-- The same of a held text, in which the identifier has the number `k`. A literal ends the words
beside it, so the words are looked for at literals too. -/
structure Settled (l : Ledger) (k : Nat) (t : Text) : Prop where
  no_token : Profile.standard.entityToken.hasMatch t = false
  no_token_at : (tokenAtLiteral l.format.lead).hasMatch t = false
  no_mark : Unmarked "tmp_".toList t
  no_mark_at : ∀ i < l.values.length, (markAtLiteral (l.format.token (i + 1))).hasMatch t = false
  calls : ∀ is x y, is ≠ [] → (∀ i ∈ is, i < l.values.length) →
    l.IsShownCall t x (l.tokenRun is) y → is = [k]

/-! ## Injecting -/

section Steps

variable {l : Ledger} {k : Nat} {t : Text}

/-- What writing a call in place of a stretch keeps is kept by injecting the identifier. -/
theorem injectIdentifier_preserves {P : Text → Prop} (hP : ∀ x u y, P (x ++ (u ++ y)) →
    P (x ++ (entityCallText Profile.standard (l.format.token (k + 1)) ++ y))) (h : P t) :
    P (injectIdentifier Profile.standard l (l.format.token (k + 1)) t) := by
  rw [Held.injectIdentifier_eq]
  refine replaceAll_preserves (by decide) (fun _ _ _ _ _ _ _ hkept => hP _ _ _ hkept) ?_
  refine replaceAll_preserves (by decide) (fun before m rest segs hsome _ _ hkept => ?_) h
  rcases callOf_cases (l := l) hsome (l.format.token (k + 1)) with hcall | ⟨hcall, -⟩
  · rw [hcall]
    exact hP _ _ _ hkept
  · rwa [hcall]

/-- A text without the letter `m` has no mark. -/
theorem unmarked_of_letter (h : ∀ c ∈ t, sameLetter 'm' c = false) : Unmarked "tmp_".toList t := by
  rintro x u y rfl hu
  have hletters := reads_word_iff.mp hu
  rw [show "tmp_".toList = ['t', 'm', 'p', '_'] from rfl] at hletters
  rcases hletters with _ | ⟨-, _ | ⟨hm, hrest⟩⟩
  rw [h _ (by simp)] at hm
  cases hm

/-- No token has the second letter of the mark. -/
theorem Ledger.IsStandard.sameLetter_token (hl : l.IsStandard) :
    ∀ c ∈ l.format.token (k + 1), sameLetter 'm' c = false := by
  have hletters : ∀ c ∈ "STR_".toList, sameLetter 'm' c = false := by decide
  intro c hc
  rcases hl.mem_token hc with hc | hc
  · exact hletters c hc
  · rw [Bool.eq_false_iff]
    intro hsame
    have hnot := forall_of_sameLetter (p := fun c => !c.isDigit) (x := 'm') (by decide)
      (by decide) hsame
    rw [hc] at hnot
    cases hnot

theorem unmarked_call (hl : l.IsStandard) :
    Unmarked "tmp_".toList (entityCallText Profile.standard (l.format.token (k + 1))) := by
  have hletters : (∀ c ∈ "toentityid".toList, sameLetter 'm' c = false) ∧
      sameLetter 'm' '(' = false ∧ sameLetter 'm' ')' = false := by decide
  refine unmarked_of_letter fun c hc => ?_
  rw [entityCallText_eq, List.mem_append, List.mem_cons, List.mem_append, List.mem_singleton] at hc
  rcases hc with hc | rfl | hc | rfl
  · exact hletters.1 c hc
  · exact hletters.2.1
  · exact hl.sameLetter_token c hc
  · exact hletters.2.2

theorem getLast?_call (p q : Text) : (p ++ '(' :: (q ++ [')'])).getLast?.any isWord = false := by
  have hclose : isWord ')' = false := by decide
  rw [← List.cons_append, ← List.append_assoc, List.getLast?_concat]
  exact hclose

/-- A call cuts the text for marks. -/
theorem unmarked_call_append (hl : l.IsStandard) {y : Text} (hy : Unmarked "tmp_".toList y) :
    Unmarked "tmp_".toList (entityCallText Profile.standard (l.format.token (k + 1)) ++ y) := by
  refine (unmarked_call hl).append mark_letters hy (Or.inl ?_)
  rw [entityCallText_eq]
  exact getLast?_call _ _

theorem unmarked_replacedCalls (hl : l.IsStandard) (h : Unmarked "tmp_".toList t) :
    Unmarked "tmp_".toList
      (Profile.standard.entityCall.replaceAll (Held.callOf l (l.format.token (k + 1))) t) := by
  refine replaceAll_preserves (by decide) ?_ h
  intro before m rest segs hsome _ _ hkept
  obtain ⟨rest', -, -, -, hreads⟩ := matchAt?_some hsome
  obtain ⟨p, q, htext, -⟩ := oneBracket_of_entityCall hsome
  rcases callOf_cases (l := l) hsome (l.format.token (k + 1)) with hwritten | ⟨hwritten, -⟩
  · rw [hwritten]
    have hleft := hkept.left
    rw [← List.append_assoc] at hkept
    have hright := hkept.right (Or.inl (by
      rw [htext, List.getLast?_append_of_ne_nil _ (by simp)]
      exact getLast?_call p q))
    refine hleft.append mark_letters (unmarked_call_append hl hright) (Or.inl ?_)
    rw [List.getLast?_reverse]
    exact startsWord_entityCall.before_eq hreads
  · rwa [hwritten]

theorem unmarked_replacedTokens (hl : l.IsStandard) (h : Unmarked "tmp_".toList t) :
    Unmarked "tmp_".toList (Profile.standard.entityToken.replaceAll
      (fun _ => entityCallText Profile.standard (l.format.token (k + 1))) t) := by
  refine replaceAll_preserves (by decide) ?_ h
  intro before m rest segs hsome hrest _ hkept
  have hreads := reads_of_matchAt? hsome
  have hafter := (reads_entityToken_iff.mp hreads).2
  have hleft := hkept.left
  rw [← List.append_assoc] at hkept
  have hright := hkept.right (Or.inr ?_)
  · refine hleft.append mark_letters (unmarked_call_append hl hright) (Or.inr ?_)
    rw [entityCallText_eq]
    intro e v hev x hx
    obtain rfl : 't' = e := (List.cons.inj hev).1
    have hletters : ∀ x ∈ "tmp_".toList.tail, sameLetter x 't' = false := by decide
    exact hletters x hx
  · -- behind an entity token stands no word, or a call is written
    cases hrest with
    | done => exact not_spells_of_head? mark_letters rfl
    | plain => exact not_spells_of_head? mark_letters (by simpa using hafter)
    | span =>
      rw [Segment.join_span, entityCallText_eq]
      intro u y huy hu
      have hletters := reads_word_iff.mp hu
      rw [show "tmp_".toList = ['t', 'm', 'p', '_'] from rfl] at hletters
      rcases hletters with _ | ⟨-, _ | ⟨hm, -⟩⟩
      obtain ⟨rfl, -⟩ := List.cons.inj (List.cons.inj huy).2
      exact absurd hm (by decide)

/-- Injecting the identifier brings no mark. -/
theorem unmarked_injectIdentifier (hl : l.IsStandard) (h : Unmarked "tmp_".toList t) :
    Unmarked "tmp_".toList
      (injectIdentifier Profile.standard l (l.format.token (k + 1)) t) := by
  rw [Held.injectIdentifier_eq]
  exact unmarked_replacedTokens hl (unmarked_replacedCalls hl h)

/-- A character that a text has not cuts every text that has it. -/
theorem Text.infix_cut {w a b : Text} {c : Char} (hc : c ∉ w) (h : w <:+: a ++ c :: b) :
    w <:+: a ∨ w <:+: b := by
  obtain ⟨x, y, hxy⟩ := h
  rw [List.append_assoc] at hxy
  rcases Text.append_cases hxy with ⟨v, rfl, hv⟩ | ⟨d, v, rfl, hv⟩
  · obtain ⟨v, rfl, -⟩ := Segment.prefix_of_notMem hc hv
    exact Or.inl ⟨x, v, by simp⟩
  · obtain ⟨-, rfl⟩ := List.cons.inj hv
    exact Or.inr ⟨v, y, by simp⟩

/-- A stretch without brackets that ends with an underscore and is in no token lies before a call or
behind it. -/
theorem infix_call {s x y : Text} (hs : '(' ∉ s ∧ ')' ∉ s) (hlast : ∃ v, s = v ++ ['_'])
    (hmem : ∃ c ∈ s, c ∉ l.format.token (k + 1))
    (h : s <:+: x ++ (entityCallText Profile.standard (l.format.token (k + 1)) ++ y)) :
    s <:+: x ∨ s <:+: y := by
  have hpieces : x ++ (entityCallText Profile.standard (l.format.token (k + 1)) ++ y) =
      x ++ "toentityid".toList ++ '(' :: (l.format.token (k + 1) ++ ')' :: y) := by
    rw [entityCallText_eq]
    simp
  rw [hpieces] at h
  rcases Text.infix_cut hs.1 h with h | h
  · -- the underscore is no letter of the function
    left
    obtain ⟨v, rfl⟩ := hlast
    obtain ⟨p, q, hpq⟩ := h
    have hsplit : x ++ "toentityid".toList = p ++ v ++ '_' :: q := by rw [← hpq]; simp
    rcases Text.append_cases hsplit with ⟨r, -, hr⟩ | ⟨c, r, rfl, hr⟩
    · have hletter : '_' ∈ "toentityid".toList := by simp [hr]
      exact absurd hletter (by decide)
    · obtain ⟨rfl, -⟩ := List.cons.inj hr
      exact ⟨p, r, by simp⟩
  · rcases Text.infix_cut hs.2 h with h | h
    · obtain ⟨c, hc, hnot⟩ := hmem
      exact absurd (h.subset hc) hnot
    · exact Or.inr h

/-- What a pattern spells with such stretches only is not brought by injecting. -/
theorem hasMatch_injectIdentifier {p : Pattern} (hfree : p.edgeFree = true)
    (hp : ∀ s, p.Spells s → ('(' ∉ s ∧ ')' ∉ s) ∧ (∃ v, s = v ++ ['_']) ∧
      ∃ c ∈ s, c ∉ l.format.token (k + 1)) (h : p.hasMatch t = false) :
    p.hasMatch (injectIdentifier Profile.standard l (l.format.token (k + 1)) t) = false := by
  refine injectIdentifier_preserves (P := fun u => p.hasMatch u = false) (fun x u y hkept => ?_) h
  rw [Bool.eq_false_iff]
  intro hmatch
  obtain ⟨a, s, b, hsplit, hs⟩ := (hasMatch_iff_spells hfree).mp hmatch
  obtain ⟨hbrackets, hlast, hmem⟩ := hp s hs
  have hwithin : s <:+: x ++ (u ++ y) := by
    rcases infix_call hbrackets hlast hmem ⟨a, b, hsplit.symm⟩ with hx | hy
    · exact hx.trans (List.prefix_append _ _).isInfix
    · exact hy.trans ⟨x ++ u, [], by simp⟩
  obtain ⟨a, b, hab⟩ := hwithin
  have hfound := hasMatch_of_spells hfree hs a b
  rw [hab, hkept] at hfound
  cases hfound

theorem Ledger.IsStandard.exists_lead_end (hl : l.IsStandard) : ∃ v, l.format.lead = v ++ ['_'] := by
  obtain ⟨n, hn⟩ := hl.exists_format
  rw [hn]
  cases n with
  | zero => exact ⟨"STR".toList, rfl⟩
  | succ n =>
    exact ⟨"STR_".toList ++ List.replicate n '_', by simp [List.replicate_succ']⟩

theorem Ledger.IsStandard.notMem_lead (hl : l.IsStandard) {c : Char} (hc : isWord c = false) :
    c ∉ l.format.lead := by
  intro hmem
  rw [hl.isWord_of_mem (Or.inl rfl) hmem] at hc
  cases hc

/-- Injecting brings no entity token and no mark to a literal. -/
theorem hasMatch_tokenAtLiteral_inject (hl : l.IsStandard)
    (h : (tokenAtLiteral l.format.lead).hasMatch t = false) :
    (tokenAtLiteral l.format.lead).hasMatch
      (injectIdentifier Profile.standard l (l.format.token (k + 1)) t) = false := by
  refine hasMatch_injectIdentifier (edgeFree_tokenAtLiteral _) (fun s hs => ?_) h
  obtain ⟨e, rfl, he⟩ := spells_tokenAtLiteral.mp hs
  obtain ⟨v, hv⟩ := hl.exists_lead_end
  simp only [List.mem_append, not_or]
  refine ⟨⟨⟨he.notMem (by decide), hl.notMem_lead (by decide)⟩,
    he.notMem (by decide), hl.notMem_lead (by decide)⟩, ⟨e ++ v, by simp [hv]⟩, ':', ?_, ?_⟩
  · obtain ⟨e, rfl, -⟩ := exists_of_spells_token he
    simp
  · exact fun hmem => absurd (hl.isWord_of_mem (Or.inr ⟨k, rfl⟩) hmem) (by decide)

/-- The second letter of a mark and its end. -/
theorem exists_of_spells_mark {m : Text} (h : (word "tmp_".toList).Spells m) :
    ∃ c v, m = v ++ ['_'] ∧ sameLetter 'm' c = true ∧ c ∈ v := by
  have hletters := reads_word_iff.mp h
  rw [show "tmp_".toList = ['t', 'm', 'p', '_'] from rfl] at hletters
  obtain ⟨a, m₁, -, h₁, rfl⟩ := List.forall₂_cons_left_iff.mp hletters
  obtain ⟨c, m₂, hc, h₂, rfl⟩ := List.forall₂_cons_left_iff.mp h₁
  obtain ⟨b, m₃, -, h₃, rfl⟩ := List.forall₂_cons_left_iff.mp h₂
  obtain ⟨e, m₄, he, hnil, rfl⟩ := List.forall₂_cons_left_iff.mp h₃
  obtain rfl := List.forall₂_nil_left_iff.mp hnil
  have hlast := forall_of_sameLetter (p := fun c => c == '_') (x := '_') (by decide) (by decide) he
  obtain rfl := beq_iff_eq.mp hlast
  exact ⟨c, [a, c, b], rfl, hc, by simp⟩

theorem hasMatch_markAtLiteral_inject (hl : l.IsStandard) {i : Nat}
    (h : (markAtLiteral (l.format.token (i + 1))).hasMatch t = false) :
    (markAtLiteral (l.format.token (i + 1))).hasMatch
      (injectIdentifier Profile.standard l (l.format.token (k + 1)) t) = false := by
  refine hasMatch_injectIdentifier (edgeFree_markAtLiteral _) (fun s hs => ?_) h
  obtain ⟨m, rfl, hm⟩ := spells_markAtLiteral.mp hs
  have hnot : ∀ {c : Char}, isWord c = false → c ∉ l.format.token (i + 1) := by
    intro c hc hmem
    rw [hl.isWord_of_mem (Or.inr ⟨i, rfl⟩) hmem] at hc
    cases hc
  simp only [List.mem_append, not_or]
  refine ⟨⟨⟨hnot (by decide), hm.notMem (by decide)⟩, hnot (by decide), hm.notMem (by decide)⟩, ?_⟩
  obtain ⟨c, v, rfl, hc, hcv⟩ := exists_of_spells_mark hm
  refine ⟨⟨l.format.token (i + 1) ++ v, by simp⟩, c, Or.inr (by simp [hcv]), fun hmem => ?_⟩
  rw [hl.sameLetter_token c hmem] at hc
  cases hc

/-- Once the identifier is injected, a held text is settled. -/
theorem settled_injectIdentifier (hl : l.IsStandard) (hapart : l.KeepsApart t)
    (hmark : Unmarked "tmp_".toList t) :
    Settled l k (injectIdentifier Profile.standard l (l.format.token (k + 1)) t) where
  no_token := hasMatch_replaced_token hl
  no_token_at := hasMatch_tokenAtLiteral_inject hl hapart.no_token
  no_mark := unmarked_injectIdentifier hl hmark
  no_mark_at := fun i hi => hasMatch_markAtLiteral_inject hl (hapart.no_mark i hi)
  calls := fun _ _ _ hne hi hcall =>
    call_of_replaced_token hl (fun _ _ h => call_of_replaced hl hapart hne hi h) hcall

/-! ## Setting in lines -/

theorem isGap_of_isWord {c : Char} (h : isWord c = true) : Grammar.isGap c = false := by
  rw [Bool.eq_false_iff]
  intro hgap
  rw [isWord_of_isBlank (isBlank_of_isGap hgap)] at h
  cases h

/-- A call stands in both of two texts that differ in their gaps. -/
theorem CallAt.respaced {u x arg y : Text} (hu : Respaced t u) (harg : arg ≠ [])
    (hgap : ∀ c ∈ arg, Grammar.isGap c = false) (h : CallAt t x arg y) :
    ∃ x' y', Respaced x x' ∧ CallAt u x' arg y' := by
  obtain ⟨w, a, b, c, rfl, hw, ha, hb, hc⟩ := h
  obtain ⟨hne, hword⟩ := isWord_of_spells_word function_letters hw
  obtain ⟨d, arg, rfl⟩ := List.exists_cons_of_ne_nil harg
  rw [List.forall_mem_cons] at hgap
  simp only [List.append_assoc, List.cons_append] at hu
  obtain ⟨x', r₁, rfl, hxx, h₁⟩ := hu.split hne fun c hc => isGap_of_isWord (hword c hc)
  obtain ⟨a', r₂, rfl, ha', h₂⟩ := h₁.split_blanks (spells_blanks.mp ha) (by decide)
  obtain ⟨b', r₃, rfl, hb', h₃⟩ := h₂.split_blanks (spells_blanks.mp hb) hgap.1
  obtain ⟨r₄, rfl, h₄⟩ := h₃.split_start hgap.2
  obtain ⟨c', y', rfl, hc', -⟩ := h₄.split_blanks (spells_blanks.mp hc) (by decide)
  exact ⟨x', y', hxx, w, a', b', c', by simp, hw, spells_blanks.mpr ha', spells_blanks.mpr hb',
    spells_blanks.mpr hc'⟩

theorem IsCall.respaced {u x arg y : Text} (hu : Respaced t u) (harg : arg ≠ [])
    (hgap : ∀ c ∈ arg, Grammar.isGap c = false) (h : IsCall t x arg y) :
    ∃ x' y', IsCall u x' arg y' := by
  obtain ⟨x', y', hxx, hcall⟩ := CallAt.respaced hu harg hgap h.2
  exact ⟨x', y', by rw [← hxx.getLast?]; exact h.1, hcall⟩

/-- A token at the end of a text is at the end of it with other gaps. -/
theorem Respaced.token_suffix {x x' : Text} (hl : l.IsStandard) (hx : Respaced x x')
    (h : l.format.token (k + 1) <:+ x) : l.format.token (k + 1) <:+ x' := by
  obtain ⟨v, rfl⟩ := h
  have hreverse := hx.reverse
  rw [List.reverse_append] at hreverse
  obtain ⟨v', hv', -⟩ := hreverse.split_start fun c hc =>
    isGap_of_isWord (hl.isWord_of_mem (Or.inr ⟨k, rfl⟩) (List.mem_reverse.mp hc))
  exact ⟨v'.reverse, by rw [← List.reverse_reverse x', hv']; simp⟩

theorem Ledger.IsShownCall.respaced {u x y : Text} {is : List Nat} (hl : l.IsStandard)
    (hu : Respaced t u) (hne : is ≠ []) (h : l.IsShownCall t x (l.tokenRun is) y) :
    ∃ x' y', l.IsShownCall u x' (l.tokenRun is) y' := by
  obtain ⟨x', y', hxx, hcall⟩ := CallAt.respaced hu (tokenRun_ne_nil hne)
    (forall_mem_tokenRun fun i c hc => isGap_of_isWord (hl.isWord_of_mem (Or.inr ⟨i, rfl⟩) hc)) h.2
  refine ⟨x', y', ?_, hcall⟩
  rcases h.1 with hx | ⟨i, hi, hend⟩
  · exact Or.inl (by rwa [← hxx.getLast?])
  · exact Or.inr ⟨i, hi, hxx.token_suffix hl hend⟩

/-- A pattern of one word that looks at no more than the word characters beside it. -/
theorem hasMatch_of_respaced {p : Pattern}
    (hp : ∀ {before w after}, p.Reads before w after → w ≠ [] ∧ ∀ c ∈ w, Grammar.isGap c = false)
    (hbeside : ∀ {before w after before' after'}, p.Reads before w after →
      before'.head?.any isWord = before.head?.any isWord →
      after'.head?.any isWord = after.head?.any isWord → p.Reads before' w after')
    {u : Text} (h : Respaced t u) (ht : p.hasMatch t = true) : p.hasMatch u = true := by
  obtain ⟨x, w, y, rfl, hreads⟩ := hasMatch_iff.mp ht
  obtain ⟨hne, hgap⟩ := hp hreads
  rw [List.append_assoc] at h
  obtain ⟨x', y', rfl, hx, hy⟩ := h.split hne hgap
  have hword : ∀ c, Grammar.isGap c = true → isWord c = false :=
    fun c hc => isWord_of_isBlank (isBlank_of_isGap hc)
  refine hasMatch_iff.mpr ⟨x', w, y', (List.append_assoc _ _ _).symm, hbeside hreads ?_ ?_⟩
  · exact (hx.reverse.head? hword).symm
  · exact (hy.head? hword).symm

theorem hasMatch_entityToken_respaced {u : Text} (h : Respaced t u)
    (ht : Profile.standard.entityToken.hasMatch t = true) :
    Profile.standard.entityToken.hasMatch u = true := by
  refine hasMatch_of_respaced ?_ ?_ h ht
  · intro before w after hreads
    obtain ⟨e, rfl, he⟩ := exists_of_spells_token (reads_entityToken_iff.mp hreads).1
    have hword := isWord_of_spells_word token_letters he
    exact ⟨by simp, List.forall_mem_cons.mpr
      ⟨by decide, fun c hc => isGap_of_isWord (hword.2 c hc)⟩⟩
  · intro before w after before' after' hreads _ hafter
    rw [reads_entityToken_iff] at hreads ⊢
    rwa [hafter]

theorem hasMatch_respaced {p : Pattern} (hfree : p.edgeFree = true)
    (hp : ∀ s, p.Spells s → s ≠ [] ∧ ∀ c ∈ s, Grammar.isGap c = false) {u : Text}
    (hu : Respaced t u) (h : p.hasMatch u = false) : p.hasMatch t = false := by
  rw [Bool.eq_false_iff]
  intro hmatch
  rw [hasMatch_of_respaced (fun hreads => hp _ (hreads.spells hfree))
    (fun hreads _ _ => hreads.congr hfree) hu hmatch] at h
  cases h

/-- A text that is settled stays so with other gaps. -/
theorem Settled.respaced {u : Text} (hl : l.IsStandard) (hu : Respaced t u) (h : Settled l k u) :
    Settled l k t where
  no_token := by
    rw [Bool.eq_false_iff]
    intro hmatch
    have hfound := hasMatch_entityToken_respaced hu hmatch
    rw [h.no_token] at hfound
    cases hfound
  no_token_at := by
    refine hasMatch_respaced (edgeFree_tokenAtLiteral _) (fun s hs => ?_) hu h.no_token_at
    obtain ⟨u, rfl, hu⟩ := spells_tokenAtLiteral.mp hs
    obtain ⟨e, rfl, he⟩ := exists_of_spells_token hu
    have hword := isWord_of_spells_word token_letters he
    refine ⟨by simp, List.forall_mem_append.mpr ⟨List.forall_mem_cons.mpr ⟨by decide, ?_⟩, ?_⟩⟩
    · exact fun c hc => isGap_of_isWord (hword.2 c hc)
    · exact fun c hc => isGap_of_isWord (hl.isWord_of_mem (Or.inl rfl) hc)
  no_mark := by
    rintro x v y rfl hv
    obtain ⟨hne, hword⟩ := isWord_of_spells_word mark_letters hv
    obtain ⟨x', y', rfl, hxx, -⟩ := hu.split hne fun c hc => isGap_of_isWord (hword c hc)
    rw [hxx.getLast?]
    exact h.no_mark x' v y' rfl hv
  no_mark_at := by
    intro i hi
    refine hasMatch_respaced (edgeFree_markAtLiteral _) (fun s hs => ?_) hu (h.no_mark_at i hi)
    obtain ⟨m, rfl, hm⟩ := spells_markAtLiteral.mp hs
    obtain ⟨hne, hword⟩ := isWord_of_spells_word mark_letters hm
    refine ⟨by simp [hne], List.forall_mem_append.mpr ⟨?_, ?_⟩⟩
    · exact fun c hc => isGap_of_isWord (hl.isWord_of_mem (Or.inr ⟨i, rfl⟩) hc)
    · exact fun c hc => isGap_of_isWord (hword c hc)
  calls := by
    intro is x y hne hi hcall
    obtain ⟨x', y', hcall⟩ := hcall.respaced hl hu hne
    exact h.calls is x' y' hne hi hcall

end Steps

/-! ## Putting literals back -/

section Beside

variable {l : Ledger} {segs : List (Segment Nat)}

/-- Where what is shown ends with no word character, the held text ends with none or with a token. -/
theorem Ledger.getLast?_join_cases (h : l.Places segs)
    (hlast : (Segment.join l.valueAt segs).getLast?.any isWord = false) :
    (Segment.join (fun i => l.format.token (i + 1)) segs).getLast?.any isWord = false ∨
      ∃ i < l.values.length,
        l.format.token (i + 1) <:+ Segment.join (fun i => l.format.token (i + 1)) segs := by
  rcases List.eq_nil_or_concat' segs with rfl | ⟨A, s, rfl⟩
  · exact Or.inl rfl
  · cases s with
    | plain c => exact Or.inl (by simpa [Segment.join_append] using hlast)
    | span i =>
      rw [Segment.join_append, Segment.join_span, Segment.join_nil, List.append_nil]
      exact Or.inr ⟨i, h.held i (by simp), List.suffix_append _ _⟩

/-- Where what is shown starts with no word character, the held text starts with none or with a
token. -/
theorem Ledger.head?_join_cases
    (hhead : (Segment.join l.valueAt segs).head?.any isWord = false) :
    (Segment.join (fun i => l.format.token (i + 1)) segs).head?.any isWord = false ∨
      l.format.lead <+: Segment.join (fun i => l.format.token (i + 1)) segs := by
  cases segs with
  | nil => exact Or.inl rfl
  | cons s segs =>
    cases s with
    | plain c => exact Or.inl (by simpa using hhead)
    | span i =>
      rw [Segment.join_span, TokenFormat.token, List.append_assoc, List.append_assoc]
      exact Or.inr (List.prefix_append _ _)

end Beside

namespace Settled

variable {l : Ledger} {k : Nat} {t : Text}

/-- An entity token that is shown was there before literals were put back. -/
theorem no_token_outside (hl : l.IsStandard) (h : Settled l k t) (hquote : '\'' ∉ t)
    (hvalues : l.Quoted) : ¬ Profile.standard.entityToken.MatchesOutside (l.revert t) := by
  intro hmatch
  obtain ⟨x, u, y, hsql, hx, hreads⟩ := exists_of_matchesOutside hmatch
  obtain ⟨hu, hy⟩ := reads_entityToken_iff.mp hreads
  obtain ⟨segs, hplaces, rfl, hrevert⟩ := hl.exists_cut hquote
  rw [hrevert] at hsql
  obtain ⟨A, B, rfl, -, rfl⟩ := hplaces.split_outside hvalues (hu.ne_nil (by decide))
    (hu.notMem (by decide)) hx hsql
  have ht : Segment.join (fun i => l.format.token (i + 1)) (A ++ (u.map .plain ++ B)) =
      Segment.join (fun i => l.format.token (i + 1)) A ++ u ++
        Segment.join (fun i => l.format.token (i + 1)) B := by simp [Segment.join_append]
  rcases Ledger.head?_join_cases hy with hhead | ⟨rest, hrest⟩
  · have hfound : Profile.standard.entityToken.hasMatch _ = true :=
      hasMatch_iff.mpr ⟨_, _, _, ht, reads_entityToken_iff.mpr ⟨hu, hhead⟩⟩
    rw [h.no_token] at hfound
    cases hfound
  · have hfound := hasMatch_of_spells (edgeFree_tokenAtLiteral l.format.lead)
      (spells_tokenAtLiteral.mpr ⟨u, rfl, hu⟩)
      (Segment.join (fun i => l.format.token (i + 1)) A) rest
    have hnone := h.no_token_at
    rw [ht, ← hrest] at hnone
    simp only [List.append_assoc] at hfound hnone
    rw [hnone] at hfound
    cases hfound

/-- A mark that is shown was there before literals were put back. -/
theorem no_mark_outside (hl : l.IsStandard) (h : Settled l k t) (hquote : '\'' ∉ t)
    (hvalues : l.Quoted) : ¬ Profile.standard.stagingMark.MatchesOutside (l.revert t) := by
  intro hmatch
  obtain ⟨x, u, y, hsql, hx, hreads⟩ := exists_of_matchesOutside hmatch
  obtain ⟨hu, hbefore⟩ := reads_mark_iff.mp hreads
  obtain ⟨segs, hplaces, rfl, hrevert⟩ := hl.exists_cut hquote
  rw [hrevert] at hsql
  obtain ⟨A, B, rfl, rfl, -⟩ := hplaces.split_outside hvalues
    (hu.ne_nil (by decide)) (hu.notMem (by decide)) hx hsql
  have ht : Segment.join (fun i => l.format.token (i + 1)) (A ++ (u.map .plain ++ B)) =
      Segment.join (fun i => l.format.token (i + 1)) A ++
        (u ++ Segment.join (fun i => l.format.token (i + 1)) B) := by simp [Segment.join_append]
  rw [List.head?_reverse] at hbefore
  rcases Ledger.getLast?_join_cases hplaces.left hbefore with hlast | ⟨i, hi, x, hx⟩
  · have hmark := h.no_mark _ u _ ht hu
    rw [hlast] at hmark
    cases hmark
  · have hfound := hasMatch_of_spells (edgeFree_markAtLiteral (l.format.token (i + 1)))
      (spells_markAtLiteral.mpr ⟨u, rfl, hu⟩) x (Segment.join (fun i => l.format.token (i + 1)) B)
    have hnone := h.no_mark_at i hi
    rw [ht, ← hx] at hnone
    simp only [List.append_assoc] at hfound hnone
    rw [hnone] at hfound
    cases hfound

/-- A call that is shown with literals has the literal of the identifier. -/
theorem argument_eq_value (hl : l.IsStandard) (h : Settled l k t) (hquote : '\'' ∉ t)
    (hvalues : l.Quoted) {x arg y : Text} (hcall : IsCall (l.revert t) x arg y)
    (hx : x.count '\'' % 2 = 0) (harg : arg ≠ []) (houtside : outsideQuotes arg = []) :
    arg = l.valueAt k := by
  obtain ⟨hbefore, w, a, b, c, hsql, hw, ha, hb, hc⟩ := hcall
  obtain ⟨segs, hplaces, rfl, hrevert⟩ := hl.exists_cut hquote
  have hopening : '\'' ∉ w ++ a ++ '(' :: b := by
    simp only [List.mem_append, List.mem_cons, not_or]
    exact ⟨⟨hw.notMem (by decide), notMem_of_blanks ha (by decide)⟩, by decide,
      notMem_of_blanks hb (by decide)⟩
  -- up to the argument, the argument, and what closes the call
  obtain ⟨A, B, rfl, rfl, hB⟩ := hplaces.split_outside hvalues (by simp) hopening hx
    (y := arg ++ (c ++ ')' :: y)) (by rw [← hrevert, hsql]; simp)
  have hclosing : '\'' ∉ c ++ [')'] := by
    rw [List.mem_append, List.mem_singleton, not_or]
    exact ⟨notMem_of_blanks hc (by decide), by decide⟩
  have hhead : (c ++ ')' :: y).head? ≠ some '\'' := by
    cases c with
    | nil => simp
    | cons d c =>
      rw [List.cons_append, List.head?_cons, Ne, Option.some.injEq]
      rintro rfl
      exact hclosing (by simp)
  obtain ⟨is, C, rfl, rfl, hC⟩ := hplaces.right.right.split_quoted hvalues houtside hhead hB.symm
  obtain ⟨C, rfl, rfl⟩ := hplaces.right.right.right.split_stretch hvalues (w := c ++ [')']) hclosing
    (y := y) (by rw [← hC]; simp)
  have hne : is ≠ [] := by
    rintro rfl
    exact harg rfl
  have hcall : l.IsShownCall (Segment.join (fun i => l.format.token (i + 1))
      (A ++ ((w ++ a ++ '(' :: b).map .plain ++ (is.map .span ++ ((c ++ [')']).map .plain ++ C)))))
      (Segment.join (fun i => l.format.token (i + 1)) A) (l.tokenRun is)
      (Segment.join (fun i => l.format.token (i + 1)) C) :=
    ⟨Ledger.getLast?_join_cases hplaces.left hbefore, w, a, b, c,
      by simp [Segment.join_append, Ledger.tokenRun], hw, ha, hb, hc⟩
  have hheld : ∀ i ∈ is, i < l.values.length := fun i hi => hplaces.held i (by simp [hi])
  rw [h.calls is _ _ hne hheld hcall]
  simp [Ledger.valueRun]

/-- A settled text is reached once its literals are put back. -/
theorem isReached {identifier : Text} (hl : l.IsStandard)
    (h : Settled l (l.values.idxOf (quoteLiteral identifier)) t) (hquote : '\'' ∉ t)
    (hvalues : l.Quoted) (hheld : quoteLiteral identifier ∈ l.values) :
    IsReached identifier (l.revert t) where
  no_token := h.no_token_outside hl hquote hvalues
  no_mark := h.no_mark_outside hl hquote hvalues
  calls := by
    intro x arg y hcall hx harg houtside
    rw [h.argument_eq_value hl hquote hvalues hcall hx harg houtside]
    simp [valueAt, List.idxOf_lt_length_of_mem hheld]

end Settled

end MutationPreview
