import MutationPreview.Proofs.Mutation.Keyword
import MutationPreview.Proofs.Preview

/-!
# Tidying keeps the first word

A query whose text starts with the word of its mutation is still one when it has been tidied and
reverted: none of the patterns that tidying looks for starts in that word or in the blanks before
it, spaces apart, and no token does. So it fails the last check, which asks for the word of a query.

Main statements: tidying and reverting keep the word (`Leads.revert_tidy`), and the last check
rejects it (`Leads.queryHead_eq_false`).
-/

namespace MutationPreview

open Pattern

/-! ## Replacing behind a front -/

namespace Pattern

theorem replaceAll_front {p : Pattern} (hp : p.consumes = true) {front rest : Text}
    (hnone : ∀ a c b, front = a ++ c :: b → p.matchAt? ⟨a.reverse, c :: (b ++ rest)⟩ = none)
    (f : Match → Text) : ∃ rest', p.replaceAll f (front ++ rest) = front ++ rest' := by
  obtain ⟨tail, htail, -⟩ := (segmented_segments hp (front ++ rest)).past_plain
    (by simpa using hnone)
  exact ⟨_, by rw [replaceAll, htail, Segment.join_append, Segment.join_map_plain]⟩

end Pattern

/-! ## Texts that start with the word of a mutation -/

/-- A text that starts, behind blanks, with the keyword of a kind of statement. -/
def Leads (kind : StatementKind) (t : Text) : Prop :=
  ∃ w blanks rest, kind.Writes w ∧ LeadsWith w t blanks rest

/-- The letters with which the patterns of tidying and of the last check start are not those with
which a keyword starts. -/
theorem StatementKind.Writes.first_letter {c : Char} (h : c.toLower ∈ "udm".toList) {x : Char}
    (hx : x ∈ "tswfjao".toList) : sameLetter x c = false := by
  have hall : ∀ x ∈ "tswfjao".toList, ∀ n < 128, (Char.ofNat n).toLower ∈ "udm".toList →
      (!sameLetter x (Char.ofNat n)) = true := by decide
  have hother := forall_of_toLower (p := fun c => !sameLetter x c) (by decide) (hall x hx) h
  simpa using hother

theorem StatementKind.Writes.second_letter {c : Char} (h : c.toLower ∈ "pe".toList) :
    sameLetter 's' c = false := by
  have hall : ∀ n < 128, (Char.ofNat n).toLower ∈ "pe".toList →
      (!sameLetter 's' (Char.ofNat n)) = true := by decide
  have hother := forall_of_toLower (p := fun c => !sameLetter 's' c) (by decide) hall h
  simpa using hother

/-- A text made of a run of a class and of something else behind it is so in one way. -/
theorem Text.run_unique {p : Char → Bool} {a b x y : Text} (ha : ∀ c ∈ a, p c = true)
    (hb : ∀ c ∈ b, p c = true) (hx : x.head?.any p = false) (hy : y.head?.any p = false)
    (h : a ++ x = b ++ y) : a = b ∧ x = y := by
  have htake : ∀ {u v : Text}, (∀ c ∈ u, p c = true) → v.head?.any p = false →
      (u ++ v).takeWhile p = u := by
    intro u v hu hv
    rw [List.takeWhile_append_of_pos hu]
    cases v with
    | nil => simp
    | cons c v => simp_all
  have hab : a = b := by rw [← htake ha hx, h, htake hb hy]
  subst hab
  exact ⟨rfl, List.append_cancel_left h⟩

section Front

variable {kind : StatementKind} {w t blanks rest : Text}

/-- Replacing keeps the first word if no match starts in it or in the blanks before it. -/
theorem LeadsWith.replaceAll (hlead : LeadsWith w t blanks rest) {p : Pattern}
    (hp : p.consumes = true)
    (hnone : ∀ a c b, blanks ++ w = a ++ c :: b →
      p.matchAt? ⟨a.reverse, c :: (b ++ rest)⟩ = none) (f : Match → Text) :
    ∃ rest', LeadsWith w (p.replaceAll f t) blanks rest' := by
  obtain ⟨rest', hrest⟩ := replaceAll_front hp hnone f
  rw [List.append_assoc, ← hlead.eq, List.append_assoc] at hrest
  exact ⟨rest', hrest, hlead.blank⟩

/-- A pattern that starts with a word of its own does not start in the first word of the text. -/
theorem StatementKind.Writes.matchAt?_word (hwrites : kind.Writes w)
    (hblank : ∀ c ∈ blanks, isBlank c = true) {x y : Char} {k : Text} {ps : List Pattern}
    (hx : x ∈ "udmt".toList) (hxy : x = 't' ∨ y = 's') {a b : Text} {c : Char}
    (hsplit : blanks ++ w = a ++ c :: b) (rest : Text) :
    (chain (wordEdge :: word (x :: y :: k) :: ps)).matchAt? ⟨a.reverse, c :: (b ++ rest)⟩ = none := by
  have hword : ∀ c ∈ w, isWord c = true := fun c hc =>
    (isKeywordChar_iff.mp (hwrites.isKeywordChar_of_mem hc)).1
  by_cases ha : a = blanks
  · subst ha
    obtain rfl := List.append_cancel_left hsplit
    obtain ⟨c', d, w', hw, hfirst, hsecond⟩ := hwrites.exists_cons
    rw [List.cons.injEq] at hw
    obtain ⟨rfl, rfl⟩ := hw
    rw [matchAt?_eq_none_iff]
    intro u after htext hreads
    obtain ⟨v, z, rfl, hletters, -⟩ := exists_of_reads_edge_word hreads
    obtain _ | ⟨hc, _ | ⟨hd, -⟩⟩ := hletters
    simp only [List.cons_append, List.cons.injEq] at htext
    obtain ⟨rfl, rfl, -⟩ := htext
    rcases hxy with rfl | rfl
    · rw [StatementKind.Writes.first_letter hfirst (by decide)] at hc
      cases hc
    · rw [StatementKind.Writes.second_letter hsecond] at hd
      cases hd
  · exact (startsWord_of_edge_word hx).matchAt?_eq_none hblank hword hsplit ha rest

/-- The text from inside the blanks or the first word on: blanks and then a character of the word. -/
theorem exists_rest_of_front (hwrites : kind.Writes w) (hblank : ∀ c ∈ blanks, isBlank c = true)
    {a b : Text} {c : Char} (hsplit : blanks ++ w = a ++ c :: b) :
    ∃ z d v, c :: b = z ++ d :: v ∧ (∀ e ∈ z, isBlank e = true) ∧ isBlank d = false ∧
      (z ≠ [] → d.toLower ∈ "udm".toList) := by
  have hkeep : ∀ c ∈ w, isBlank c = false := fun c hc =>
    (isKeywordChar_iff.mp (hwrites.isKeywordChar_of_mem hc)).2.1
  rcases List.append_eq_append_iff.mp hsplit with ⟨z, rfl, hrest⟩ | ⟨z, rfl, hrest⟩
  · exact ⟨[], c, b, rfl, by simp, hkeep c (by rw [hrest]; simp), by simp⟩
  · obtain ⟨d, e, v, hw, hfirst, -⟩ := hwrites.exists_cons
    refine ⟨z, d, e :: v, by rw [hrest, hw], fun e he => hblank e (by simp [he]), ?_, fun _ => hfirst⟩
    exact hkeep d (by rw [hw]; simp)

theorem StatementKind.Writes.matchAt?_lineStart (hwrites : kind.Writes w)
    (hblank : ∀ c ∈ blanks, isBlank c = true) {a b : Text} {c : Char}
    (hsplit : blanks ++ w = a ++ c :: b) (rest : Text) :
    Grammar.lineStart.matchAt? ⟨a.reverse, c :: (b ++ rest)⟩ = none := by
  rw [matchAt?_eq_none_iff]
  intro u after htext hreads
  obtain ⟨gap, v, rfl, hgap, hreads⟩ := reads_chain_cons.mp hreads
  obtain ⟨k, gap', rfl, hk, -⟩ := reads_chain_cons.mp hreads
  obtain ⟨hgapne, hgaps⟩ := spells_many1.mp (hgap.spells (by decide))
  obtain ⟨z, d, y, hfront, hz, hd, hletter⟩ := exists_rest_of_front hwrites hblank hsplit
  -- what follows the gap is a letter of a connective, and not the first one of a keyword
  obtain ⟨e, k', x, rfl, hx, he⟩ : ∃ e k' x, k = e :: k' ∧ x ∈ "wfjao".toList ∧
      sameLetter x e = true := by
    obtain ⟨q, hq, hreads⟩ := reads_firstOf.mp hk
    simp only [List.mem_cons, List.not_mem_nil, or_false] at hq
    rcases hq with rfl | rfl | rfl | rfl | rfl
    all_goals
      have hletters := reads_word_iff.mp hreads
      obtain _ | ⟨he, -⟩ := hletters
      exact ⟨_, _, _, rfl, by decide, he⟩
  have hplain : ∀ x ∈ "wfjao".toList, isPlainLetter x = true ∧ ∀ n < 128,
      (Char.ofNat n).toUpper = x.toUpper → (!isBlank (Char.ofNat n)) = true := by decide
  have heblank : isBlank e = false := by
    have hnot := forall_of_sameLetter (p := fun c => !isBlank c) (hplain x hx).1 (hplain x hx).2 he
    simpa using hnot
  have hgapblank : ∀ c ∈ gap, isBlank c = true := by
    intro c hc
    have hgapc := hgaps c hc
    simp only [Grammar.isGap, Bool.or_eq_true, beq_iff_eq] at hgapc
    rcases hgapc with rfl | rfl <;> decide
  have heq : gap ++ e :: (k' ++ gap' ++ after) = z ++ d :: (y ++ rest) := by
    rw [← List.cons_append, hfront] at htext
    simpa using htext.symm
  obtain ⟨rfl, hrest⟩ := Text.run_unique hgapblank hz (by simp [heblank]) (by simp [hd]) heq
  obtain ⟨rfl, -⟩ := List.cons.inj hrest
  have hletters : ∀ x ∈ "wfjao".toList, x ∈ "tswfjao".toList := by decide
  rw [StatementKind.Writes.first_letter (hletter hgapne) (hletters x hx)] at he
  cases he

/-- A pattern that reads blanks only does not start in a word. -/
theorem matchAt?_blanks {p : Pattern} (hp : p.consumes = true)
    (hreads : ∀ before u after, p.Reads before u after → ∀ c ∈ u, isBlank c = true)
    {before after : Text} {c : Char} (hc : isBlank c = false) :
    p.matchAt? ⟨before, c :: after⟩ = none := by
  rw [matchAt?_eq_none_iff]
  intro u rest hsplit hu
  obtain ⟨d, v, rfl⟩ := List.exists_cons_of_ne_nil (hu.ne_nil hp)
  rw [List.cons_append, List.cons.injEq] at hsplit
  rw [hsplit.1, hreads _ _ _ hu d (by simp)] at hc
  cases hc

/-- Replacing blanks by blanks keeps the first word, with other blanks before it. -/
theorem Segmented.leadsWith {p : Pattern} (hp : p.consumes = true)
    (hreads : ∀ before u after, p.Reads before u after → ∀ c ∈ u, isBlank c = true)
    {f : Match → Text} (hf : ∀ m, ∀ c ∈ f m, isBlank c = true) (hw : w ≠ [])
    (hkeep : ∀ c ∈ w, isBlank c = false) {before after : Text} {segs : List (Segment Match)}
    (h : Segmented p before after segs) (hlead : LeadsWith w after blanks rest) :
    ∃ blanks' rest', LeadsWith w (Segment.join f segs) blanks' rest' := by
  have hword : ∀ {before : Text} {segs : List (Segment Match)},
      Segmented p before (w ++ rest) segs →
      ∃ blanks' rest', LeadsWith w (Segment.join f segs) blanks' rest' := by
    intro before segs h
    obtain ⟨tail, rfl, -⟩ := h.past_plain fun a c b hsplit =>
      matchAt?_blanks hp hreads (hkeep c (by rw [hsplit]; simp))
    exact ⟨[], Segment.join f tail, by rw [Segment.join_append, Segment.join_map_plain]; rfl,
      by simp⟩
  induction h generalizing blanks with
  | done _ =>
    have hnil := List.append_eq_nil_iff.mp hlead.eq.symm
    exact absurd (List.append_eq_nil_iff.mp hnil.2).1 hw
  | @plain before text c segs hnone hrest ih =>
    cases blanks with
    | nil =>
      have heq : c :: text = w ++ rest := hlead.eq
      exact hword (heq ▸ Segmented.plain hnone hrest)
    | cons b blanks =>
      have heq := hlead.eq
      rw [List.cons_append, List.cons.injEq] at heq
      obtain ⟨blanks', rest', hlead'⟩ := ih ⟨heq.2, fun d hd => hlead.blank d (by simp [hd])⟩
      refine ⟨c :: blanks', rest', by rw [Segment.join_plain, hlead'.eq]; rfl, ?_⟩
      intro d hd
      rcases List.mem_cons.mp hd with rfl | hd
      · rw [heq.1]
        exact hlead.blank b (by simp)
      · exact hlead'.blank d hd
  | @span before text m segs hsome hne hrest ih =>
    obtain ⟨tail, -, -, -, hm⟩ := matchAt?_some hsome
    -- the match lies in the blanks, because it is made of blanks
    obtain ⟨z, rfl, htext⟩ : ∃ z, blanks = m.text ++ z ∧ text = z ++ (w ++ rest) := by
      rcases List.append_eq_append_iff.mp hlead.eq with ⟨z, hz, htext⟩ | ⟨z, hz, htext⟩
      · exact ⟨z, hz, htext⟩
      · cases z with
        | nil => exact ⟨[], by simpa using hz.symm, by simpa using htext.symm⟩
        | cons d z =>
          obtain ⟨e, w', rfl⟩ := List.exists_cons_of_ne_nil hw
          rw [List.cons_append, List.cons_append, List.cons.injEq] at htext
          have hblank := hreads _ _ _ hm d (by rw [hz]; simp)
          rw [← htext.1, hkeep e (by simp)] at hblank
          cases hblank
    obtain ⟨blanks', rest', hlead'⟩ := ih ⟨htext, fun d hd => hlead.blank d (by simp [hd])⟩
    refine ⟨f m ++ blanks', rest', by rw [Segment.join_span, hlead'.eq]; simp, ?_⟩
    intro d hd
    rcases List.mem_append.mp hd with hd | hd
    · exact hf m d hd
    · exact hlead'.blank d hd

end Front

/-! ## Tidying and reverting -/

namespace Leads

variable {kind : StatementKind} {t : Text}

theorem collapseSpaces (h : Leads kind t) : Leads kind (collapseSpaces t) := by
  obtain ⟨w, blanks, rest, hwrites, hlead⟩ := h
  have hreads : ∀ before u after, Grammar.spaceRun.Reads before u after →
      ∀ c ∈ u, isBlank c = true := by
    rintro before u after ⟨v, u, rfl, ⟨c, hc, rfl⟩, v', u', rfl, ⟨d, hd, rfl⟩, hrest⟩ e he
    have hspace : e = ' ' := by
      simp only [List.singleton_append, List.mem_cons] at he
      rcases he with rfl | rfl | he
      · simpa using hc
      · simpa using hd
      · simpa using hrest e he
    rw [hspace]
    decide
  have hblanks : ∀ (m : Match), ∀ c ∈ [' '], isBlank c = true := by
    intro m c hc
    rw [List.mem_singleton.mp hc]
    decide
  have hkeep : ∀ c ∈ w, isBlank c = false := fun c hc =>
    (isKeywordChar_iff.mp (hwrites.isKeywordChar_of_mem hc)).2.1
  obtain ⟨blanks', rest', hlead'⟩ := Segmented.leadsWith (by decide) hreads hblanks hwrites.ne_nil
    hkeep (segmented_segments (by decide) t) hlead
  exact ⟨w, blanks', rest', hwrites, hlead'⟩

theorem breakLines (h : Leads kind t) : Leads kind (breakLines t) := by
  obtain ⟨w, blanks, rest, hwrites, hlead⟩ := h
  obtain ⟨rest', hlead'⟩ := hlead.replaceAll (p := Grammar.lineStart) (by decide)
    (fun a c b hsplit => hwrites.matchAt?_lineStart hlead.blank hsplit rest) _
  exact ⟨w, blanks, rest', hwrites, hlead'⟩

/-- Replacing a word of tidying keeps the first word of the text. -/
theorem replaceAll_word (h : Leads kind t) {x y : Char} {k : Text} {ps : List Pattern}
    (hx : x ∈ "udmt".toList) (hxy : x = 't' ∨ y = 's') (f : Match → Text) :
    Leads kind ((chain (wordEdge :: word (x :: y :: k) :: ps)).replaceAll f t) := by
  obtain ⟨w, blanks, rest, hwrites, hlead⟩ := h
  have hconsumes : (chain (wordEdge :: word (x :: y :: k) :: ps)).consumes = true := by
    cases ps <;> rfl
  obtain ⟨rest', hlead'⟩ := hlead.replaceAll hconsumes
    (fun a c b hsplit => hwrites.matchAt?_word hlead.blank hx hxy hsplit rest) f
  exact ⟨w, blanks, rest', hwrites, hlead'⟩

/-- The bare entity token starts with a character that neither blanks nor keywords have. -/
theorem replaceAll_entityToken (h : Leads kind t) (f : Match → Text) :
    Leads kind (Profile.standard.entityToken.replaceAll f t) := by
  obtain ⟨w, blanks, rest, hwrites, hlead⟩ := h
  have hcolon : ∀ {c : Char}, sameLetter ':' c = true → (!isBlank c && !isWord c) = true := fun h =>
    forall_of_sameLetter (x := ':') (p := fun c => !isBlank c && !isWord c) (by decide)
      (by decide) h
  have hnone : ∀ a c b, blanks ++ w = a ++ c :: b →
      Profile.standard.entityToken.matchAt? ⟨a.reverse, c :: (b ++ rest)⟩ = none := by
    intro a c b hsplit
    rw [matchAt?_eq_none_iff]
    intro u after htext hreads
    have hreads : (chain [word (':' :: "entityid".toList), wordEdge]).Reads a.reverse u after :=
      hreads
    obtain ⟨v, z, rfl, hword, -⟩ := reads_chain_cons.mp hreads
    obtain _ | ⟨hd, -⟩ := reads_word_iff.mp hword
    rw [List.cons_append, List.cons_append, List.cons.injEq] at htext
    have hother := hcolon hd
    rw [← htext.1] at hother
    have hmem : c ∈ blanks ++ w := by simp [hsplit]
    rcases List.mem_append.mp hmem with hc | hc
    · simp [hlead.blank c hc] at hother
    · simp [(isKeywordChar_iff.mp (hwrites.isKeywordChar_of_mem hc)).1] at hother
  obtain ⟨rest', hlead'⟩ := hlead.replaceAll (by decide) hnone f
  exact ⟨w, blanks, rest', hwrites, hlead'⟩

theorem injectIdentifier (h : Leads kind t) (literals : Ledger) (token : Text) :
    Leads kind (injectIdentifier Profile.standard literals token t) := by
  have hcalls : ∀ f, Leads kind (Profile.standard.entityCall.replaceAll f t) := fun f =>
    h.replaceAll_word (by decide) (Or.inl rfl) f
  exact (hcalls _).replaceAll_entityToken _

/-- Reversion copies a text up to the first character of its tokens. -/
theorem revert (h : Leads kind t) {l : Ledger} {o : Char} {lead : Text}
    (hlead : l.format.lead = o :: lead) (ho : o ∈ "(S".toList) : Leads kind (l.revert t) := by
  obtain ⟨w, blanks, rest, hwrites, hfront⟩ := h
  have hnot : o ∉ blanks ++ w := by
    intro hmem
    rcases List.mem_append.mp hmem with hmem | hmem
    · have hblank : ∀ o ∈ "(S".toList, isBlank o = false := by decide
      have hfalse := hblank o ho
      rw [hfront.blank o hmem] at hfalse
      cases hfalse
    · have hsub : ∀ o ∈ "(S".toList, o ∈ "'(S \r\n".toList := by decide
      exact (isKeywordChar_iff.mp (hwrites.isKeywordChar_of_mem hmem)).2.2 (hsub o ho)
  have hne : l.format.lead ≠ [] := by simp [hlead]
  refine ⟨w, blanks, Text.substitute l.revertRule rest, hwrites, ?_, hfront.blank⟩
  rw [Ledger.revert_eq_substitute hne, hfront.eq, ← List.append_assoc,
    Ledger.substitute_append_of_notMem hlead hnot, List.append_assoc]

/-- Tidying and reverting keep the first word of the text. -/
theorem revert_tidy {held : Held} (h : Leads kind held.text) (hs : held.IsStandard)
    (identifier : Text) : Leads kind (tidy Profile.standard identifier held).revert := by
  have hs' := hs.holdLiteral (quoteLiteral identifier)
  obtain ⟨k, hlit⟩ := hs'.literals.exists_format
  obtain ⟨u, hsub⟩ := hs'.subqueries
  obtain ⟨n, hlead⟩ := Profile.standard.subqueryFormat.exists_avoiding_lead u
  have husing : Leads kind (Grammar.usingKeyword.replaceAll (fun _ => []) held.text) :=
    h.replaceAll_word (by decide) (Or.inr rfl) _
  have hstaging : Leads kind (Profile.standard.stagingMark.replaceAll (fun _ => [])
      (Grammar.usingKeyword.replaceAll (fun _ => []) held.text)) :=
    husing.replaceAll_word (by decide) (Or.inl rfl) _
  have hspaces := ((hstaging.injectIdentifier (held.holdLiteral (quoteLiteral identifier)).1.literals
    (held.holdLiteral (quoteLiteral identifier)).2).breakLines).collapseSpaces
  have hopened := hspaces.revert (l := (held.holdLiteral (quoteLiteral identifier)).1.subqueries)
    (hsub ▸ hlead) (by decide)
  exact hopened.revert (l := (held.holdLiteral (quoteLiteral identifier)).1.literals)
    (by rw [hlit]; rfl) (by decide)

/-- The last check rejects a text that starts with the word of a mutation. -/
theorem queryHead_eq_false (h : Leads kind t) :
    Grammar.queryHead.hasMatch (t.dropWhile isBlank) = false := by
  obtain ⟨w, blanks, rest, hwrites, hlead⟩ := h
  obtain ⟨c, d, w, rfl, hfirst, -⟩ := hwrites.exists_cons
  have hc := (isKeywordChar_iff.mp (hwrites.isKeywordChar_of_mem List.mem_cons_self)).2.1
  have hdrop : t.dropWhile isBlank = c :: d :: (w ++ rest) := by
    rw [hlead.eq, List.dropWhile_append_of_pos hlead.blank]
    simp [hc]
  rw [hdrop, Bool.eq_false_iff]
  intro hmatch
  obtain ⟨x, u, y, hsplit, hreads⟩ := hasMatch_iff.mp hmatch
  obtain ⟨v, u, rfl, ⟨hx, rfl⟩, hreads⟩ := reads_chain_cons.mp hreads
  obtain ⟨v, z, rfl, hword, -⟩ := reads_chain_cons.mp hreads
  have hx : x = [] := by simpa using hx
  subst hx
  rcases hword with hword | hword
  all_goals
    obtain _ | ⟨he, -⟩ := reads_word_iff.mp hword
    simp only [List.nil_append, List.cons_append, List.cons.injEq] at hsplit
    rw [← hsplit.1, StatementKind.Writes.first_letter hfirst (by decide)] at he
    cases he

end Leads

end MutationPreview
