import MutationPreview.Proofs.Mutation.Selected
import MutationPreview.Proofs.Pattern.Choice

/-!
# The head that is checked and the head that is replaced

The head of a delete and of a merge is the match of one pattern. For an update, one pattern is
checked, `update <schema>.<table> [alias] set`, and another is replaced, `update <target> set …
where`, whatever the target. Neither is bound to the start of the statement.

Main statement: for which converted statements the checked head stands at the very start
(`Job.header_at_start`). For an update that is so exactly when the target that is selected from has
the form of the checked one, and then it is the checked one, up to an alias `set`.
-/

namespace MutationPreview

open Pattern

namespace Grammar

/-- The target `<schema>.<table> [alias]` of an update. -/
def updateTarget : Pattern := chain [qualifiedName, optional (chain [blanks1, name])]

end Grammar

/-- The text starts with the head `update <target> set`. -/
def HasTarget (t target : Text) : Prop :=
  ∃ w gap gap' k rest, t = w ++ (gap ++ (target ++ (gap' ++ (k ++ rest)))) ∧
    (word "update".toList).Spells w ∧ blanks1.Spells gap ∧ Grammar.updateTarget.Spells target ∧
    blanks1.Spells gap' ∧ (word "set".toList).Spells k ∧ rest.head?.any isWord = false

/-! ## Word edges -/

/-- A word starts at an edge if no word character stands before it. -/
theorem atWordEdge_before {w : Text} (hw : w ≠ [] ∧ ∀ c ∈ w, isWord c = true) (before rest : Text) :
    Cursor.atWordEdge ⟨before, w ++ rest⟩ = !before.head?.any isWord := by
  obtain ⟨c, w, rfl⟩ := List.exists_cons_of_ne_nil hw.1
  simp [Cursor.atWordEdge, hw.2 c]

/-- A word ends at an edge if no word character stands behind it. -/
theorem atWordEdge_behind {w : Text} (hw : w ≠ [] ∧ ∀ c ∈ w, isWord c = true) (before rest : Text) :
    Cursor.atWordEdge ⟨w.reverse ++ before, rest⟩ = !rest.head?.any isWord := by
  rcases List.eq_nil_or_concat w with hnil | ⟨v, c, rfl⟩
  · exact absurd hnil hw.1
  · simp [Cursor.atWordEdge, hw.2 c]

theorem exists_letter {t u : Text} (h : List.Forall₂ (fun x c => sameLetter x c = true) t u)
    {c : Char} (hc : c ∈ u) : ∃ x ∈ t, sameLetter x c = true := by
  induction h with
  | nil => simp at hc
  | cons hx _ ih =>
    rcases List.mem_cons.mp hc with rfl | hc
    · exact ⟨_, List.mem_cons_self, hx⟩
    · obtain ⟨x, hmem, hxc⟩ := ih hc
      exact ⟨x, List.mem_cons_of_mem _ hmem, hxc⟩

/-- The words that heads start with are made of word characters. -/
theorem isWord_of_spells {t w : Text} (ht : t ≠ [] ∧ ∀ x ∈ t, x ∈ "setupdamrg".toList)
    (h : (word t).Spells w) : w ≠ [] ∧ ∀ c ∈ w, isWord c = true := by
  have hletters := reads_word_iff.mp h
  have hplain : ∀ x ∈ "etupdamrg".toList, isPlainLetter x = true ∧ ∀ n < 128,
      (Char.ofNat n).toUpper = x.toUpper → isWord (Char.ofNat n) = true := by decide
  have hlong : ∀ c ∈ ['s', 'S', 'ſ'], isWord c = true := by decide
  constructor
  · rintro rfl
    cases hletters
    exact ht.1 rfl
  · intro c hc
    obtain ⟨x, hx, hxc⟩ := exists_letter hletters hc
    rcases List.mem_cons.mp (ht.2 x hx) with rfl | hx
    · exact hlong c (mem_of_sameLetter_s hxc)
    · exact forall_of_sameLetter (hplain x hx).1 (hplain x hx).2 hxc

theorem isWord_of_mem_update {w : Text} (h : (word "update".toList).Spells w) :
    w ≠ [] ∧ ∀ c ∈ w, isWord c = true := isWord_of_spells (by decide) h

theorem isWord_of_mem_set {k : Text} (h : (word "set".toList).Spells k) :
    k ≠ [] ∧ ∀ c ∈ k, isWord c = true := isWord_of_spells (by decide) h

/-! ## Targets -/

theorem spells_updateTarget {u : Text} : Grammar.updateTarget.Spells u ↔
    qualifiedName.Spells u ∨ ∃ q gap nick, u = q ++ (gap ++ nick) ∧ qualifiedName.Spells q ∧
      blanks1.Spells gap ∧ name.Spells nick := by
  rw [Grammar.updateTarget, spells_chain_cons (by decide) (by decide)]
  constructor
  · rintro ⟨q, v, rfl, hq, hv | rfl⟩
    · obtain ⟨gap, nick, rfl, hgap, hnick⟩ := (spells_seq (by decide) (by decide)).mp hv
      exact Or.inr ⟨q, gap, nick, rfl, hq, hgap, hnick⟩
    · exact Or.inl (by rwa [List.append_nil])
  · rintro (hu | ⟨q, gap, nick, rfl, hq, hgap, hnick⟩)
    · exact ⟨u, [], by simp, hu, Or.inr rfl⟩
    · exact ⟨q, gap ++ nick, rfl, hq,
        Or.inl ((spells_seq (by decide) (by decide)).mpr ⟨gap, nick, rfl, hgap, hnick⟩)⟩

/-- A qualified name starts with a word character and holds no blank. -/
theorem blankFree_of_qualifiedName {q : Text} (h : qualifiedName.Spells q) :
    q ≠ [] ∧ ∀ c ∈ q, isBlank c = false := by
  obtain ⟨schema, v, rfl, hschema, hv⟩ := (spells_chain_cons (by decide) (by decide)).mp h
  obtain ⟨dot, table, rfl, hdot, htable⟩ := (spells_seq (by decide) (by decide)).mp hv
  obtain rfl := spells_just.mp hdot
  refine ⟨by simp, fun c hc => ?_⟩
  rw [Bool.eq_false_iff]
  intro hblank
  have hword := isWord_of_isBlank hblank
  simp only [List.mem_append, List.mem_singleton] at hc
  rcases hc with hc | rfl | hc
  · rw [(spells_many1.mp hschema).2 c hc] at hword
    cases hword
  · exact absurd hblank (by decide)
  · rw [(spells_many1.mp htable).2 c hc] at hword
    cases hword

/-- In the head that is checked, the blanks behind the target belong to the alias if there is one. -/
theorem spells_target_blanks {u : Text} :
    (chain [qualifiedName, blanks1, optionalName]).Spells u ↔
      ∃ target gap, u = target ++ gap ∧ Grammar.updateTarget.Spells target ∧
        blanks1.Spells gap := by
  rw [spells_chain_cons (by decide) (by decide)]
  constructor
  · rintro ⟨q, v, rfl, hq, hv⟩
    obtain ⟨gap, o, rfl, hgap, ho⟩ := (spells_seq (by decide) (by decide)).mp hv
    rcases spells_optional.mp ho with ho | rfl
    · obtain ⟨nick, gap', rfl, hnick, hgap'⟩ := (spells_seq (by decide) (by decide)).mp ho
      exact ⟨q ++ (gap ++ nick), gap', by simp,
        spells_updateTarget.mpr (Or.inr ⟨q, gap, nick, rfl, hq, hgap, hnick⟩), hgap'⟩
    · exact ⟨q, gap, by simp, spells_updateTarget.mpr (Or.inl hq), hgap⟩
  · rintro ⟨target, gap, rfl, htarget, hgap⟩
    rcases spells_updateTarget.mp htarget with hq | ⟨q, gap', nick, rfl, hq, hgap', hnick⟩
    · exact ⟨target, gap, rfl, hq, (spells_seq (by decide) (by decide)).mpr
        ⟨gap, [], by simp, hgap, Or.inr rfl⟩⟩
    · refine ⟨q, gap' ++ (nick ++ gap), by simp, hq, (spells_seq (by decide) (by decide)).mpr
        ⟨gap', nick ++ gap, rfl, hgap', Or.inl ?_⟩⟩
      exact (spells_seq (by decide) (by decide)).mpr ⟨nick, gap, rfl, hnick, hgap⟩

/-- The head that is checked is read where the text starts with a target. -/
theorem matchAt?_updateHeader_iff {before t : Text} (hbefore : before.head?.any isWord = false) :
    (Grammar.updateHeader.matchAt? ⟨before, t⟩).isSome = true ↔ ∃ target, HasTarget t target := by
  rw [matchAt?_isSome_iff]
  constructor
  · rintro ⟨u, rest, rfl, h⟩
    obtain ⟨e, u, rfl, ⟨rfl, -⟩, h⟩ := reads_chain_cons.mp h
    obtain ⟨w, u, rfl, hw, h⟩ := reads_chain_cons.mp h
    obtain ⟨gap, u, rfl, hgap, h⟩ := reads_chain_cons.mp h
    have h : (chain ([qualifiedName, blanks1, optionalName] ++ [word "set".toList, wordEdge])).Reads
        _ u rest := h
    obtain ⟨v, u, rfl, hv, h⟩ := reads_chain_append.mp h
    obtain ⟨k, e, rfl, hk, ⟨rfl, hedge⟩⟩ := reads_chain_cons.mp h
    obtain ⟨target, gap', rfl, htarget, hgap'⟩ := spells_target_blanks.mp (hv.spells (by decide))
    have hk := hk.spells (edgeFree_word _)
    rw [atWordEdge_behind (isWord_of_mem_set hk), Bool.not_eq_true'] at hedge
    exact ⟨target, w, gap, gap', k, rest, by simp, hw.spells (edgeFree_word _),
      hgap.spells (by decide), htarget, hgap', hk, hedge⟩
  · rintro ⟨target, w, gap, gap', k, rest, rfl, hw, hgap, htarget, hgap', hk, hrest⟩
    have hv := spells_target_blanks.mpr ⟨target, gap', rfl, htarget, hgap'⟩
    refine ⟨w ++ (gap ++ ((target ++ gap') ++ k)), rest, by simp, ?_⟩
    refine reads_chain_cons.mpr ⟨[], _, rfl, ⟨rfl, ?_⟩, ?_⟩
    · have hedge := atWordEdge_before (isWord_of_mem_update hw) before
        (gap ++ ((target ++ gap') ++ k) ++ rest)
      rw [← List.append_assoc, hbefore] at hedge
      exact hedge
    refine reads_chain_cons.mpr ⟨w, _, rfl, hw.reads (edgeFree_word _) _ _, ?_⟩
    refine reads_chain_cons.mpr ⟨gap, _, rfl, hgap.reads (by decide) _ _, ?_⟩
    refine reads_chain_append.mpr ⟨target ++ gap', k, rfl, hv.reads (by decide) _ _, ?_⟩
    refine reads_chain_cons.mpr ⟨k, [], by simp, hk.reads (edgeFree_word _) _ _, rfl, ?_⟩
    rw [atWordEdge_behind (isWord_of_mem_set hk), hrest]
    rfl

/-! ## The stretch that is replaced -/

/-- Behind the target of the stretch: blanks, `set` on its own, and a `where` somewhere. -/
theorem reads_set_where {before u after : Text} :
    (chain [blanks1, word "set".toList, wordEdge, anything, wherePart]).Reads before u after ↔
      ∃ gap k v, u = gap ++ (k ++ v) ∧ blanks1.Spells gap ∧ (word "set".toList).Spells k ∧
        (v ++ after).head?.any isWord = false ∧
        (chain [anything, wherePart]).Reads (k.reverse ++ (gap.reverse ++ before)) v after := by
  constructor
  · intro h
    obtain ⟨gap, u, rfl, hgap, h⟩ := reads_chain_cons.mp h
    obtain ⟨k, u, rfl, hk, h⟩ := reads_chain_cons.mp h
    obtain ⟨e, v, rfl, ⟨rfl, hedge⟩, h⟩ := reads_chain_cons.mp h
    have hk := hk.spells (edgeFree_word _)
    rw [atWordEdge_behind (isWord_of_mem_set hk), Bool.not_eq_true'] at hedge
    exact ⟨gap, k, v, rfl, hgap.spells (by decide), hk, hedge, h⟩
  · rintro ⟨gap, k, v, rfl, hgap, hk, hedge, h⟩
    refine reads_chain_cons.mpr ⟨gap, k ++ v, rfl, hgap.reads (by decide) _ _, ?_⟩
    refine reads_chain_cons.mpr ⟨k, v, rfl, hk.reads (edgeFree_word _) _ _, ?_⟩
    refine reads_chain_cons.mpr ⟨[], v, rfl, ⟨rfl, ?_⟩, h⟩
    rw [atWordEdge_behind (isWord_of_mem_set hk), hedge]
    rfl

theorem target_notMem_set_where (q : Pattern) : (Part.target, q) ∉
    (chain [blanks1, word "set".toList, wordEdge, anything, wherePart]).partsIn := by
  have hparts : (chain [blanks1, word "set".toList, wordEdge, anything, wherePart]).partsIn =
      [(.whereWord, wholeWord "where".toList)] := rfl
  rw [hparts]
  simp

/-- A target can be cut before a blank only inside the blanks before its alias. -/
theorem exists_nick_of_suffix {a b : Text} (h : Grammar.updateTarget.Spells (a ++ b))
    (hb : b.head?.any isBlank = true) :
    ∃ q gap z nick, a ++ b = q ++ (gap ++ nick) ∧ qualifiedName.Spells q ∧ blanks1.Spells gap ∧
      name.Spells nick ∧ b = z ++ nick ∧ ∀ c ∈ z, isBlank c = true := by
  obtain ⟨d, b, rfl⟩ : ∃ d b', b = d :: b' := by
    cases b with
    | nil => simp at hb
    | cons d b => exact ⟨d, b, rfl⟩
  have hd : isBlank d = true := by simpa using hb
  rcases spells_updateTarget.mp h with hq | ⟨q, gap, nick, heq, hq, hgap, hnick⟩
  · rw [(blankFree_of_qualifiedName hq).2 d (by simp)] at hd
    cases hd
  · -- the cut is not in the qualified name
    obtain ⟨x, hx⟩ : ∃ x, gap ++ nick = x ++ d :: b := by
      rcases List.append_eq_append_iff.mp heq with ⟨x, hqx, hrest⟩ | ⟨x, -, hrest⟩
      · cases x with
        | nil => exact ⟨[], by simpa using hrest.symm⟩
        | cons e x =>
          rw [List.cons_append, List.cons.injEq] at hrest
          rw [(blankFree_of_qualifiedName hq).2 d (by rw [hqx, hrest.1]; simp)] at hd
          cases hd
      · exact ⟨x, hrest⟩
    -- nor in the alias
    rcases List.append_eq_append_iff.mp hx with ⟨y, -, hrest⟩ | ⟨z, hz, hrest⟩
    · have hword := isWord_of_isBlank hd
      rw [(spells_many1.mp hnick).2 d (by rw [hrest]; simp)] at hword
      cases hword
    · exact ⟨q, gap, z, nick, heq, hq, hgap, hnick, hrest, fun c hc =>
        (spells_many1.mp hgap).2 c (by rw [hz]; simp [hc])⟩

/-- Blanks and a word behind them are no other blanks and no other word. -/
theorem blanks_word_unique {z w x gap k y : Text} (hz : ∀ c ∈ z, isBlank c = true)
    (hgap : ∀ c ∈ gap, isBlank c = true) (hw : w ≠ [] ∧ ∀ c ∈ w, isWord c = true)
    (hk : k ≠ [] ∧ ∀ c ∈ k, isWord c = true) (hx : x.head?.any isWord = false)
    (hy : y.head?.any isWord = false) (h : z ++ (w ++ x) = gap ++ (k ++ y)) : w = k := by
  have hstart : ∀ {w x : Text}, (w ≠ [] ∧ ∀ c ∈ w, isWord c = true) →
      (w ++ x).head?.any isBlank = false := by
    rintro w x ⟨hne, hall⟩
    obtain ⟨c, w, rfl⟩ := List.exists_cons_of_ne_nil hne
    have hc : isBlank c = false := by
      rw [Bool.eq_false_iff]
      intro hblank
      have hword := isWord_of_isBlank hblank
      rw [hall c List.mem_cons_self] at hword
      cases hword
    simp [hc]
  obtain ⟨-, hrest⟩ := Text.run_unique hz hgap (hstart hw) (hstart hk) h
  exact (Text.run_unique hw.2 hk.2 hx hy hrest).1

theorem head?_blanks {gap : Text} (hgap : blanks1.Spells gap) (rest : Text) :
    (gap ++ rest).head?.any isBlank = true ∧ (gap ++ rest).head?.any isWord = false := by
  obtain ⟨hne, hall⟩ := spells_many1.mp hgap
  obtain ⟨c, gap, rfl⟩ := List.exists_cons_of_ne_nil hne
  have hc := hall c List.mem_cons_self
  simp [hc, isWord_of_isBlank hc]

section Span

variable {before t w gap target gap' k rest : Text}

/-- The stretch ends its target at the first `set`: at the end of a target without an alias `set`. -/
theorem exists_span_of_pieces (hbefore : before.head?.any isWord = false)
    (hw : (word "update".toList).Spells w) (hgap : blanks1.Spells gap)
    (htarget : Grammar.updateTarget.Spells target) (hgap' : blanks1.Spells gap')
    (hk : (word "set".toList).Spells k) (hrest : rest.head?.any isWord = false)
    (hwhere : ∃ v y, rest = v ++ y ∧ (chain [anything, wherePart]).Reads
      (k.reverse ++ (gap'.reverse ++ (target.reverse ++ (gap.reverse ++ (w.reverse ++ before))))) v y)
    (hnick : ∀ q g nick, target = q ++ (g ++ nick) → qualifiedName.Spells q → blanks1.Spells g →
      name.Spells nick → ¬ (word "set".toList).Spells nick) :
    ∃ m c, Grammar.updateSpan.matchAt?
        ⟨before, w ++ (gap ++ (target ++ (gap' ++ (k ++ rest))))⟩ = some m ∧
      m.part? .target = some c ∧ c.text = target := by
  have hne : target ≠ [] ∧ (target ++ (gap' ++ (k ++ rest))).head?.any isBlank = false := by
    obtain ⟨q, x, rfl, hq⟩ : ∃ q x, target = q ++ x ∧ qualifiedName.Spells q := by
      rcases spells_updateTarget.mp htarget with hq | ⟨q, g, nick, rfl, hq, -⟩
      · exact ⟨target, [], by simp, hq⟩
      · exact ⟨q, g ++ nick, rfl, hq⟩
    obtain ⟨hne, hfree⟩ := blankFree_of_qualifiedName hq
    obtain ⟨c, q, rfl⟩ := List.exists_cons_of_ne_nil hne
    simp [hfree c]
  refine matchAt?_shortest ?_ hw hgap hne.1 hne.2 target_notMem_set_where ?_ ?_
  · rw [atWordEdge_before (isWord_of_mem_update hw), hbefore]
    rfl
  · intro a b hsplit ha hb v y heq hreads
    obtain ⟨g, k', v, rfl, hg, hk', hv, -⟩ := reads_set_where.mp hreads
    have heq : b ++ (gap' ++ (k ++ rest)) = g ++ (k' ++ (v ++ y)) := by simpa using heq
    -- an earlier end would be a blank of the target with `set` behind the blanks
    have hfirst : b.head?.any isBlank = true := by
      obtain ⟨d, b, rfl⟩ := List.exists_cons_of_ne_nil hb
      have hhead := (head?_blanks hg (k' ++ (v ++ y))).1
      rw [← heq] at hhead
      exact hhead
    rw [hsplit] at htarget
    obtain ⟨q, g', z, nick, htarget, hq, hg', hname, rfl, hz⟩ := exists_nick_of_suffix htarget hfirst
    refine hnick q g' nick (hsplit.trans htarget) hq hg' hname ?_
    rw [List.append_assoc] at heq
    rw [blanks_word_unique hz (spells_many1.mp hg).2 (spells_many1.mp hname)
      (isWord_of_mem_set hk') (head?_blanks hgap' _).2 hv heq]
    exact hk'
  · obtain ⟨v, y, rfl, hwhere⟩ := hwhere
    exact ⟨gap' ++ (k ++ v), y, by simp, reads_set_where.mpr ⟨gap', k, v, rfl, hgap', hk, hrest, hwhere⟩⟩

/-- Where a list of assignments is found, `where` stands behind every front without an equals
sign. -/
theorem exists_where {front : Text} (h : Grammar.assignmentList.hasMatch (front ++ rest) = true)
    (hfront : '=' ∉ front) :
    ∃ v y, rest = v ++ y ∧ (chain [anything, wherePart]).Reads front.reverse v y := by
  obtain ⟨x, u, y, hsplit, h⟩ := hasMatch_iff.mp h
  obtain ⟨e, u, rfl, ⟨rfl, -⟩, h⟩ := reads_chain_cons.mp h
  obtain ⟨k, u, rfl, -, h⟩ := reads_chain_cons.mp h
  obtain ⟨e, u, rfl, ⟨rfl, -⟩, h⟩ := reads_chain_cons.mp h
  obtain ⟨b, u, rfl, -, h⟩ := reads_chain_cons.mp h
  obtain ⟨a, u, rfl, ha, h⟩ := reads_chain_cons.mp h
  obtain ⟨b', u, rfl, -, h⟩ := reads_chain_cons.mp h
  obtain ⟨left, a, rfl, -, ha⟩ := reads_chain_cons.mp ha
  obtain ⟨sign, right, rfl, ⟨c, hc, rfl⟩, -⟩ := reads_chain_cons.mp ha
  obtain rfl : c = '=' := by simpa using hc
  have hsplit : front ++ rest =
      (x ++ (k ++ (b ++ left))) ++ '=' :: (right ++ (b' ++ (u ++ y))) := by
    simpa using hsplit
  -- the equals sign of the list stands behind the front
  obtain ⟨z, hz, hrest⟩ : ∃ z, x ++ (k ++ (b ++ left)) = front ++ z ∧
      rest = z ++ '=' :: (right ++ (b' ++ (u ++ y))) := by
    rcases List.append_eq_append_iff.mp hsplit with ⟨z, hz, hrest⟩ | ⟨z, hz, hrest⟩
    · exact ⟨z, hz, hrest⟩
    · cases z with
      | nil => exact ⟨[], by simpa using hz.symm, by simpa using hrest.symm⟩
      | cons d z =>
        rw [List.cons_append, List.cons.injEq] at hrest
        exact absurd (by rw [hz, ← hrest.1]; simp) hfront
  refine ⟨z ++ '=' :: (right ++ b') ++ u, y, by simp [hrest], ?_⟩
  refine reads_chain_cons.mpr ⟨z ++ '=' :: (right ++ b'), u, rfl, fun _ _ => rfl, ?_⟩
  have hbehind : (z ++ '=' :: (right ++ b')).reverse ++ front.reverse =
      b'.reverse ++ (right.reverse ++ ('=' :: (x ++ (k ++ (b ++ left))).reverse)) := by
    rw [hz]
    simp
  rw [hbehind]
  have hword : (chain [wholeWord "where".toList]).Reads
      (b'.reverse ++ (right.reverse ++ '=' :: (x ++ (k ++ (b ++ left))).reverse)) u y := by
    simpa using h
  exact hword

/-- If the text starts with a target, so does the stretch that is replaced. Its target is the same,
but for an alias `set`, which it leaves out. -/
theorem exists_span (hbefore : before.head?.any isWord = false) (h : HasTarget t target)
    (hwhere : ∀ front rest, t = front ++ rest → '=' ∉ front →
      ∃ v y, rest = v ++ y ∧ (chain [anything, wherePart]).Reads (front.reverse ++ before) v y) :
    ∃ m c, Grammar.updateSpan.matchAt? ⟨before, t⟩ = some m ∧ m.part? .target = some c ∧
      Grammar.updateTarget.Spells c.text ∧
      (target = c.text ∨ ∃ gap nick, target = c.text ++ (gap ++ nick) ∧ blanks1.Spells gap ∧
        (word "set".toList).Spells nick) := by
  obtain ⟨w, gap, gap', k, rest, rfl, hw, hgap, htarget, hgap', hk, hrest⟩ := h
  have hfree : '=' ∉ w ++ (gap ++ (target ++ (gap' ++ k))) := by
    have hwords : ∀ u, (u ≠ [] ∧ ∀ c ∈ u, isWord c = true) → '=' ∉ u := fun u hu hmem =>
      absurd (hu.2 '=' hmem) (by decide)
    have hblanks : ∀ u, blanks1.Spells u → '=' ∉ u := fun u hu => hu.notMem (by decide)
    simp only [List.mem_append, not_or]
    exact ⟨hwords w (isWord_of_mem_update hw), hblanks gap hgap, htarget.notMem (by decide),
      hblanks gap' hgap', hwords k (isWord_of_mem_set hk)⟩
  by_cases hset : ∃ q g nick, target = q ++ (g ++ nick) ∧ qualifiedName.Spells q ∧
      blanks1.Spells g ∧ name.Spells nick ∧ (word "set".toList).Spells nick
  · -- the alias is taken for the `set` of the head
    obtain ⟨q, g, nick, rfl, hq, hg, -, hnick⟩ := hset
    have hfree' : '=' ∉ w ++ (gap ++ (q ++ (g ++ nick))) := by
      simp only [List.mem_append, not_or] at hfree ⊢
      exact ⟨hfree.1, hfree.2.1, hfree.2.2.1⟩
    obtain ⟨v, y, hsplit, hreads⟩ := hwhere (w ++ (gap ++ (q ++ (g ++ nick))))
      (gap' ++ (k ++ rest)) (by simp) hfree'
    have hnone : ∀ q' g' nick', q = q' ++ (g' ++ nick') → qualifiedName.Spells q' →
        blanks1.Spells g' → name.Spells nick' → ¬ (word "set".toList).Spells nick' := by
      rintro q' g' nick' rfl - hg' -
      obtain ⟨hne, hall⟩ := spells_many1.mp hg'
      obtain ⟨d, g', rfl⟩ := List.exists_cons_of_ne_nil hne
      have hd := (blankFree_of_qualifiedName hq).2 d (by simp)
      rw [hall d List.mem_cons_self] at hd
      cases hd
    obtain ⟨m, c, hm, hc, htext⟩ := exists_span_of_pieces hbefore hw hgap
      (spells_updateTarget.mpr (Or.inl hq)) hg hnick (head?_blanks hgap' (k ++ rest)).2
      ⟨v, y, hsplit, by simpa using hreads⟩ hnone
    refine ⟨m, c, by simpa using hm, hc, by rw [htext]; exact spells_updateTarget.mpr (Or.inl hq), ?_⟩
    exact Or.inr ⟨g, nick, by rw [htext], hg, hnick⟩
  · obtain ⟨v, y, hsplit, hreads⟩ := hwhere (w ++ (gap ++ (target ++ (gap' ++ k)))) rest (by simp)
      hfree
    obtain ⟨m, c, hm, hc, htext⟩ := exists_span_of_pieces hbefore hw hgap htarget hgap' hk hrest
      ⟨v, y, hsplit, by simpa using hreads⟩
      (fun q g nick htarget hq hg hname hnick => hset ⟨q, g, nick, htarget, hq, hg, hname, hnick⟩)
    exact ⟨m, c, hm, hc, by rw [htext]; exact htarget, Or.inl htext.symm⟩

/-- If the stretch that is replaced has a target, the text starts with it. -/
theorem hasTarget_of_span {m : Match} {c : Capture}
    (hm : Grammar.updateSpan.matchAt? ⟨before, t⟩ = some m) (hc : m.part? .target = some c)
    (htarget : Grammar.updateTarget.Spells c.text) : HasTarget t c.text := by
  obtain ⟨w, gap, u, v, y, c', rfl, hw, hgap, -, hreads, hc', rfl⟩ :=
    exists_of_matchAt?_shortest target_notMem_set_where hm
  obtain rfl : c = c' := Option.some.inj (hc.symm.trans hc')
  obtain ⟨gap', k, v, rfl, hgap', hk, hrest, -⟩ := reads_set_where.mp hreads
  exact ⟨w, gap, gap', k, v ++ y, by simp, hw, hgap, htarget, hgap', hk, hrest⟩

end Span

/-! ## Converted statements -/

namespace Job

variable {batch identifier : Text} {s : Statement}

/-- An update whose head passes its checks has a list of assignments. -/
theorem assignmentList_of_updateHead {held : Held}
    (h : (Mutation.updateHead held).failure? = none) :
    Grammar.assignmentList.hasMatch held.text = true := by
  rw [HeadReport.failure?, Option.map_eq_none_iff, List.find?_eq_none] at h
  have hcheck := h ⟨Grammar.assignmentList.hasMatch held.text, .setInvalid⟩
    (by simp [Mutation.updateHead])
  simpa using hcheck

/-- Whether a pattern matches the held text of a statement at its very start. -/
def heldStartsWith (s : Statement) (p : Pattern) : Bool :=
  (p.matchAt? ⟨[], (Held.standard s.sql).text⟩).isSome

/-- The head of a converted delete stands behind the blanks that the statement starts with. -/
theorem deleteHeader_at_start_iff (hs : s ∈ (Job.standard batch identifier).statements)
    (hrecord : ((Job.standard batch identifier).record s).isError = false)
    (hkind : s.kind = .delete) :
    heldStartsWith s Grammar.deleteHeader = true ↔ s.sql.head?.any isBlank = false := by
  obtain ⟨mutation, report, query, m, heading, hconverts, hm, hpassed, -⟩ :=
    exists_replaced hs (Or.inl hkind) hrecord
  obtain ⟨w, rest, -, -, hblanks⟩ := exists_leading hs (by simp [hkind])
  obtain rfl : mutation = .delete := hconverts.mutation_eq hkind
  have hm : Grammar.deleteHeader.find? (Held.standard s.sql).text = some m := hm
  rw [heldStartsWith, matchAt?_start_iff hm, hpassed, hblanks]

/-- The checked head of a converted update stands at the start exactly when the statement does not
start with a blank and the target that is selected from has the checked form. -/
theorem updateHeader_at_start (hs : s ∈ (Job.standard batch identifier).statements)
    (hrecord : ((Job.standard batch identifier).record s).isError = false)
    (hkind : s.kind = .update) :
    ∃ report query span target,
      (Job.standard batch identifier).Converts s (Held.standard s.sql) .update report query ∧
      Grammar.updateSpan.find? (Held.standard s.sql).text = some span ∧
      span.part? .target = some target ∧
      query.text = (Held.standard s.sql).text.takeWhile isBlank ++ ("select ".toList ++
        List.intercalate ", ".toList (assignedFields (Held.standard s.sql).text) ++
        "\nfrom ".toList ++
        Text.trimBlank (Profile.standard.stagingMark.replaceAll (fun _ => []) target.text) ++
        "\n".toList) ++ report.parameters ∧
      (heldStartsWith s Grammar.updateHeader = true ↔
        s.sql.head?.any isBlank = false ∧ Grammar.updateTarget.Spells target.text) ∧
      ∀ checked, HasTarget (Held.standard s.sql).text checked →
        checked = target.text ∨ ∃ gap nick, checked = target.text ++ (gap ++ nick) ∧
          blanks1.Spells gap ∧ (word "set".toList).Spells nick := by
  obtain ⟨mutation, report, query, m, heading, hconverts, hm, hpassed, hheading, htext⟩ :=
    exists_replaced hs (Or.inr hkind) hrecord
  obtain ⟨w, rest, -, -, hblanks⟩ := exists_leading hs (by simp [hkind])
  obtain rfl : mutation = .update := hconverts.mutation_eq hkind
  have hm : Grammar.updateSpan.find? (Held.standard s.sql).text = some m := hm
  obtain ⟨m', hm', hheading⟩ := Option.bind_eq_some_iff.mp hheading
  obtain rfl := Option.some.inj (hm.symm.trans hm')
  obtain ⟨c, hc, hheading⟩ := Option.bind_eq_some_iff.mp hheading
  obtain rfl : _ = heading := Option.some.inj hheading
  have hreport : Mutation.updateHead (Held.standard s.sql) = report := Except.ok.inj hconverts.head
  have hlist := assignmentList_of_updateHead (hreport ▸ hconverts.passed)
  -- a head at the start makes the stretch start there, with the target of the head
  have hspan : ∀ checked, HasTarget (Held.standard s.sql).text checked →
      m.start.passed = [] ∧ Grammar.updateTarget.Spells c.text ∧
      (checked = c.text ∨ ∃ gap nick, checked = c.text ++ (gap ++ nick) ∧
        blanks1.Spells gap ∧ (word "set".toList).Spells nick) := by
    intro checked hchecked
    have hwhere : ∀ front rest, (Held.standard s.sql).text = front ++ rest → '=' ∉ front →
        ∃ v y, rest = v ++ y ∧ (chain [anything, wherePart]).Reads (front.reverse ++ []) v y := by
      intro front rest ht hfree
      rw [List.append_nil]
      exact exists_where (ht ▸ hlist) hfree
    obtain ⟨m', c', hm', hc', htarget, hsame⟩ := exists_span rfl hchecked hwhere
    obtain rfl := Option.some.inj (hm.symm.trans (find?_of_matchAt? hm'))
    obtain rfl := Option.some.inj (hc.symm.trans hc')
    exact ⟨(matchAt?_start_iff hm).mp (by rw [hm']; rfl), htarget, hsame⟩
  refine ⟨report, query, m, c, hconverts, hm, hc, by rw [htext, hpassed], ?_,
    fun checked hchecked => (hspan checked hchecked).2.2⟩
  rw [heldStartsWith, matchAt?_updateHeader_iff rfl, ← hblanks, ← hpassed]
  constructor
  · rintro ⟨checked, hchecked⟩
    exact ⟨(hspan checked hchecked).1, (hspan checked hchecked).2.1⟩
  · rintro ⟨hstart, htarget⟩
    obtain ⟨m', hm'⟩ := Option.isSome_iff_exists.mp ((matchAt?_start_iff hm).mpr hstart)
    obtain rfl := Option.some.inj (hm.symm.trans (find?_of_matchAt? hm'))
    exact ⟨c.text, hasTarget_of_span hm' hc htarget⟩

/-- A header of a merge starts with the word `merge` on its own. -/
theorem exists_merge_of_find? {t : Text} {m : Match} (h : Grammar.mergeHeader.find? t = some m) :
    ∃ u y, t = m.start.passed ++ (u ++ y) ∧
      (wholeWord "merge".toList).Reads m.start.passed.reverse u y := by
  obtain ⟨x, after, rfl, hmatch, -⟩ := findFrom?_some h
  obtain ⟨y, hsplit, hstart, -, hreads⟩ := matchAt?_some hmatch
  obtain ⟨e, v, hv, ⟨rfl, hedge⟩, hreads⟩ := reads_chain_cons.mp hreads
  obtain ⟨u, v, rfl, hu, hreads⟩ := reads_chain_cons.mp hreads
  obtain ⟨gap, v, rfl, hgap, -⟩ := reads_chain_cons.mp hreads
  have hu := hu.spells (edgeFree_word _)
  have hpassed : m.start.passed = x := by
    rw [hstart]
    simp [Cursor.passed]
  rw [hpassed]
  refine ⟨u, gap ++ v ++ y, by rw [hsplit, hv]; simp, ?_⟩
  refine reads_chain_cons.mpr ⟨[], u, rfl, ⟨rfl, by simpa using hedge⟩, ?_⟩
  refine reads_chain_cons.mpr ⟨u, [], by simp, hu.reads (edgeFree_word _) _ _, rfl, ?_⟩
  rw [atWordEdge_behind (isWord_of_spells (by decide) hu), List.append_assoc,
    (head?_blanks (hgap.spells (by decide)) (v ++ y)).2]
  rfl

/-- The head of a converted merge is found at its first word or at a later `merge`. -/
theorem mergeHeader_at_start (hs : s ∈ (Job.standard batch identifier).statements)
    (hrecord : ((Job.standard batch identifier).record s).isError = false)
    (hkind : s.kind = .merge) :
    ∃ report query m,
      (Job.standard batch identifier).Converts s (Held.standard s.sql) .merge report query ∧
      mergeSource? (Held.standard s.sql) = some query.text ∧
      Grammar.mergeHeader.find? (Held.standard s.sql).text = some m ∧
      (heldStartsWith s Grammar.mergeHeader = true ↔
        s.sql.head?.any isBlank = false ∧
          m.start.passed = (Held.standard s.sql).text.takeWhile isBlank) ∧
      ((∀ x u y, (Held.standard s.sql).text = x ++ (u ++ y) →
          (wholeWord "merge".toList).Reads x.reverse u y → ∀ c ∈ x, isBlank c = true) →
        m.start.passed = (Held.standard s.sql).text.takeWhile isBlank) := by
  obtain ⟨mutation, report, query, hconverts, -⟩ :=
    exists_converts_standard (preview_of_record hrecord)
  obtain rfl : mutation = .merge := hconverts.mutation_eq hkind
  have hsource := mergeSource_of_select hconverts.select_eq.1
  obtain ⟨m, hm, -⟩ := Option.bind_eq_some_iff.mp hsource
  obtain ⟨w, rest, hwrites, hfront, hblanks⟩ := exists_leading hs (by simp [hkind])
  have hword : ∀ c ∈ w, isWord c = true := fun c hc =>
    (isKeywordChar_iff.mp (hwrites.isKeywordChar_of_mem hc)).1
  have hplace := find?_front (Mutation.startsWord_stretch .merge) hfront hword hm
  refine ⟨report, query, m, hconverts, hsource, hm, ?_, fun honce => ?_⟩
  · rw [heldStartsWith, matchAt?_start_iff hm, ← hblanks]
    constructor
    · intro hstart
      rcases hplace with hpassed | ⟨z, hpassed⟩
      · exact ⟨hpassed ▸ hstart, hpassed⟩
      · simp [hpassed, hwrites.ne_nil] at hstart
    · rintro ⟨hnone, hpassed⟩
      rw [hpassed, hnone]
  · rcases hplace with hpassed | ⟨z, hpassed⟩
    · exact hpassed
    · -- the header starts with the word, so that there are only blanks before it
      obtain ⟨u, y, hsplit, hreads⟩ := exists_merge_of_find? hm
      obtain ⟨c, w, rfl⟩ := List.exists_cons_of_ne_nil hwrites.ne_nil
      have hblank := honce _ u y hsplit hreads c (by rw [hpassed]; simp)
      rw [(isKeywordChar_iff.mp (hwrites.isKeywordChar_of_mem List.mem_cons_self)).2.1] at hblank
      cases hblank

/-- When the checked head of a converted statement stands at the very start of its held text. For a
delete this is up to the blanks that the statement starts with. For an update the target that is
selected from, less the mark of staging tables, must have the checked form, and then it is the
checked target but for an alias `set`. For a merge no later `merge` may be taken for the head. -/
theorem header_at_start (hs : s ∈ (Job.standard batch identifier).statements)
    (hrecord : ((Job.standard batch identifier).record s).isError = false) :
    let t := (Held.standard s.sql).text
    (s.kind = .delete →
      (heldStartsWith s Grammar.deleteHeader = true ↔ s.sql.head?.any isBlank = false)) ∧
    (s.kind = .update → ∃ report query span target,
      (Job.standard batch identifier).Converts s (Held.standard s.sql) .update report query ∧
      Grammar.updateSpan.find? t = some span ∧ span.part? .target = some target ∧
      query.text = t.takeWhile isBlank ++ ("select ".toList ++
        List.intercalate ", ".toList (assignedFields t) ++ "\nfrom ".toList ++
        Text.trimBlank (Profile.standard.stagingMark.replaceAll (fun _ => []) target.text) ++
        "\n".toList) ++ report.parameters ∧
      (heldStartsWith s Grammar.updateHeader = true ↔
        s.sql.head?.any isBlank = false ∧ Grammar.updateTarget.Spells target.text) ∧
      ∀ checked, HasTarget t checked →
        checked = target.text ∨ ∃ gap nick, checked = target.text ++ (gap ++ nick) ∧
          blanks1.Spells gap ∧ (word "set".toList).Spells nick) ∧
    (s.kind = .merge → ∃ report query m,
      (Job.standard batch identifier).Converts s (Held.standard s.sql) .merge report query ∧
      mergeSource? (Held.standard s.sql) = some query.text ∧
      Grammar.mergeHeader.find? t = some m ∧
      (heldStartsWith s Grammar.mergeHeader = true ↔
        s.sql.head?.any isBlank = false ∧ m.start.passed = t.takeWhile isBlank) ∧
      ((∀ x u y, t = x ++ (u ++ y) → (wholeWord "merge".toList).Reads x.reverse u y →
          ∀ c ∈ x, isBlank c = true) →
        m.start.passed = t.takeWhile isBlank)) :=
  ⟨deleteHeader_at_start_iff hs hrecord, updateHeader_at_start hs hrecord,
    mergeHeader_at_start hs hrecord⟩

/-- An update of a staging table with an alias. -/
theorem header_at_start_staging :
    let s := Statement.ofText "update s.tmp_t x set x.a = 1 where b = 2;".toList
    (Job.standard s.sql "abc".toList).statements = [s] ∧
      ((Job.standard s.sql "abc".toList).record s).isError = false ∧
      ∃ target, Grammar.updateTarget.Spells target ∧
        ∀ checked, HasTarget (Held.standard s.sql).text checked →
          checked = target ∨ ∃ gap nick, checked = target ++ (gap ++ nick) ∧
            blanks1.Spells gap ∧ (word "set".toList).Spells nick := by
  have hrecord : ((Job.standard "update s.tmp_t x set x.a = 1 where b = 2;".toList
      "abc".toList).record
        (Statement.ofText "update s.tmp_t x set x.a = 1 where b = 2;".toList)).isError =
      false := by
    rw [String.toList_ofList]
    decide +kernel
  refine ⟨by decide, hrecord, ?_⟩
  obtain ⟨-, hupdate, -⟩ := header_at_start (by decide) hrecord
  obtain ⟨report, query, span, target, -, -, -, -, hiff, hchecked⟩ := hupdate (by decide)
  exact ⟨target.text, (hiff.mp (by decide)).2, hchecked⟩

/-- A head in a later bracket is checked while another one is replaced; a later `merge` is taken for
the head; and an alias `set` is lost. -/
theorem header_not_at_start :
    (let s := Statement.ofText
       "update foo bar baz set a = 1, b = (update s.t set c) where d = 1;".toList
     (Job.standard s.sql "abc".toList).statements = [s] ∧ s.kind = .update ∧
      (Job.standard s.sql "abc".toList).record s =
        ⟨"select a, b\nfrom foo bar baz\nwhere d = 1;".toList, false,
          "Update statement converted successfully.".toList⟩ ∧
      heldStartsWith s Grammar.updateHeader = false) ∧
    (let s := Statement.ofText ("merge rubbish merge into s.t using (select a from s.u where b = 1) x "
       ++ "on (1=1) when matched then delete;").toList
     (Job.standard s.sql "abc".toList).statements = [s] ∧ s.kind = .merge ∧
      ((Job.standard s.sql "abc".toList).record s).isError = false ∧
      heldStartsWith s Grammar.mergeHeader = false) ∧
    (let s := Statement.ofText "update s.t set set = 1 where a = 2;".toList
     (Job.standard s.sql "abc".toList).statements = [s] ∧ s.kind = .update ∧
      (Job.standard s.sql "abc".toList).record s =
        ⟨"select set\nfrom s.t\nwhere a = 2;".toList, false,
          "Update statement converted successfully.".toList⟩ ∧
      (Grammar.updateHeader.find? (Held.standard s.sql).text).map Match.text =
        some "update s.t set set".toList) := by
  -- the kernel decodes a string slowly
  simp only [String.toList_append]
  repeat rw [String.toList_ofList]
  decide +kernel

end Job

end MutationPreview
