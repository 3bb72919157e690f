import MutationPreview.Proofs.Mutation.Terminated
import MutationPreview.Proofs.Pattern.Replace

/-!
# The steps of tidying

Tidying drops words and marks (`dropWords`), injects the identifier, and sets the text in lines
(`layOut`). What the patterns of these steps read is said here once: words on their own, words that
start with the staging mark, words that start a line with the gaps around them, and runs of spaces.
-/

namespace MutationPreview

open Pattern

/-- The text without stray words `using` and without the marks of staging tables. -/
def dropWords (t : Text) : Text :=
  Profile.standard.stagingMark.replaceAll (fun _ => [])
    (Grammar.usingKeyword.replaceAll (fun _ => []) t)

/-- The text in lines, with single spaces. -/
def layOut (t : Text) : Text := collapseSpaces (breakLines t)

/-- A tidied query has another text, and a ledger that holds the identifier too. -/
theorem tidy_eq (identifier : Text) (query : Held) :
    tidy Profile.standard identifier query =
      { query with
        text := layOut (injectIdentifier Profile.standard
          (query.literals.hold (quoteLiteral identifier)).1
          (query.literals.hold (quoteLiteral identifier)).2 (dropWords query.text))
        literals := (query.literals.hold (quoteLiteral identifier)).1 } := rfl

/-- A tidied query is reverted by a ledger that holds the identifier too. -/
theorem revert_tidy_eq (identifier : Text) (query : Held) :
    (tidy Profile.standard identifier query).revert =
      (query.literals.hold (quoteLiteral identifier)).1.revert
        (query.subqueries.revert (layOut (injectIdentifier Profile.standard
          (query.literals.hold (quoteLiteral identifier)).1
          (query.literals.hold (quoteLiteral identifier)).2 (dropWords query.text)))) := rfl

/-! ## Words -/

/-- A letter all of whose cases are parts of words. -/
def isWordLetter (x : Char) : Bool :=
  x == 's' || isPlainLetter x &&
    (List.range 128).all fun n =>
      (Char.ofNat n).toUpper != x.toUpper || isWord (Char.ofNat n)

theorem isWord_of_sameLetter {x c : Char} (hx : isWordLetter x = true)
    (h : sameLetter x c = true) : isWord c = true := by
  rw [isWordLetter, Bool.or_eq_true, beq_iff_eq, Bool.and_eq_true, List.all_eq_true] at hx
  rcases hx with rfl | ⟨hplain, hall⟩
  · have hcases : ∀ c ∈ ['s', 'S', 'ſ'], isWord c = true := by decide
    exact hcases c (mem_of_sameLetter_s h)
  · refine forall_of_sameLetter hplain ?_ h
    intro n hn hupper
    simpa [hupper] using hall n (List.mem_range.mpr hn)

/-- A word of such letters is made of word characters. -/
theorem isWord_of_spells_word {t u : Text} (ht : t ≠ [] ∧ ∀ x ∈ t, isWordLetter x = true)
    (h : (word t).Spells u) : u ≠ [] ∧ ∀ c ∈ u, isWord c = true := by
  have hletters := reads_word_iff.mp h
  constructor
  · rintro rfl
    cases hletters
    exact ht.1 rfl
  · intro c hc
    obtain ⟨x, hx, hxc⟩ := exists_letter hletters hc
    exact isWord_of_sameLetter (ht.2 x hx) hxc

theorem head?_behind_word {u before : Text} (hu : u ≠ [] ∧ ∀ c ∈ u, isWord c = true) :
    (u.reverse ++ before).head?.any isWord = true := by
  rcases List.eq_nil_or_concat u with rfl | ⟨v, c, rfl⟩
  · exact absurd rfl hu.1
  · simpa using hu.2 c (by simp)

/-- A word on its own has no word character beside it. -/
theorem reads_wholeWord_iff {t before u after : Text}
    (ht : t ≠ [] ∧ ∀ x ∈ t, isWordLetter x = true) :
    (wholeWord t).Reads before u after ↔
      (word t).Spells u ∧ before.head?.any isWord = false ∧ after.head?.any isWord = false := by
  rw [wholeWord, reads_chain_cons]
  constructor
  · rintro ⟨v, w, rfl, ⟨rfl, hfirst⟩, h⟩
    obtain ⟨v, w, rfl, hword, h⟩ := reads_chain_cons.mp h
    obtain ⟨rfl, hlast⟩ := (show w = [] ∧ _ from h)
    have hspells := hword.spells (edgeFree_word t)
    have hchars := isWord_of_spells_word ht hspells
    rw [List.append_nil, atWordEdge_before hchars] at hfirst
    rw [List.reverse_nil, List.nil_append, atWordEdge_behind hchars] at hlast
    exact ⟨by simpa using hspells, by simpa using hfirst, by simpa using hlast⟩
  · rintro ⟨hspells, hbefore, hafter⟩
    have hchars := isWord_of_spells_word ht hspells
    refine ⟨[], u, rfl, ⟨rfl, ?_⟩, ?_⟩
    · rw [atWordEdge_before hchars, hbefore]
      rfl
    · refine reads_chain_cons.mpr ⟨u, [], by simp, hspells.reads (edgeFree_word t) _ _, rfl, ?_⟩
      rw [List.reverse_nil, List.nil_append, atWordEdge_behind hchars, hafter]
      rfl

/-- A mark starts a word if no word character stands before it. -/
theorem reads_stagingMark_iff {t before u after : Text}
    (ht : t ≠ [] ∧ ∀ x ∈ t, isWordLetter x = true) :
    (Grammar.stagingMark t).Reads before u after ↔
      (word t).Spells u ∧ before.head?.any isWord = false := by
  rw [Grammar.stagingMark, reads_chain_cons]
  constructor
  · rintro ⟨v, w, rfl, ⟨rfl, hfirst⟩, h⟩
    have hspells : (word t).Spells w := Reads.spells (edgeFree_word t) h
    rw [atWordEdge_before (isWord_of_spells_word ht hspells)] at hfirst
    exact ⟨by simpa using hspells, by simpa using hfirst⟩
  · rintro ⟨hspells, hbefore⟩
    refine ⟨[], u, rfl, ⟨rfl, ?_⟩, hspells.reads (edgeFree_word t) _ _⟩
    rw [atWordEdge_before (isWord_of_spells_word ht hspells), hbefore]
    rfl

theorem using_letters : "using".toList ≠ [] ∧ ∀ x ∈ "using".toList, isWordLetter x = true := by
  decide

theorem mark_letters : "tmp_".toList ≠ [] ∧ ∀ x ∈ "tmp_".toList, isWordLetter x = true := by
  decide

theorem where_letters : "where".toList ≠ [] ∧ ∀ x ∈ "where".toList, isWordLetter x = true := by
  decide

theorem reads_using_iff {before u after : Text} :
    Grammar.usingKeyword.Reads before u after ↔ (word "using".toList).Spells u ∧
      before.head?.any isWord = false ∧ after.head?.any isWord = false :=
  reads_wholeWord_iff using_letters

theorem reads_mark_iff {before u after : Text} :
    Profile.standard.stagingMark.Reads before u after ↔
      (word "tmp_".toList).Spells u ∧ before.head?.any isWord = false :=
  reads_stagingMark_iff mark_letters

/-! ## Dropping -/

theorem startsWord_using : Grammar.usingKeyword.StartsWord := startsWord_of_edge_word (by decide)

theorem startsWord_mark : Profile.standard.stagingMark.StartsWord :=
  show (chain (wordEdge :: word ('t' :: "mp_".toList) :: [])).StartsWord from
    startsWord_of_edge_word (by decide)

namespace Pattern

variable {p : Pattern} {before after : Text} {segs : List (Segment Match)}

/-- From a list of segments on, the text is segmented by them. -/
theorem Segmented.exists_behind {A B : List (Segment Match)}
    (h : Segmented p before after (A ++ B)) :
    ∃ rest, after = Segment.join Match.text A ++ rest ∧
      Segmented p ((Segment.join Match.text A).reverse ++ before) rest B := by
  induction A generalizing before after with
  | nil => exact ⟨after, rfl, h⟩
  | cons s A ih =>
    cases h with
    | @plain _ rest c _ _ hrest =>
      obtain ⟨v, rfl, hB⟩ := ih hrest
      exact ⟨v, rfl, by simpa using hB⟩
    | @span _ rest m _ _ _ hrest =>
      obtain ⟨v, rfl, hB⟩ := ih hrest
      exact ⟨v, by simp, by simpa using hB⟩

/-- Where no word starts, the text goes on as it does when words are dropped. -/
theorem Segmented.head?_dropped (hp : p.StartsWord) (h : Segmented p before after segs)
    (hafter : after.head?.any isWord = false) :
    (Segment.join (fun _ => []) segs : Text).head?.any isWord = false := by
  cases h with
  | done => rfl
  | plain => simpa using hafter
  | span hsome _ _ =>
    obtain ⟨rest', -, -, -, hreads⟩ := matchAt?_some hsome
    obtain ⟨⟨c, v, htext, hc⟩, -⟩ := hp _ _ _ hreads
    simp [htext, hc] at hafter

/-- Behind a word character nothing is dropped up to the end of the word, nor right behind it. -/
theorem Segmented.prefix_iff (hp : p.StartsWord) (h : Segmented p before after segs)
    (hbefore : before.head?.any isWord = true) {w : Text} (hw : ∀ c ∈ w.dropLast, isWord c = true) :
    w <+: Segment.join (fun _ => []) segs ↔ w <+: after := by
  induction h generalizing w with
  | done => rfl
  | @plain before rest c segs _ _ ih =>
    rw [Segment.join_plain]
    rcases w with _ | ⟨d, _ | ⟨e, w⟩⟩
    · simp
    · simp [List.cons_prefix_cons]
    · rw [List.dropLast_cons_cons, List.forall_mem_cons] at hw
      rw [List.cons_prefix_cons, List.cons_prefix_cons]
      refine and_congr_right ?_
      rintro rfl
      exact ih (by simpa using hw.1) hw.2
  | @span before rest m _ hsome _ _ _ =>
    obtain ⟨rest', -, -, -, hreads⟩ := matchAt?_some hsome
    obtain ⟨⟨c, v, htext, hc⟩, hedge⟩ := hp _ _ _ hreads
    rw [not_atWordEdge hbefore (by simp [htext, hc])] at hedge
    cases hedge

end Pattern

/-! ## Lines and spaces -/

/-- The words that start a line. -/
def lineWord : Pattern := firstOf [word "from".toList, word "join".toList, word "and".toList,
  word "where".toList, word "or".toList]

/-- A run of spaces and line feeds. -/
def IsGapRun (g : Text) : Prop := g ≠ [] ∧ ∀ c ∈ g, Grammar.isGap c = true

theorem reads_lineStart_iff {before u after : Text} :
    Grammar.lineStart.Reads before u after ↔
      ∃ g k g', u = g ++ (k ++ g') ∧ IsGapRun g ∧ lineWord.Spells k ∧ IsGapRun g' := by
  rw [Grammar.lineStart, reads_chain_cons]
  constructor
  · rintro ⟨g, w, rfl, hg, h⟩
    obtain ⟨k, g', rfl, hk, hg'⟩ := reads_chain_cons.mp h
    exact ⟨g, k, g', rfl, spells_many1.mp (hg.spells (by decide)),
      Reads.spells (p := lineWord) (by decide) hk, spells_many1.mp (Reads.spells (by decide) hg')⟩
  · rintro ⟨g, k, g', rfl, hg, hk, hg'⟩
    refine ⟨g, k ++ g', rfl, (spells_many1.mpr hg).reads (by decide) _ _, ?_⟩
    exact reads_chain_cons.mpr ⟨k, g', rfl, hk.reads (p := lineWord) (by decide) _ _,
      (spells_many1.mpr hg').reads (by decide) _ _⟩

/-- What is written for a match of a word that starts a line. -/
def lineOf (m : Match) : Text :=
  match m.part? .connective with
  | some connective => '\n' :: connective.text ++ [' ']
  | none => m.text

theorem breakLines_eq (t : Text) : breakLines t = Grammar.lineStart.replaceAll lineOf t := rfl

/-- The word stays, one line feed and one space stand for the gaps around it. -/
theorem exists_of_lineStart {before after : Text} {m : Match}
    (h : Grammar.lineStart.matchAt? ⟨before, after⟩ = some m) :
    ∃ g k g', m.text = g ++ (k ++ g') ∧ IsGapRun g ∧ lineWord.Spells k ∧ IsGapRun g' ∧
      lineOf m = '\n' :: (k ++ [' ']) := by
  have hchain : (chain ([many1 Grammar.isGap] ++
      part .connective lineWord :: [many1 Grammar.isGap])).matchAt? ⟨before, after⟩ = some m := h
  obtain ⟨g, k, g', rest, -, htext, hg, hk, hg', c, hc, hck⟩ :=
    exists_part_of_matchAt? hchain (by simp [chain, partsIn, many1])
  refine ⟨g, k, g', htext, spells_many1.mp (hg.spells (by decide)),
    hk.spells (by decide), spells_many1.mp (hg'.spells (by decide)), ?_⟩
  simp [lineOf, hc, hck]

theorem reads_spaceRun_iff {before u after : Text} :
    Grammar.spaceRun.Reads before u after ↔ ∃ v, u = ' ' :: ' ' :: v ∧ ∀ c ∈ v, c = ' ' := by
  rw [Grammar.spaceRun, reads_chain_cons]
  constructor
  · rintro ⟨a, w, rfl, ⟨c, hc, rfl⟩, h⟩
    obtain ⟨b, v, rfl, ⟨d, hd, rfl⟩, hv⟩ := reads_chain_cons.mp h
    obtain rfl : c = ' ' := by simpa using hc
    obtain rfl : d = ' ' := by simpa using hd
    exact ⟨v, rfl, fun e he => by simpa using hv e he⟩
  · rintro ⟨v, rfl, hv⟩
    refine ⟨[' '], ' ' :: v, rfl, ⟨' ', rfl, rfl⟩, ?_⟩
    exact reads_chain_cons.mpr ⟨[' '], v, rfl, ⟨' ', rfl, rfl⟩, fun e he => by simp [hv e he]⟩

end MutationPreview
