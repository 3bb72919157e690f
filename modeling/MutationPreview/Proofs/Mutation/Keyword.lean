import Mathlib.Data.List.Forall2
import MutationPreview.Proofs.Held.Literals
import MutationPreview.Proofs.Text.Letter

/-!
# The word that a statement starts with

The kind of a statement is that of its first word, which stands at the start of the statement or
behind blanks that are no noise. Holding literals and subqueries does not touch it, so the held
text starts with the same word (`Statement.exists_front`). A header that is found in the held text
starts at that word or somewhere behind it (`Pattern.find?_front`).
-/

namespace MutationPreview

/-! ## Letters of keywords -/

/-- The keyword of a kind of statement. -/
def StatementKind.keyword : StatementKind → Text
  | update => "update".toList
  | delete => "delete".toList
  | merge => "merge".toList
  | unknown => []

/-- A property of characters that is checked on ASCII holds of a character with a given lower-case
form. -/
theorem forall_of_toLower {letters : Text} {p : Char → Bool}
    (hletters : ∀ l ∈ letters, l.toNat < 128)
    (h : ∀ n < 128, (Char.ofNat n).toLower ∈ letters → p (Char.ofNat n) = true) {c : Char}
    (hc : c.toLower ∈ letters) : p c = true := by
  by_cases hascii : c.toNat < 128
  · have hp := h c.toNat hascii
    rw [Char.ofNat_toNat] at hp
    exact hp hc
  · -- beyond ASCII a character is its own lower-case form
    have hself : c.toLower = c := by
      refine dif_neg ?_
      rintro ⟨-, hle⟩
      have hle : c.toNat ≤ 90 := hle
      omega
    rw [hself] at hc
    exact absurd (hletters c hc) hascii

/-- A character of a keyword is part of a word, and none of the characters that start a literal, a
subquery or a token. -/
def isKeywordChar (c : Char) : Bool :=
  isWord c && !isBlank c && !"'(S \r\n".toList.contains c

theorem isKeywordChar_iff {c : Char} : isKeywordChar c = true ↔
    isWord c = true ∧ isBlank c = false ∧ c ∉ "'(S \r\n".toList := by
  simp [isKeywordChar, and_assoc]

/-- A word in the letters of a keyword. -/
structure StatementKind.Writes (kind : StatementKind) (w : Text) : Prop where
  known : kind ≠ .unknown
  same : Text.sameAscii w kind.keyword = true

namespace StatementKind.Writes

variable {kind : StatementKind} {w : Text}

theorem map_toLower (h : kind.Writes w) : w.map Char.toLower = kind.keyword := by
  have hsame := h.same
  rw [Text.sameAscii, beq_iff_eq] at hsame
  rw [hsame]
  cases kind <;> decide

theorem isKeywordChar_of_mem (h : kind.Writes w) {c : Char} (hc : c ∈ w) :
    isKeywordChar c = true := by
  have hletters : ∀ kind : StatementKind, ∀ l ∈ kind.keyword, l ∈ "updatelmrg".toList := by
    intro kind
    cases kind <;> decide
  have hmem : c.toLower ∈ kind.keyword := by
    rw [← h.map_toLower]
    exact List.mem_map_of_mem hc
  exact forall_of_toLower (by decide) (by decide) (hletters kind _ hmem)

/-- The first two letters. -/
theorem exists_cons (h : kind.Writes w) : ∃ c d rest, w = c :: d :: rest ∧
    c.toLower ∈ "udm".toList ∧ d.toLower ∈ "pe".toList := by
  have hlower := h.map_toLower
  have hknown := h.known
  have hlength : ∀ kind : StatementKind, kind ≠ .unknown → 2 ≤ kind.keyword.length := by
    intro kind
    cases kind <;> decide
  have hlong := hlength kind hknown
  rw [← hlower, List.length_map] at hlong
  obtain ⟨c, d, rest, rfl⟩ : ∃ c d rest, w = c :: d :: rest := by
    match w, hlong with
    | c :: d :: rest, _ => exact ⟨c, d, rest, rfl⟩
  refine ⟨c, d, rest, rfl, ?_⟩
  cases kind <;> simp [keyword] at hlower hknown <;> simp [hlower]

theorem ne_nil (h : kind.Writes w) : w ≠ [] := by
  obtain ⟨c, d, rest, rfl, -⟩ := h.exists_cons
  simp

end StatementKind.Writes

/-! ## The first word of a statement -/

/-- A text that is made of blanks, a word and the rest. -/
structure LeadsWith (w t blanks rest : Text) : Prop where
  eq : t = blanks ++ (w ++ rest)
  blank : ∀ c ∈ blanks, isBlank c = true

theorem exists_leadingWord (sql : Text) :
    ∃ blanks rest, LeadsWith (leadingWord sql) sql blanks rest := by
  rw [leadingWord]
  split
  · refine ⟨sql.takeWhile isBlank,
      (sql.dropWhile isBlank).dropWhile fun c => !isBlank c, ⟨?_, ?_⟩⟩
    · rw [Text.firstWord, List.takeWhile_append_dropWhile, List.takeWhile_append_dropWhile]
    · intro c hc
      exact List.mem_takeWhile_imp hc
  · refine ⟨[], sql.dropWhile fun c => isAlphanumeric c || c == '_', ⟨?_, by simp⟩⟩
    rw [List.nil_append, List.takeWhile_append_dropWhile]

theorem StatementKind.writes_of_ofKeyword {kind : StatementKind} {w : Text}
    (h : StatementKind.ofKeyword w = kind) (hknown : kind ≠ .unknown) : kind.Writes w := by
  refine ⟨hknown, ?_⟩
  rw [StatementKind.ofKeyword] at h
  split at h
  · subst h
    assumption
  · split at h
    · subst h
      assumption
    · split at h
      · subst h
        assumption
      · exact absurd h.symm hknown

/-- A character of the text with lines joined. -/
def joinLine (c : Char) : Char := if c == '\r' || c == '\n' then ' ' else c

theorem joinLines_eq (raw : Text) : joinLines raw = Text.trim (· == ' ') (raw.map joinLine) := rfl

theorem isBlank_joinLine {c : Char} (h : isBlank c = true) : isBlank (joinLine c) = true := by
  rw [joinLine]
  split
  · decide
  · exact h

/-- Trimming the end of a text stops at a character outside the class. -/
theorem Text.trimEnd_append {p : Char → Bool} {u v : Text} {c : Char} (hc : p c = false) :
    Text.trimEnd p (u ++ [c] ++ v) = u ++ [c] ++ Text.trimEnd p v := by
  rw [Text.trimEnd, Text.trimEnd, List.reverse_append, List.dropWhile_append]
  split
  · rename_i hnil
    have hnil : v.reverse.dropWhile p = [] := by simpa using hnil
    simp [hnil, hc]
  · simp

/-- Joining the lines of a text leaves its first word, with the blanks before it that are no spaces
or line breaks at the very start. -/
theorem LeadsWith.joinLines {w t blanks rest : Text} (h : LeadsWith w t blanks rest)
    (hne : w ≠ []) (hw : ∀ c ∈ w, isKeywordChar c = true) :
    ∃ rest', LeadsWith w (joinLines t)
      ((blanks.map joinLine).dropWhile (· == ' ')) rest' := by
  have hkeep : w.map joinLine = w := by
    refine List.map_congr_left (g := id) ?_ |>.trans (List.map_id w)
    intro c hc
    have hchar := (isKeywordChar_iff.mp (hw c hc)).2.2
    simp at hchar
    simp [joinLine, hchar]
  have hspace : ∀ c ∈ w, (c == ' ') = false := by
    intro c hc
    have hchar := (isKeywordChar_iff.mp (hw c hc)).2.2
    simp at hchar
    simp [hchar]
  obtain ⟨c, w', rfl⟩ := List.exists_cons_of_ne_nil hne
  have hstart : (t.map joinLine).dropWhile (· == ' ') =
      (blanks.map joinLine).dropWhile (· == ' ') ++ ((c :: w') ++ rest.map joinLine) := by
    rw [h.eq, List.map_append, List.map_append, hkeep, List.dropWhile_append]
    split
    · rename_i hnil
      have hnil : (blanks.map joinLine).dropWhile (· == ' ') = [] := by simpa using hnil
      simp [hnil, hspace c]
    · rfl
  obtain ⟨u, d, hlast⟩ : ∃ u d, c :: w' = u ++ [d] :=
    ⟨_, _, (List.dropLast_concat_getLast (List.cons_ne_nil c w')).symm⟩
  refine ⟨Text.trimEnd (· == ' ') (rest.map joinLine), ?_, ?_⟩
  · have hend : (d == ' ') = false := hspace d (by rw [hlast]; simp)
    have htrim := Text.trimEnd_append (p := (· == ' '))
      (u := (blanks.map joinLine).dropWhile (· == ' ') ++ u) (v := rest.map joinLine) hend
    rw [joinLines_eq, Text.trim, hstart, hlast]
    simpa using htrim
  · intro e he
    obtain ⟨b, hb, rfl⟩ := List.mem_map.mp ((List.dropWhile_sublist _).subset he)
    exact isBlank_joinLine (h.blank b hb)

namespace Held

/-- What stands before the first quote and the first bracket is not held. -/
theorem exists_text_front {raw front rest : Text} (h : joinLines raw = front ++ rest)
    (hquote : '\'' ∉ front) (hopen : '(' ∉ front) :
    ∃ rest', (Held.standard raw).text = front ++ rest' := by
  obtain ⟨t, hlit, hsub⟩ := literals_spec raw
  have hpaired := paired_segments (joinLines raw)
  have hliteral : ∀ m ∈ Segment.spans (Grammar.literal.segments (joinLines raw)),
      ∃ o rest, Match.text m = o :: rest ∧ o ∉ front := by
    intro m hm
    obtain ⟨content, -, htext⟩ := hpaired.text_of_mem hm
    exact ⟨'\'', _, htext, hquote⟩
  obtain ⟨tail, htail, -⟩ := Segment.split_join_start hliteral (hpaired.join_eq.trans h)
  have ht : t = front ++ Segment.join (fun m => (Held.standard raw).literals.tokenOf m.text) tail := by
    rw [hlit.text_eq, htail, Segment.join_append, Segment.join_map_plain]
  have hsubquery : ∀ body ∈ Segment.spans (Subquery.segments t),
      ∃ o rest, Subquery.cover body = o :: rest ∧ o ∉ front :=
    fun body _ => ⟨'(', _, rfl, hopen⟩
  obtain ⟨tail', htail', -⟩ :=
    Segment.split_join_start hsubquery ((Subquery.join_segments t).trans ht)
  exact ⟨_, by rw [hsub.text_eq, htail', Segment.join_append, Segment.join_map_plain]⟩

end Held

/-- A trimmed text starts with a character outside the class. -/
theorem Text.head?_trim {p : Char → Bool} {t : Text} {c : Char}
    (h : (Text.trim p t).head? = some c) : p c = false := by
  rw [Text.trim] at h
  cases hdrop : t.dropWhile p with
  | nil =>
    rw [hdrop] at h
    simp [Text.trimEnd] at h
  | cons d u =>
    have hd : p d = false := by
      have hnot := List.head?_dropWhile_not p t
      rw [hdrop] at hnot
      simpa using hnot
    have hkeep := Text.trimEnd_append (u := []) (v := u) hd
    rw [List.nil_append, List.singleton_append] at hkeep
    rw [hdrop, hkeep] at h
    obtain rfl : d = c := by simpa using h
    exact hd

/-- The held text of a statement of a batch starts with the keyword of its kind. Blanks stand before
the keyword exactly when the statement itself starts with a blank. -/
theorem Statement.exists_front {terminator : Char} {batch : Text} {s : Statement}
    (hs : s ∈ statementsOf terminator batch) (hknown : s.kind ≠ .unknown) :
    ∃ w blanks rest, s.kind.Writes w ∧ LeadsWith w (Held.standard s.sql).text blanks rest ∧
      (blanks = [] ↔ s.sql.head?.any isBlank = false) := by
  obtain ⟨piece, -, hpiece⟩ := List.mem_filterMap.mp hs
  obtain ⟨sql, hsql, rfl⟩ : ∃ sql, sql = Text.trim isNoise piece ∧ Statement.ofText sql = s := by
    rw [Statement.ofPiece?] at hpiece
    split at hpiece
    · cases hpiece
    · exact ⟨_, rfl, Option.some.inj hpiece⟩
  have hwrites : (Statement.ofText sql).kind.Writes (leadingWord sql) :=
    StatementKind.writes_of_ofKeyword rfl hknown
  have hchars : ∀ c ∈ leadingWord sql, isKeywordChar c = true := fun c hc =>
    hwrites.isKeywordChar_of_mem hc
  obtain ⟨blanks, rest, hlead⟩ := exists_leadingWord sql
  obtain ⟨rest', hjoined⟩ := hlead.joinLines hwrites.ne_nil hchars
  set blanks' := (blanks.map joinLine).dropWhile (· == ' ')
  have hfree : ∀ d ∈ "'(".toList, d ∉ blanks' ++ leadingWord sql := by
    intro d hd hmem
    rcases List.mem_append.mp hmem with hmem | hmem
    · have hblank : ∀ d ∈ "'(".toList, isBlank d = false := by decide
      have hd := hblank d hd
      rw [hjoined.blank d hmem] at hd
      cases hd
    · have hstart := (isKeywordChar_iff.mp (hchars d hmem)).2.2
      have hsub : ∀ d ∈ "'(".toList, d ∈ "'(S \r\n".toList := by decide
      exact hstart (hsub d hd)
  obtain ⟨more, htext⟩ := Held.exists_text_front
    (hjoined.eq.trans (List.append_assoc _ _ _).symm) (hfree _ (by decide)) (hfree _ (by decide))
  refine ⟨leadingWord sql, blanks', more, hwrites, ⟨?_, hjoined.blank⟩, ?_⟩
  · rw [Statement.ofText, htext, List.append_assoc]
  · obtain ⟨c, d, w, hw, -⟩ := hwrites.exists_cons
    have hsqlEq : (Statement.ofText sql).sql = blanks ++ (leadingWord sql ++ rest) := hlead.eq
    cases blanks with
    | nil =>
      have hc := (isKeywordChar_iff.mp (hchars c (by rw [hw]; simp))).2.1
      rw [hsqlEq, hw]
      simp [blanks', hc]
    | cons b blanks =>
      have hb : isBlank b = true := hlead.blank b (by simp)
      -- the first blank is no noise, so that it is neither a space nor a line break
      have hnoise : isNoise b = false := by
        apply Text.head?_trim (t := piece)
        rw [← hsql, hlead.eq]
        rfl
      have hkeep : joinLine b = b ∧ (b == ' ') = false := by
        simp [isNoise] at hnoise
        simp [joinLine, hnoise]
      rw [hsqlEq]
      simp [blanks', hkeep.1, hkeep.2, hb]

/-! ## Headers -/

namespace Pattern

/-- A pattern that starts with a word: what it reads starts with a word character at the edge of a
word. -/
def StartsWord (p : Pattern) : Prop := ∀ before u after, p.Reads before u after →
  (∃ c v, u = c :: v ∧ isWord c = true) ∧ Cursor.atWordEdge ⟨before, u ++ after⟩ = true

/-- The cases of a plain letter are looked up in ASCII. -/
theorem forall_of_sameLetter {x : Char} {p : Char → Bool} (hx : isPlainLetter x = true)
    (h : ∀ n < 128, (Char.ofNat n).toUpper = x.toUpper → p (Char.ofNat n) = true) {c : Char}
    (hc : sameLetter x c = true) : p c = true := by
  obtain ⟨hascii, hupper⟩ := toUpper_of_sameLetter hx hc
  have hp := h c.toNat hascii
  rw [Char.ofNat_toNat] at hp
  exact hp hupper

/-- A word is read letter by letter. -/
theorem reads_word_iff {t before u after : Text} :
    (word t).Reads before u after ↔ List.Forall₂ (fun x c => sameLetter x c = true) t u := by
  induction t generalizing before u with
  | nil => exact ⟨fun h => by rw [show u = [] from h]; exact .nil, fun h => by cases h; rfl⟩
  | cons x t ih =>
    rw [word, List.map_cons, reads_chain_cons, ← word]
    constructor
    · rintro ⟨v, w, rfl, ⟨c, hc, rfl⟩, hw⟩
      exact .cons hc (ih.mp hw)
    · intro h
      cases h with
      | @cons _ c _ u hc hu => exact ⟨[c], u, rfl, ⟨c, hc, rfl⟩, ih.mpr hu⟩

/-- The edge of a word and then a word start what is read. -/
theorem exists_of_reads_edge_word {t before u after : Text} {ps : List Pattern}
    (h : (chain (wordEdge :: word t :: ps)).Reads before u after) :
    ∃ v z, u = v ++ z ∧ List.Forall₂ (fun x c => sameLetter x c = true) t v ∧
      Cursor.atWordEdge ⟨before, u ++ after⟩ = true := by
  obtain ⟨v, u, rfl, ⟨rfl, hedge⟩, h⟩ := reads_chain_cons.mp h
  obtain ⟨v, z, rfl, hword, -⟩ := reads_chain_cons.mp h
  exact ⟨v, z, rfl, reads_word_iff.mp hword, hedge⟩

theorem startsWord_of_edge_word {x : Char} {t : Text} {ps : List Pattern}
    (hx : x ∈ "udmt".toList) : (chain (wordEdge :: word (x :: t) :: ps)).StartsWord := by
  intro before u after h
  obtain ⟨v, z, rfl, hword, hedge⟩ := exists_of_reads_edge_word h
  have hplain : ∀ x ∈ "udmt".toList, isPlainLetter x = true ∧ ∀ n < 128,
      (Char.ofNat n).toUpper = x.toUpper → isWord (Char.ofNat n) = true := by decide
  obtain ⟨hplain, hall⟩ := hplain x hx
  cases hword with
  | cons hc hrest => exact ⟨⟨_, _, rfl, forall_of_sameLetter hplain hall hc⟩, hedge⟩

/-- Between two word characters a word does not start. -/
theorem not_atWordEdge {before after : Text} (hbefore : before.head?.any isWord = true)
    (hafter : after.head?.any isWord = true) : Cursor.atWordEdge ⟨before, after⟩ = false := by
  rw [Cursor.atWordEdge, hbefore, hafter]
  rfl

/-- In blanks and in the word behind them, a pattern that starts with a word starts at that word or
nowhere. -/
theorem StartsWord.matchAt?_eq_none {p : Pattern} (hp : p.StartsWord) {w blanks : Text}
    (hblank : ∀ c ∈ blanks, isBlank c = true) (hw : ∀ c ∈ w, isWord c = true) {a b : Text}
    {c : Char} (h : blanks ++ w = a ++ c :: b) (hne : a ≠ blanks) (rest : Text) :
    p.matchAt? ⟨a.reverse, c :: (b ++ rest)⟩ = none := by
  rw [matchAt?_eq_none_iff]
  intro u after hsplit hreads
  obtain ⟨⟨d, v, rfl, hd⟩, hedge⟩ := hp _ _ _ hreads
  rw [← hsplit] at hedge
  rw [List.cons_append, List.cons.injEq] at hsplit
  rcases List.append_eq_append_iff.mp h with ⟨z, rfl, hrest⟩ | ⟨z, rfl, hrest⟩
  · -- inside the word there is no edge
    rcases List.eq_nil_or_concat z with rfl | ⟨z, e, rfl⟩
    · exact hne (List.append_nil _)
    · have he : isWord e = true := hw e (by rw [hrest]; simp)
      have hc : isWord c = true := hw c (by rw [hrest]; simp)
      rw [not_atWordEdge (by simp [he]) (by simp [hc])] at hedge
      cases hedge
  · cases z with
    | nil => exact hne (List.append_nil _).symm
    | cons e z =>
      -- a blank does not start a word
      rw [List.cons_append, List.cons.injEq] at hrest
      have hb := isWord_of_isBlank (hblank e (by simp))
      rw [← hrest.1, hsplit.1, hd] at hb
      cases hb

/-- In a text that starts with a word behind blanks, a pattern that starts with a word is found
right behind the blanks or behind that word. -/
theorem find?_front {p : Pattern} (hp : p.StartsWord) {w t blanks rest : Text}
    (hlead : LeadsWith w t blanks rest) (hw : ∀ c ∈ w, isWord c = true) {m : Match}
    (h : p.find? t = some m) :
    m.start.passed = blanks ∨ ∃ z, m.start.passed = blanks ++ (w ++ z) := by
  obtain ⟨x, y, hsplit, hmatch, -⟩ := findFrom?_some h
  obtain ⟨tail, -, hstart, -, -⟩ := matchAt?_some hmatch
  have hpassed : m.start.passed = x := by
    rw [hstart, Cursor.passed]
    simp
  rw [hpassed]
  by_cases hx : x = blanks
  · exact Or.inl hx
  · right
    rw [hlead.eq, ← List.append_assoc] at hsplit
    rcases List.append_eq_append_iff.mp hsplit with ⟨z, rfl, -⟩ | ⟨z, hz, hrest⟩
    · exact ⟨z, List.append_assoc _ _ _⟩
    · cases z with
      | nil => exact ⟨[], by rw [← List.append_nil x, ← hz, List.append_nil]⟩
      | cons c z =>
        have hnone := hp.matchAt?_eq_none hlead.blank hw hz hx rest
        rw [List.append_nil, hrest, List.cons_append, hnone] at hmatch
        cases hmatch

end Pattern

end MutationPreview
