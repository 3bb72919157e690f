import MutationPreview.Proofs.Tidy.Untouched

/-!
# Plain clauses

A plain clause is a list of comparisons of a column with a number or a literal, with `and` or `or`
between them. It is written in one way, up to what stands before a connective (a space in a
statement, a line feed in a preview) and how its values are written (as they are, or as tokens).

Names are words that no pattern looks for (`Name.isPlainWord`). If values are written as such words,
the words of a clause are they and its connectives (`PlainClause.eachWord_text`).
-/

namespace MutationPreview

open Pattern

/-! ## Names, values and comparisons -/

/-- The words that a name must not be, in any letter case. -/
def reservedWords : List Text :=
  ["where", "and", "or", "from", "join", "using"].map String.toList

/-- Whether a character can stand in a name. -/
def isNameChar (c : Char) : Bool := c.isAlphanum || c == '_'

/-- Whether a text is a name: a letter with letters, digits and underscores behind it, which is no
reserved word and does not start with the staging mark. -/
def isName (t : Text) : Bool :=
  t.head?.any Char.isAlpha && t.all isNameChar && !reservedWords.any (Text.sameAscii t) &&
    !Text.sameAscii (t.take 4) "tmp_".toList

/-- A name of a schema, a table, an alias or a column. -/
structure Name where
  text : Text
  isName : isName text = true := by decide

/-- What a column is compared with. -/
inductive Value where
  | number (digits : Text) (h : digits ≠ [] ∧ ∀ c ∈ digits, c.isDigit = true := by decide)
  | literal (content : Text) (h : ∀ c ∈ content, c ∉ ['\'', '\r', '\n', '’'] := by decide)

namespace Value

/-- The value as it is written in a statement. -/
def text : Value → Text
  | number digits _ => digits
  | literal content _ => inQuotes content

/-- The value as it is written in held text. -/
def held (l : Ledger) : Value → Text
  | number digits _ => digits
  | literal content _ => l.tokenOf (inQuotes content)

end Value

/-- The operators of comparisons. -/
inductive Operator where
  | eq
  | ne
  | lt
  | gt
  | le
  | ge
deriving DecidableEq, Repr

def Operator.text : Operator → Text
  | eq => ['=']
  | ne => ['!', '=']
  | lt => ['<']
  | gt => ['>']
  | le => ['<', '=']
  | ge => ['>', '=']

theorem Operator.text_ne_nil (o : Operator) : o.text ≠ [] := by
  cases o <;> simp [text]

theorem Operator.separates (o : Operator) :
    ∀ c ∈ o.text, isWord c = false ∧ isBlank c = false := by
  cases o <;> decide

/-- What stands between two comparisons. -/
inductive Connective where
  | and
  | or
deriving DecidableEq, Repr

def Connective.text : Connective → Text
  | and => "and".toList
  | or => "or".toList

/-- The comparison of a column with a value. -/
structure Comparison where
  column : Name
  operator : Operator
  value : Value

def Comparison.text (write : Value → Text) (p : Comparison) : Text :=
  p.column.text ++ ' ' :: (p.operator.text ++ ' ' :: write p.value)

/-- Comparisons with connectives between them. -/
structure PlainClause where
  first : Comparison
  more : List (Connective × Comparison)

namespace PlainClause

/-- Comparisons with a connective before each of them, behind a gap. -/
def textOfMore (gap : Char) (write : Value → Text) : List (Connective × Comparison) → Text
  | [] => []
  | (k, p) :: more => gap :: (k.text ++ ' ' :: (p.text write ++ textOfMore gap write more))

/-- The clause with a gap before each connective. -/
def text (gap : Char) (write : Value → Text) (c : PlainClause) : Text :=
  c.first.text write ++ textOfMore gap write c.more

/-- The comparisons in order. -/
def comparisons (c : PlainClause) : List Comparison := c.first :: c.more.map Prod.snd

/-- The clause from its `where` on, with the terminator. -/
def parameters (write : Value → Text) (c : PlainClause) : Text :=
  "where".toList ++ ' ' :: (c.text ' ' write ++ [';'])

end PlainClause

/-! ## Words that no pattern looks for -/

/-- A word that is no reserved word and does not start with the staging mark, to a pattern. -/
structure IsPlainWord (w : Text) : Prop where
  ne_nil : w ≠ []
  isWord : ∀ c ∈ w, isWord c = true
  free : ∀ k ∈ reservedWords, ¬ (word k).Spells w
  unmarked : ∀ u v, w = u ++ v → ¬ (word "tmp_".toList).Spells u

theorem not_spells_of_head {x c : Char} {k w u v : Text} (hc : sameLetter x c = false)
    (hsplit : c :: w = u ++ v) : ¬ (word (x :: k)).Spells u := by
  intro hspells
  cases reads_word_iff.mp hspells with
  | cons hletter _ =>
    obtain ⟨rfl, -⟩ := List.cons.inj hsplit
    rw [hc] at hletter
    cases hletter

/-- A word that starts with another letter than any of the words looked for. -/
theorem isPlainWord_of_head {c : Char} {w : Text} (hw : ∀ d ∈ c :: w, isWord d = true)
    (hc : ∀ x ∈ "waofjut".toList, sameLetter x c = false) : IsPlainWord (c :: w) := by
  refine ⟨by simp, hw, fun k hk => ?_, fun u v hsplit => not_spells_of_head (hc 't' (by decide)) hsplit⟩
  have hfirst : ∀ k ∈ reservedWords, ∃ x k', k = x :: k' ∧ x ∈ "waofjut".toList := by
    intro k hk
    simp only [reservedWords, List.map_cons, List.map_nil, List.mem_cons, List.not_mem_nil,
      or_false] at hk
    rcases hk with rfl | rfl | rfl | rfl | rfl | rfl <;> exact ⟨_, _, rfl, by decide⟩
  obtain ⟨x, k', rfl, hx⟩ := hfirst k hk
  exact not_spells_of_head (hc x hx) (List.append_nil _).symm

theorem toNat_of_isNameChar {c : Char} (h : isNameChar c = true) : c.toNat < 128 := by
  rw [isNameChar, Bool.or_eq_true, beq_iff_eq, Char.isAlphanum, Bool.or_eq_true] at h
  rcases h with (h | h) | rfl
  · have h : (decide ('A'.val ≤ c.val ∧ c.val ≤ 'Z'.val) ||
        (decide ('a'.val ≤ c.val) && decide (c.val ≤ 'z'.val))) = true := h
    simp only [Bool.or_eq_true, Bool.and_eq_true, decide_eq_true_eq, UInt32.le_iff_toNat_le] at h
    change c.val.toNat < 128
    rcases h with ⟨-, h⟩ | ⟨-, h⟩ <;> exact lt_of_le_of_lt h (by decide)
  · simp only [Char.isDigit, Bool.and_eq_true, decide_eq_true_eq, UInt32.le_iff_toNat_le] at h
    exact lt_of_le_of_lt h.2 (by decide)
  · decide

theorem isWord_of_isNameChar {c : Char} (h : isNameChar c = true) : isWord c = true := by
  rwa [isWord, if_pos (toNat_of_isNameChar h)]

/-- In ASCII, a pattern takes for a letter only that letter in either case. -/
theorem toLower_of_sameLetter {x c : Char} (hx : x ∈ "wherandofjmiustpg_".toList)
    (hc : c.toNat < 128) (h : sameLetter x c = true) : c.toLower = x := by
  have hall : ∀ x ∈ "wherandofjmiustpg_".toList, ∀ n < 128,
      sameLetter x (Char.ofNat n) = true → (Char.ofNat n).toLower = x := by
    decide +kernel
  have hsame := hall x hx c.toNat hc
  rw [Char.ofNat_toNat] at hsame
  exact hsame h

/-- In ASCII, a pattern reads for a word only that word in any letter case. -/
theorem sameAscii_of_spells {k w : Text} (hk : ∀ x ∈ k, x ∈ "wherandofjmiustpg_".toList)
    (hw : ∀ c ∈ w, c.toNat < 128) (h : (word k).Spells w) :
    Text.sameAscii w k = true := by
  have hletters := reads_word_iff.mp h
  have hlower : ∀ x ∈ "wherandofjmiustpg_".toList, x.toLower = x := by decide
  rw [Text.sameAscii, beq_iff_eq]
  clear h
  induction hletters with
  | nil => rfl
  | @cons x c k w hletter _ ih =>
    rw [List.forall_mem_cons] at hk hw
    rw [List.map_cons, List.map_cons, ih hk.2 hw.2, hlower x hk.1,
      toLower_of_sameLetter hk.1 hw.1 hletter]

namespace Name

theorem isNameChar_of_mem (n : Name) {c : Char} (hc : c ∈ n.text) : isNameChar c = true := by
  have h := n.isName
  simp only [MutationPreview.isName, Bool.and_eq_true, List.all_eq_true] at h
  exact h.1.1.2 c hc

theorem isPlainWord (n : Name) : IsPlainWord n.text := by
  have hname := n.isName
  simp only [MutationPreview.isName, Bool.and_eq_true, Bool.not_eq_true', List.any_eq_false] at hname
  obtain ⟨⟨⟨hhead, -⟩, hreserved⟩, hmark⟩ := hname
  have hascii : ∀ c ∈ n.text, c.toNat < 128 := fun c hc =>
    toNat_of_isNameChar (n.isNameChar_of_mem hc)
  refine ⟨?_, fun c hc => isWord_of_isNameChar (n.isNameChar_of_mem hc), ?_, ?_⟩
  · intro hnil
    rw [hnil] at hhead
    cases hhead
  · intro k hk hspells
    have hletters : ∀ k ∈ reservedWords, ∀ x ∈ k, x ∈ "wherandofjmiustpg_".toList := by decide
    exact hreserved k hk (sameAscii_of_spells (hletters k hk) hascii hspells)
  · intro u v hsplit hspells
    have hlength : u.length = 4 := (reads_word_iff.mp hspells).length_eq.symm
    have htake : n.text.take 4 = u := by rw [hsplit, ← hlength, List.take_left']; rfl
    have hsame := sameAscii_of_spells (by decide)
      (fun c hc => hascii c (by simp [hsplit, hc])) hspells
    rw [htake, hsame] at hmark
    cases hmark

end Name

theorem isBlank_of_isWord {c : Char} (h : isWord c = true) : isBlank c = false := by
  rw [Bool.eq_false_iff]
  intro hblank
  rw [isWord_of_isBlank hblank] at h
  cases h

theorem head?_word {w : Text} (hw : w ≠ [] ∧ ∀ c ∈ w, isWord c = true) (t : Text) :
    (w ++ t).head?.any isBlank = false := by
  obtain ⟨c, w, rfl⟩ := List.exists_cons_of_ne_nil hw.1
  exact isBlank_of_isWord (hw.2 c (by simp))

/-! ## The characters of a clause -/

/-- Whether a character can stand in the names, operators and connectives of a clause and between
them. -/
def isClauseChar (c : Char) : Bool := isNameChar c || " =!<>".toList.contains c

theorem Name.isClauseChar_of_mem (n : Name) : ∀ c ∈ n.text, isClauseChar c = true := by
  intro c hc
  rw [isClauseChar, n.isNameChar_of_mem hc, Bool.true_or]

/-- A comparison up to its value. -/
def Comparison.front (q : Comparison) : Text :=
  q.column.text ++ ' ' :: (q.operator.text ++ [' '])

theorem Comparison.text_eq (q : Comparison) (write : Value → Text) :
    q.text write = q.front ++ write q.value := by
  simp [text, front]

theorem Comparison.isClauseChar_of_mem_front (q : Comparison) :
    ∀ c ∈ q.front, isClauseChar c = true := by
  have hoperator : ∀ c ∈ q.operator.text, isClauseChar c = true := by cases q.operator <;> decide
  simp only [front, List.forall_mem_append, List.forall_mem_cons]
  exact ⟨q.column.isClauseChar_of_mem, by decide, hoperator, by decide, by simp⟩

namespace PlainClause

variable {c : PlainClause} {write : Value → Text} {gap x : Char}

/-- What holds of the words around the values, of the values, of the gap, and of two texts in a row,
holds of the clause. -/
theorem text_rel (write write' : Value → Text) {Q : Text → Text → Prop}
    (happend : ∀ a a' b b', Q a a' → Q b b' → Q (a ++ b) (a' ++ b'))
    (hfixed : ∀ u, (∀ c ∈ u, isClauseChar c = true) → Q u u)
    (hvalue : ∀ p ∈ c.comparisons, Q (write p.value) (write' p.value))
    (hgap : Q [gap] [gap]) : Q (c.text gap write) (c.text gap write') := by
  have hcomparison : ∀ q : Comparison, Q (write q.value) (write' q.value) →
      Q (q.text write) (q.text write') := by
    intro q hq
    rw [q.text_eq, q.text_eq]
    exact happend _ _ _ _ (hfixed _ q.isClauseChar_of_mem_front) hq
  have hmore : ∀ more : List (Connective × Comparison),
      (∀ p ∈ more.map Prod.snd, Q (write p.value) (write' p.value)) →
      Q (textOfMore gap write more) (textOfMore gap write' more) := by
    intro more hmore
    induction more with
    | nil => exact hfixed [] (by simp)
    | cons entry more ih =>
      obtain ⟨k, q⟩ := entry
      rw [List.map_cons, List.forall_mem_cons] at hmore
      have hfront : Q (k.text ++ [' ']) (k.text ++ [' ']) :=
        hfixed _ (by cases k <;> decide)
      simpa [textOfMore] using happend _ _ _ _ (happend _ _ _ _ hgap hfront)
        (happend _ _ _ _ (hcomparison q hmore.1) (ih hmore.2))
  rw [comparisons, List.forall_mem_cons] at hvalue
  exact happend _ _ _ _ (hcomparison _ hvalue.1) (hmore _ hvalue.2)

theorem text_all {Q : Text → Prop} (happend : ∀ a b, Q a → Q b → Q (a ++ b))
    (hfixed : ∀ u, (∀ c ∈ u, isClauseChar c = true) → Q u)
    (hvalue : ∀ p ∈ c.comparisons, Q (write p.value)) (hgap : Q [gap]) : Q (c.text gap write) :=
  text_rel write write (Q := fun a _ => Q a) (fun a _ b _ => happend a b) hfixed hvalue hgap

theorem notMem_text (hx : isClauseChar x = false) (hgap : x ≠ gap)
    (hvalue : ∀ p ∈ c.comparisons, x ∉ write p.value) : x ∉ c.text gap write := by
  refine text_all (Q := fun a => x ∉ a) ?_ ?_ hvalue (by simpa using hgap)
  · intro a b ha hb
    simp [ha, hb]
  · intro u hu hmem
    rw [hu x hmem] at hx
    cases hx

end PlainClause

/-! ## The words of a clause -/

namespace PlainClause

variable {write : Value → Text} {c : PlainClause}

theorem head?_textOfMore (more : List (Connective × Comparison)) (write : Value → Text) :
    (textOfMore ' ' write more ++ [';']).head?.any isWord = false := by
  cases more with
  | nil => exact (by decide : isWord ';' = false)
  | cons => exact (by decide : isWord ' ' = false)

theorem head?_comparison (q : Comparison) {gap : Char → Bool}
    (hgap : ∀ c, isWord c = true → gap c = false) (write : Value → Text) (rest : Text) :
    (q.text write ++ rest).head?.any gap = false := by
  have hword := q.column.isPlainWord
  obtain ⟨d, u, hd⟩ := List.exists_cons_of_ne_nil hword.ne_nil
  rw [Comparison.text, hd]
  exact hgap d (hword.isWord d (by simp [hd]))

/-- The words of a comparison are plain words. -/
theorem eachWord_comparison {P : Text → Prop} (hplain : ∀ w, IsPlainWord w → P w) {q : Comparison}
    (hvalue : IsPlainWord (write q.value)) {t : Text} (ht : t.head?.any isWord = false)
    (h : EachWord P t) : EachWord P (q.text write ++ t) := by
  have htext : q.text write ++ t =
      q.column.text ++ ' ' :: (q.operator.text ++ ' ' :: (write q.value ++ t)) := by
    simp [Comparison.text]
  have hspace : isWord ' ' = false := by decide
  rw [htext]
  refine EachWord.append_word q.column.isPlainWord.isWord (hplain _ q.column.isPlainWord) hspace ?_
  refine (EachWord.append_separators (fun c hc => (q.operator.separates c hc).1) ?_).cons hspace
  exact (EachWord.append_word hvalue.isWord (hplain _ hvalue) ht h).cons hspace

/-- The words of a clause are plain words and connectives. -/
theorem eachWord_text {P : Text → Prop} (hwrite : ∀ v, IsPlainWord (write v))
    (hplain : ∀ w, IsPlainWord w → P w) (hconnective : ∀ k : Connective, P k.text) :
    EachWord P (c.text ' ' write ++ [';']) := by
  have hmore : ∀ more, EachWord P (textOfMore ' ' write more ++ [';']) := by
    intro more
    induction more with
    | nil => exact EachWord.nil.cons (by decide)
    | cons entry more ih =>
      obtain ⟨k, q⟩ := entry
      have htext : textOfMore ' ' write ((k, q) :: more) ++ [';'] =
          ' ' :: (k.text ++ ' ' :: (q.text write ++ (textOfMore ' ' write more ++ [';']))) := by
        simp [textOfMore]
      have hspace : isWord ' ' = false := by decide
      have hword : ∀ d ∈ k.text, isWord d = true := by cases k <;> decide
      have hcomparison := eachWord_comparison hplain (hwrite q.value) (head?_textOfMore more write) ih
      rw [htext]
      refine (EachWord.append_word hword (hconnective k) ?_ (hcomparison.cons hspace)).cons hspace
      simpa using hspace
  rw [text, List.append_assoc]
  exact eachWord_comparison hplain (hwrite _) (head?_textOfMore c.more write) (hmore c.more)

end PlainClause

theorem PlainClause.singleSpaced_text {c : PlainClause} {write : Value → Text}
    (hwrite : ∀ v, IsPlainWord (write v)) : SingleSpaced (c.text '\n' write ++ [';']) := by
  have hword : ∀ {w : Text}, (∀ c ∈ w, isWord c = true) → ' ' ∉ w := fun hw hmem =>
    absurd (hw ' ' hmem) (by decide)
  have hblank : isBlank ' ' = true := by decide
  have hcomparison : ∀ (q : Comparison) {t : Text}, SingleSpaced t → SingleSpaced (q.text write ++ t) := by
    intro q t ht
    have htext : q.text write ++ t =
        q.column.text ++ ' ' :: (q.operator.text ++ ' ' :: (write q.value ++ t)) := by
      simp [Comparison.text]
    have hoperator : ' ' ∉ q.operator.text := fun hmem =>
      absurd (q.operator.separates _ hmem).2 (by decide)
    have hstart : (q.operator.text ++ ' ' :: (write q.value ++ t)).head?.any isBlank = false := by
      obtain ⟨e, rest, he⟩ := List.exists_cons_of_ne_nil q.operator.text_ne_nil
      rw [he]
      exact (q.operator.separates e (by simp [he])).2
    have hvalue := SingleSpaced.append (hword (hwrite q.value).isWord) ht
    have hsecond := hvalue.space hblank (head?_word ⟨(hwrite _).ne_nil, (hwrite _).isWord⟩ _)
    rw [htext]
    exact .append (hword q.column.isPlainWord.isWord)
      ((SingleSpaced.append hoperator hsecond).space hblank hstart)
  have hmore : ∀ more : List (Connective × Comparison),
      SingleSpaced (textOfMore '\n' write more ++ [';']) := by
    intro more
    induction more with
    | nil => exact (by decide : ¬ [' ', ' '] <:+: [';'])
    | cons entry more ih =>
      obtain ⟨k, q⟩ := entry
      have htext : textOfMore '\n' write ((k, q) :: more) ++ [';'] = '\n' :: k.text ++
          ' ' :: (q.text write ++ (textOfMore '\n' write more ++ [';'])) := by
        simp [textOfMore]
      have hfront : ' ' ∉ '\n' :: k.text := by cases k <;> decide
      rw [htext]
      exact .append hfront ((hcomparison q ih).space hblank
        (head?_comparison q (fun _ => isBlank_of_isWord) _ _))
  rw [text, List.append_assoc]
  exact hcomparison _ (hmore _)

end MutationPreview
