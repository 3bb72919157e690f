import MutationPreview.Grammar
import MutationPreview.Proofs.Pattern.Segments
import MutationPreview.Proofs.Pattern.Spelling
import MutationPreview.Proofs.Text.Letter

/-!
# Connectives

The words that join predicates, as words on their own and as the middle of a boundary. A word on
its own ends where no word character stands beside it; a boundary asks for blanks, and takes them
along.
-/

namespace MutationPreview

open Pattern

/-- A connective, in any letter case. -/
def connective : Pattern := firstOf [word "where".toList, word "and".toList, word "or".toList]

/-- A connective that is a word on its own. -/
def connectiveWord : Pattern := chain [wordEdge, connective, wordEdge]

/-- The letters of connectives, in either case. -/
def connectiveLetters : Text := "wherandoWHERANDO".toList

/-! ## Letters -/

theorem mem_of_reads_word {t before u after : Text} {c : Char} (h : (word t).Reads before u after)
    (hc : c ∈ u) : ∃ x ∈ t, sameLetter x c = true := by
  induction t generalizing before u with
  | nil =>
    have hu : u = [] := h
    simp [hu] at hc
  | cons x t ih =>
    rw [word, List.map_cons] at h
    obtain ⟨v, w, rfl, ⟨d, hd, rfl⟩, hw⟩ := reads_chain_cons.mp h
    rcases List.mem_append.mp hc with hc | hc
    · rw [List.mem_singleton.mp hc]
      exact ⟨x, List.mem_cons_self, hd⟩
    · obtain ⟨y, hy, hyc⟩ := ih hw hc
      exact ⟨y, List.mem_cons_of_mem _ hy, hyc⟩

theorem connective_edgeFree : connective.edgeFree = true := by decide

theorem connective_ne_nil {k : Text} (h : connective.Spells k) : k ≠ [] := h.ne_nil (by decide)

/-- Connectives are written in letters of ASCII. -/
theorem mem_connectiveLetters {k : Text} (h : connective.Spells k) {c : Char} (hc : c ∈ k) :
    c ∈ connectiveLetters := by
  have hsame : ∃ x ∈ "wherando".toList, sameLetter x c = true := by
    obtain ⟨p, hp, hk⟩ := reads_firstOf.mp h
    have hletters : ∀ t ∈ ["where".toList, "and".toList, "or".toList], ∀ x ∈ t,
        x ∈ "wherando".toList := by decide
    simp only [List.mem_cons, List.not_mem_nil, or_false] at hp
    rcases hp with rfl | rfl | rfl
    all_goals
      obtain ⟨x, hx, hxc⟩ := mem_of_reads_word hk hc
      exact ⟨x, hletters _ (by simp) x hx, hxc⟩
  obtain ⟨x, hx, hxc⟩ := hsame
  have hplain : ∀ x ∈ "wherando".toList, isPlainLetter x = true := by decide
  obtain ⟨hascii, hupper⟩ := toUpper_of_sameLetter (hplain x hx) hxc
  have hall : ∀ n < 128, ∀ x ∈ "wherando".toList, (Char.ofNat n).toUpper = x.toUpper →
      Char.ofNat n ∈ connectiveLetters := by decide
  have hmem := hall c.toNat hascii x hx
  rw [Char.ofNat_toNat] at hmem
  exact hmem hupper

theorem isWord_of_mem_connective {k : Text} (h : connective.Spells k) {c : Char} (hc : c ∈ k) :
    isWord c = true := by
  have hall : ∀ c ∈ connectiveLetters, isWord c = true := by decide
  exact hall c (mem_connectiveLetters h hc)

theorem isBlank_of_mem_connective {k : Text} (h : connective.Spells k) {c : Char} (hc : c ∈ k) :
    isBlank c = false := by
  have hall : ∀ c ∈ connectiveLetters, isBlank c = false := by decide
  exact hall c (mem_connectiveLetters h hc)

/-! ## Words on their own -/

/-- A connective is a word on its own if no word character stands beside it. -/
theorem reads_connectiveWord_iff {before k after : Text} :
    connectiveWord.Reads before k after ↔
      connective.Spells k ∧ before.head?.any isWord = false ∧ after.head?.any isWord = false := by
  -- the connective itself starts and ends with word characters
  have hstart : connective.Spells k → ∀ rest, (k ++ rest).head?.any isWord = true := by
    intro hk rest
    obtain ⟨c, k', rfl⟩ := List.exists_cons_of_ne_nil (connective_ne_nil hk)
    simpa using isWord_of_mem_connective hk List.mem_cons_self
  have hend : connective.Spells k → ∀ rest, (k.reverse ++ rest).head?.any isWord = true := by
    intro hk rest
    rcases List.eq_nil_or_concat k with hnil | ⟨k', c, hk'⟩
    · exact absurd hnil (connective_ne_nil hk)
    · have hc := isWord_of_mem_connective hk (c := c) (by simp [hk'])
      simp [hk', hc]
  constructor
  · intro h
    obtain ⟨v, w, rfl, ⟨rfl, hfirst⟩, h⟩ := reads_chain_cons.mp h
    obtain ⟨k', w, rfl, hk, ⟨rfl, hlast⟩⟩ := reads_chain_cons.mp h
    have hk := hk.spells connective_edgeFree
    simp only [List.nil_append, List.append_nil] at hstart hend ⊢
    simp only [Cursor.atWordEdge, List.nil_append, List.append_nil, List.reverse_nil,
      hstart hk, hend hk] at hfirst hlast
    exact ⟨hk, by simpa using hfirst, by simpa using hlast⟩
  · rintro ⟨hk, hbefore, hafter⟩
    refine reads_chain_cons.mpr ⟨[], k, rfl, ⟨rfl, ?_⟩, ?_⟩
    · rw [Cursor.atWordEdge, hbefore, hstart hk]
      rfl
    · refine reads_chain_cons.mpr ⟨k, [], by simp, hk.reads connective_edgeFree _ _, rfl, ?_⟩
      simp only [List.reverse_nil, List.nil_append, Cursor.atWordEdge, hend hk, hafter]
      rfl

/-! ## Boundaries -/

/-- A boundary is a connective with a blank behind it, and a blank before it unless the text starts
there. -/
theorem reads_boundary_iff {before u after : Text} :
    Grammar.boundary.Reads before u after ↔
      ∃ e k b, u = e ++ k ++ [b] ∧
        (before = [] ∧ e = [] ∨ ∃ d, isBlank d = true ∧ e = [d]) ∧
        connective.Spells k ∧ isBlank b = true := by
  constructor
  · intro h
    obtain ⟨e, w, rfl, he, h⟩ := reads_chain_cons.mp h
    obtain ⟨k, w, rfl, hk, h⟩ := reads_chain_cons.mp h
    obtain ⟨b, hb, rfl⟩ := h
    exact ⟨e, k, b, by simp, he, Reads.spells connective_edgeFree hk, hb⟩
  · rintro ⟨e, k, b, rfl, he, hk, hb⟩
    refine reads_chain_cons.mpr ⟨e, k ++ [b], by simp, he, ?_⟩
    exact reads_chain_cons.mpr ⟨k, [b], rfl, hk.reads connective_edgeFree _ _, b, hb, rfl⟩

theorem consumes_boundary : Grammar.boundary.consumes = true := rfl

/-- Two texts without blanks that are followed by one each are the same if the whole texts are. -/
theorem eq_of_append_blank {k k' rest rest' : Text} {b b' : Char}
    (hk : ∀ c ∈ k, isBlank c = false) (hk' : ∀ c ∈ k', isBlank c = false)
    (hb : isBlank b = true) (hb' : isBlank b' = true) (h : k ++ b :: rest = k' ++ b' :: rest') :
    k = k' ∧ b = b' ∧ rest = rest' := by
  induction k generalizing k' with
  | nil =>
    cases k' with
    | nil => simpa using h
    | cons c k' =>
      simp only [List.nil_append, List.cons_append, List.cons.injEq] at h
      have hc := hk' c (by simp)
      rw [← h.1, hb] at hc
      simp at hc
  | cons c k ih =>
    cases k' with
    | nil =>
      simp only [List.nil_append, List.cons_append, List.cons.injEq] at h
      have hc := hk c (by simp)
      rw [h.1, hb'] at hc
      simp at hc
    | cons c' k' =>
      simp only [List.cons_append, List.cons.injEq] at h
      obtain ⟨rfl, h⟩ := h
      obtain ⟨rfl, hrest⟩ := ih (fun c hc => hk c (by simp [hc])) (fun c hc => hk' c (by simp [hc])) h
      exact ⟨rfl, hrest⟩

/-- A boundary can be read in one way only at a given place. -/
theorem boundary_unique {before u u' rest rest' : Text}
    (h : Grammar.boundary.Reads before u rest) (h' : Grammar.boundary.Reads before u' rest')
    (heq : u ++ rest = u' ++ rest') : u = u' := by
  obtain ⟨e, k, b, rfl, he, hk, hb⟩ := reads_boundary_iff.mp h
  obtain ⟨e', k', b', rfl, he', hk', hb'⟩ := reads_boundary_iff.mp h'
  have hnotBlank : ∀ {k : Text}, connective.Spells k → ∀ c ∈ k, isBlank c = false :=
    fun hk c hc => isBlank_of_mem_connective hk hc
  -- a blank that comes first cannot be the first letter of a connective
  have hclash : ∀ {k : Text} {d : Char} {x y : Text}, connective.Spells k → isBlank d = true →
      k ++ x ≠ d :: y := by
    intro k d x y hk hd heq
    obtain ⟨c, k, rfl⟩ := List.exists_cons_of_ne_nil (connective_ne_nil hk)
    simp only [List.cons_append, List.cons.injEq] at heq
    have hc := hnotBlank hk c (by simp)
    rw [heq.1, hd] at hc
    simp at hc
  rcases he with ⟨-, rfl⟩ | ⟨d, hd, rfl⟩ <;> rcases he' with ⟨-, rfl⟩ | ⟨d', hd', rfl⟩ <;>
    simp only [List.append_assoc, List.cons_append, List.nil_append] at heq
  · obtain ⟨rfl, rfl, -⟩ := eq_of_append_blank (hnotBlank hk) (hnotBlank hk') hb hb' heq
    rfl
  · exact absurd heq (hclash hk hd')
  · exact absurd heq.symm (hclash hk' hd)
  · rw [List.cons.injEq] at heq
    obtain ⟨rfl, heq⟩ := heq
    obtain ⟨rfl, rfl, -⟩ := eq_of_append_blank (hnotBlank hk) (hnotBlank hk') hb hb' heq
    rfl

end MutationPreview
