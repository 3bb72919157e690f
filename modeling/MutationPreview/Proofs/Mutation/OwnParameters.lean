import Mathlib.Data.Nat.Find
import MutationPreview.Proofs.Mutation.PlainUpdate
import MutationPreview.Proofs.Subquery.Mask

/-!
# The `where` of a query's own

A `where` of a query is its own if it is a whole word and lies outside all subqueries
(`IsOwnWhere`). The same places are found in the query and in its masked copy, by the segments that
the two share (`WhereBetween`): no `where` reaches into a subquery, because no bracket is part of a
word, and masking changes neither the edges of words nor the offsets in bytes.

Main statement: for a query that starts with `select`, what is found in the masked copy and cut off
from the query is the query from the first `where` of its own on, and the cut divides no character
(`ownParameters_isOwnParameters`).
-/

namespace MutationPreview

open Pattern

/-! ## Words in any letter case -/

/-- A pattern reads for a word that word in any letter case. -/
theorem spells_of_sameAscii {k w : Text} (hk : ∀ x ∈ k, x ∈ "wherslct".toList)
    (h : Text.sameAscii w k = true) : (word k).Spells w := by
  have hall : ∀ x ∈ "wherslct".toList, x.toNat < 128 ∧ x.toLower = x ∧
      ∀ n < 128, (Char.ofNat n).toLower ∈ [x] → sameLetter x (Char.ofNat n) = true := by
    decide +kernel
  rw [Text.sameAscii, beq_iff_eq] at h
  rw [Spells, reads_word_iff]
  induction k generalizing w with
  | nil =>
    rw [List.map_nil, List.map_eq_nil_iff] at h
    rw [h]
    exact .nil
  | cons x k ih =>
    rw [List.forall_mem_cons] at hk
    obtain ⟨hascii, hlower, hletter⟩ := hall x hk.1
    obtain ⟨c, w, rfl, hc, hw⟩ := List.map_eq_cons_iff.mp h
    have hmem : c.toLower ∈ [x] := by
      rw [hc, hlower]
      exact List.mem_singleton_self x
    exact .cons (forall_of_toLower (by simpa using hascii) hletter hmem) (ih hk.2 hw)

theorem select_letters : "select".toList ≠ [] ∧ ∀ x ∈ "select".toList, isWordLetter x = true := by
  decide

theorem spells_where_iff {w : Text} :
    (word "where".toList).Spells w ↔ Text.sameAscii w "where".toList = true :=
  ⟨sameAscii_of_spells_where, spells_of_sameAscii (by decide)⟩

/-! ## Places of a `where` -/

/-- A whole word `where` outside all outermost subqueries of a text, and the texts before and behind
it. -/
structure IsOwnWhere (t front w back : Text) : Prop where
  split : t = front ++ (w ++ back)
  word : Text.sameAscii w "where".toList = true
  before : front.getLast?.any isWord = false
  behind : back.head?.any isWord = false
  outside : ∀ p ∈ Segment.byteSpans Subquery.cover 0 (Subquery.segments t),
    Text.bytes (front ++ w) ≤ p.1 ∨ p.2 ≤ Text.bytes front

/-- A whole word `where` between the segments of a text. -/
structure WhereBetween (segs A : List (Segment Text)) (w : Text) (B : List (Segment Text)) :
    Prop where
  split : segs = A ++ w.map .plain ++ B
  spells : (word "where".toList).Spells w
  before : (Segment.join Subquery.cover A).getLast?.any isWord = false
  behind : (Segment.join Subquery.cover B).head?.any isWord = false

section Place

variable {t front w back x y : Text} {A B : List (Segment Text)}

theorem notMem_where (h : (word "where".toList).Spells w) {c : Char} (hc : isWord c = false) :
    c ∉ w := by
  intro hmem
  rw [(isWord_of_spells_word where_letters h).2 c hmem] at hc
  cases hc

/-- In the text of the segments, such a word is one of the text's own. -/
theorem WhereBetween.isOwnWhere (h : WhereBetween (Subquery.segments t) A w B) :
    IsOwnWhere t (Segment.join Subquery.cover A) w (Segment.join Subquery.cover B) := by
  have hsplit := h.split
  refine ⟨?_, spells_where_iff.mp h.spells, h.before, h.behind, ?_⟩
  · rw [← Subquery.join_segments t, hsplit]
    simp [Segment.join_append]
  · rintro ⟨lo, hi⟩ hp
    rw [hsplit, List.append_assoc, Segment.byteSpans_append, Segment.byteSpans_append,
      Segment.byteSpans_map_plain, Segment.join_map_plain, List.nil_append, Nat.zero_add,
      ← Text.bytes_append, List.mem_append] at hp
    rcases hp with hp | hp
    · obtain ⟨A', a, B', rfl, -, rfl⟩ := Segment.mem_byteSpans.mp hp
      right
      rw [Nat.zero_add, Segment.join_append, Segment.join_span, ← List.append_assoc,
        Text.bytes_append (_ ++ _)]
      exact Nat.le_add_right _ _
    · obtain ⟨A', a, B', -, rfl, -⟩ := Segment.mem_byteSpans.mp hp
      exact Or.inl (Nat.le_add_right _ _)

/-- A `where` of the text's own lies between its segments: a subquery starts and ends with a
bracket. -/
theorem IsOwnWhere.exists_between (h : IsOwnWhere t front w back) :
    ∃ A B, WhereBetween (Subquery.segments t) A w B ∧ front = Segment.join Subquery.cover A ∧
      back = Segment.join Subquery.cover B := by
  have hspells := spells_where_iff.mpr h.word
  have hcover : ∀ a ∈ Segment.spans (Subquery.segments t), ∃ o body c,
      Subquery.cover a = o :: (body ++ [c]) ∧ o ∉ w ∧ c ∉ w := fun a _ =>
    ⟨'(', a, ')', rfl, notMem_where hspells (by decide), notMem_where hspells (by decide)⟩
  have hjoin : Segment.join Subquery.cover (Subquery.segments t) = front ++ w ++ back := by
    rw [Subquery.join_segments, h.split, List.append_assoc]
  rcases Segment.split_join (isWord_of_spells_word where_letters hspells).1 hcover hjoin with
    ⟨A, B, hsegs, rfl, rfl⟩ | ⟨A, a, B, o, u, v, c, hsegs, ha, rfl, rfl⟩
  · exact ⟨A, B, ⟨hsegs, hspells, h.before, h.behind⟩, rfl, rfl⟩
  · -- inside a subquery it would not lie outside
    have hspan : (Text.bytes (Segment.join Subquery.cover A),
        Text.bytes (Segment.join Subquery.cover A ++ Subquery.cover a)) ∈
          Segment.byteSpans Subquery.cover 0 (Subquery.segments t) := by
      rw [hsegs, Segment.mem_byteSpans]
      exact ⟨A, a, B, rfl, by rw [Nat.zero_add], by rw [Nat.zero_add]⟩
    have houtside := h.outside _ hspan
    have hfirst := o.utf8Size_pos
    have hlast := c.utf8Size_pos
    simp only [ha, Text.bytes_append, Text.bytes] at houtside
    omega

/-- In the masked text, such a word is a whole word too. -/
theorem WhereBetween.reads_mask (h : WhereBetween (Subquery.segments t) A w B) :
    Subquery.mask t = Segment.join Subquery.blank A ++ (w ++ Segment.join Subquery.blank B) ∧
      (wholeWord "where".toList).Reads (Segment.join Subquery.blank A).reverse w
        (Segment.join Subquery.blank B) := by
  constructor
  · rw [Subquery.mask_eq, h.split]
    simp [Segment.join_append]
  · rw [reads_wholeWord_iff where_letters, List.head?_reverse, Subquery.getLast?_join_blank,
      Subquery.head?_join_blank]
    exact ⟨h.spells, h.before, h.behind⟩

/-- Every whole word `where` of the masked text lies between the segments: where a subquery was
there are spaces. -/
theorem exists_between_of_mask (h : Subquery.mask t = x ++ (w ++ y))
    (hreads : (wholeWord "where".toList).Reads x.reverse w y) :
    ∃ A B, WhereBetween (Subquery.segments t) A w B ∧ x = Segment.join Subquery.blank A ∧
      y = Segment.join Subquery.blank B := by
  rw [reads_wholeWord_iff where_letters, List.head?_reverse] at hreads
  obtain ⟨hspells, hbefore, hbehind⟩ := hreads
  have hne := (isWord_of_spells_word where_letters hspells).1
  have hspace : ' ' ∉ w := notMem_where hspells (by decide)
  have hcover : ∀ a ∈ Segment.spans (Subquery.segments t), ∃ o body c,
      Subquery.blank a = o :: (body ++ [c]) ∧ o ∉ w ∧ c ∉ w := by
    intro a _
    obtain ⟨n, hn⟩ := Subquery.exists_blank a
    exact ⟨' ', List.replicate n ' ', ' ', hn, hspace, hspace⟩
  rw [Subquery.mask_eq, ← List.append_assoc] at h
  rcases Segment.split_join hne hcover h with
    ⟨A, B, hsegs, rfl, rfl⟩ | ⟨A, a, B, o, u, v, c, -, ha, -, -⟩
  · rw [Subquery.getLast?_join_blank] at hbefore
    rw [Subquery.head?_join_blank] at hbehind
    exact ⟨A, B, ⟨hsegs, hspells, hbefore, hbehind⟩, rfl, rfl⟩
  · obtain ⟨d, w, rfl⟩ := List.exists_cons_of_ne_nil hne
    have hd : d ∈ Subquery.blank a := by simp [ha]
    rw [List.eq_of_mem_replicate hd] at hspace
    simp at hspace

end Place

/-! ## The search in the masked text -/

/-- What the search for a query's own `where` finds is a `where` of the query's own, and its offset is
that of the cut before it. -/
theorem exists_between_of_find? {t : Text} {m : Match} {p : Capture}
    (hm : Grammar.selectHead.find? (Subquery.mask t) = some m) (hp : m.part? .whereWord = some p) :
    ∃ A w B, WhereBetween (Subquery.segments t) A w B ∧
      p.start.offset = Text.bytes (Segment.join Subquery.cover A) := by
  obtain ⟨q, x, w, y, hq, hsplit, hstart, -, hreads⟩ := exists_start_of_find? hm hp
  have hparts : Grammar.selectHead.partsIn = [(.whereWord, wholeWord "where".toList)] := rfl
  obtain rfl : q = wholeWord "where".toList := by
    rw [hparts] at hq
    simpa using hq
  obtain ⟨A, B, hbetween, hx, -⟩ :=
    exists_between_of_mask (by rw [hsplit, List.append_assoc]) hreads
  refine ⟨A, w, B, hbetween, ?_⟩
  rw [hstart, Cursor.offset, Text.bytes_reverse, hx, Subquery.bytes_join_blank]

/-- In a text that starts with `select`, the search finds the first whole word `where`. -/
theorem find?_selectHead {v u w y : Text} (hv : (word "select".toList).Spells v)
    (hedge : (u ++ (w ++ y)).head?.any isWord = false)
    (hwhere : (wholeWord "where".toList).Reads (v ++ u).reverse w y)
    (hfirst : ∀ a b, u = a ++ b → b ≠ [] → ∀ w' y', b ++ (w ++ y) = w' ++ y' →
      ¬ (wholeWord "where".toList).Reads (v ++ a).reverse w' y') :
    ∃ m p, Grammar.selectHead.find? (v ++ (u ++ (w ++ y))) = some m ∧
      m.part? .whereWord = some p ∧ p.start = ⟨(v ++ u).reverse, w ++ y⟩ := by
  have hchars := isWord_of_spells_word select_letters hv
  have hreads : wherePart.Reads (u.reverse ++ v.reverse) w y := by
    rw [← List.reverse_append]
    exact hwhere
  obtain ⟨s, hs, hrun⟩ := exists_run_eq_some hreads [] ⟨[], v ++ (u ++ (w ++ y))⟩
  obtain ⟨r, -, rfl⟩ := List.mem_map.mp hs
  have hstart : (v ++ (u ++ (w ++ y))).head?.any isBlank = false := by
    obtain ⟨c, v, rfl⟩ := List.exists_cons_of_ne_nil hchars.1
    simpa using isBlank_of_isWord (hchars.2 c (by simp))
  have hat : Cursor.atWordEdge ⟨v.reverse ++ [], u ++ (w ++ y)⟩ = true := by
    rw [atWordEdge_behind hchars, hedge]
    rfl
  let found : Match := ⟨⟨[], v ++ (u ++ (w ++ y))⟩, r.here,
    ⟨.whereWord, ⟨u.reverse ++ v.reverse, w ++ y⟩, r.here⟩ :: r.parts⟩
  let answer : Reading → Option Match := fun s => some ⟨⟨[], v ++ (u ++ (w ++ y))⟩, s.here, s.parts⟩
  -- the pattern is run from its end to its start
  have hbehind : anything.run (wherePart.run answer) ⟨⟨v.reverse ++ [], u ++ (w ++ y)⟩, []⟩ =
      some found := by
    refine Cursor.nearest_of_first (fun _ _ => rfl) (fun a b hsplit hb => ?_) ?_
    · refine (run_eq_none_iff fun _ => rfl).mpr fun w' y' hrest hearlier => ?_
      refine hfirst a b hsplit hb w' y' hrest ?_
      rw [List.append_nil] at hearlier
      rw [List.reverse_append]
      exact hearlier
    · simpa using hrun
  have hword : (chain [word "select".toList, wordEdge, anything, wherePart]).run answer
      ⟨⟨[], v ++ (u ++ (w ++ y))⟩, []⟩ = some found := by
    rw [run_chain_cons, run_word hv, run_chain_cons, run, if_pos hat, run_chain_cons]
    exact hbehind
  have hmatch : Grammar.selectHead.matchAt? ⟨[], v ++ (u ++ (w ++ y))⟩ = some found := by
    rw [Grammar.selectHead, matchAt?, run_chain_cons, run, if_pos List.isEmpty_nil, run_chain_cons]
    exact Cursor.farthest_of_maximal (u := []) (by simp) hstart hword
  refine ⟨_, _, find?_of_matchAt? hmatch, rfl, ?_⟩
  rw [List.reverse_append]

/-- A `where` behind a `select` is no part of it. -/
theorem exists_behind_select {v x w y rest : Text} (hv : (word "select".toList).Spells v)
    (hw : (word "where".toList).Spells w) (hbefore : x.getLast?.any isWord = false)
    (h : v ++ rest = x ++ (w ++ y)) : ∃ u, x = v ++ u ∧ rest = u ++ (w ++ y) := by
  rcases Text.append_cases h with hbehind | ⟨c, z, rfl, hwy⟩
  · exact hbehind
  · rcases List.eq_nil_or_concat' x with rfl | ⟨x, d, rfl⟩
    · -- the two words start with different letters
      obtain ⟨d, w, rfl⟩ := List.exists_cons_of_ne_nil (isWord_of_spells_word where_letters hw).1
      rw [List.cons_append, List.cons_append, List.cons.injEq] at hwy
      obtain ⟨rfl, -⟩ := hwy
      have hselect : List.Forall₂ (fun x c => sameLetter x c = true) ('s' :: "elect".toList) (d :: z) :=
        reads_word_iff.mp hv
      have hdiffer : ∀ c ∈ ['s', 'S', 'ſ'], sameLetter 'w' c = false := by decide
      have hd := hdiffer d (mem_of_sameLetter_s (List.forall₂_cons.mp hselect).1)
      exact absurd hw (not_spells_of_head hd (List.append_nil _).symm)
    · have hd : isWord d = true :=
        (isWord_of_spells_word select_letters hv).2 d (by simp)
      simp [hd] at hbefore

/-! ## The first `where` -/

section First

variable {segs A A' B B' : List (Segment Text)} {w w' : Text}

theorem WhereBetween.prefix_of_le (h : WhereBetween segs A w B) (h' : WhereBetween segs A' w' B')
    (hle : A.length ≤ A'.length) : A <+: A' := by
  have hA : A <+: segs := by
    rw [h.split, List.append_assoc]
    exact List.prefix_append _ _
  have hA' : A' <+: segs := by
    rw [h'.split, List.append_assoc]
    exact List.prefix_append _ _
  exact List.prefix_of_prefix_length_le hA hA' hle

/-- If there is a `where` between the segments, one of them comes before all others. -/
theorem WhereBetween.exists_first (h : WhereBetween segs A w B) :
    ∃ A w B, WhereBetween segs A w B ∧ ∀ A' w' B', WhereBetween segs A' w' B' → A <+: A' := by
  classical
  have hexists : ∃ n A w B, WhereBetween segs A w B ∧ A.length = n := ⟨_, A, w, B, h, rfl⟩
  obtain ⟨A, w, B, hfirst, hlength⟩ := Nat.find_spec hexists
  refine ⟨A, w, B, hfirst, fun A' w' B' h' => hfirst.prefix_of_le h' ?_⟩
  rw [hlength]
  exact Nat.find_min' hexists ⟨A', w', B', h', rfl⟩

theorem join_prefix_join (f : Text → Text) (h : A <+: A') :
    Segment.join f A <+: Segment.join f A' := by
  obtain ⟨C, rfl⟩ := h
  rw [Segment.join_append]
  exact List.prefix_append _ _

end First

/-- The parameters of a text: the text from the first `where` of its own on, or nothing if it has
none. -/
def IsOwnParameters (t params : Text) : Prop :=
  (∃ front w back, IsOwnWhere t front w back ∧ params = w ++ back ∧
    ∀ front' w' back', IsOwnWhere t front' w' back' → front.length ≤ front'.length) ∨
  (∀ front w back, ¬ IsOwnWhere t front w back) ∧ params = []

theorem ownParameters_of_part {t : Text} {m : Match} {p : Capture}
    (hm : Grammar.selectHead.find? (Subquery.mask t) = some m) (hp : m.part? .whereWord = some p) :
    ownParameters t = Text.dropBytes t p.start.offset := by
  rw [ownParameters, hm, Option.bind_some, hp]

/-- The cut before a `where` that is found lies between two characters. -/
theorem isBoundary_of_find? {t : Text} {m : Match} {p : Capture}
    (hm : Grammar.selectHead.find? (Subquery.mask t) = some m) (hp : m.part? .whereWord = some p) :
    Text.IsBoundary t p.start.offset := by
  obtain ⟨A, w, B, hbetween, hoffset⟩ := exists_between_of_find? hm hp
  exact ⟨_, ⟨_, hbetween.isOwnWhere.split.symm⟩, hoffset.symm⟩

/-- In a query that starts with `select`, the search in the masked query finds the first `where`
between the outermost subqueries. -/
theorem find?_mask {v rest w : Text} {A B : List (Segment Text)} (hv : (word "select".toList).Spells v)
    (hrest : rest.head?.any isWord = false)
    (hbetween : WhereBetween (Subquery.segments (v ++ rest)) A w B)
    (hfirst : ∀ A' w' B', WhereBetween (Subquery.segments (v ++ rest)) A' w' B' → A <+: A') :
    ∃ m p, Grammar.selectHead.find? (Subquery.mask (v ++ rest)) = some m ∧
      m.part? .whereWord = some p ∧
      p.start.offset = Text.bytes (Segment.join Subquery.cover A) := by
  obtain ⟨hmask, hreads⟩ := hbetween.reads_mask
  have hopen : '(' ∉ v := by
    intro hmem
    have hword := (isWord_of_spells_word select_letters hv).2 '(' hmem
    exact absurd hword (by decide)
  have hmasked : Subquery.mask (v ++ rest) = v ++ Subquery.mask rest :=
    Subquery.mask_append_of_notMem hopen rest
  have hbefore : (Segment.join Subquery.blank A).getLast?.any isWord = false := by
    rw [Subquery.getLast?_join_blank]
    exact hbetween.before
  obtain ⟨u, hu, hbehind⟩ :=
    exists_behind_select hv hbetween.spells hbefore (hmasked.symm.trans hmask)
  have hedge : (u ++ (w ++ Segment.join Subquery.blank B)).head?.any isWord = false := by
    rw [← hbehind, Subquery.mask_eq, Subquery.head?_join_blank, Subquery.join_segments]
    exact hrest
  rw [hu] at hreads
  obtain ⟨m, p, hm, hp, hstart⟩ := find?_selectHead hv hedge hreads <| by
    -- an earlier one would lie between the segments as well
    rintro a b rfl hb w' y' hrest' hearlier
    have hmask' : Subquery.mask (v ++ rest) = v ++ a ++ (w' ++ y') := by
      rw [hmasked, hbehind, ← hrest', List.append_assoc, List.append_assoc]
    obtain ⟨A', B', hbetween', hA', -⟩ := exists_between_of_mask hmask' hearlier
    have hlength := (join_prefix_join Subquery.blank (hfirst A' w' B' hbetween')).length_le
    rw [← hA', hu, List.length_append, List.length_append, List.length_append] at hlength
    have hpos := List.length_pos_iff.mpr hb
    omega
  rw [← hbehind, ← hmasked] at hm
  refine ⟨m, p, hm, hp, ?_⟩
  rw [hstart, Cursor.offset, Text.bytes_reverse, ← hu, Subquery.bytes_join_blank]

/-- A query without a `where` of its own has no parameters. -/
theorem ownParameters_eq_nil {t : Text} (h : ∀ A w B, ¬ WhereBetween (Subquery.segments t) A w B) :
    ownParameters t = [] := by
  rw [ownParameters]
  cases hfound : (Grammar.selectHead.find? (Subquery.mask t)).bind fun m => m.part? .whereWord with
  | none => rfl
  | some p =>
    obtain ⟨m, hm, hp⟩ := Option.bind_eq_some_iff.mp hfound
    obtain ⟨A, w, B, hbetween, -⟩ := exists_between_of_find? hm hp
    exact absurd hbetween (h A w B)

/-- In a query that starts with `select`, the first `where` of the masked query is the first one of
the query's own. -/
theorem isOwnParameters_of_select {v rest : Text} (hv : (word "select".toList).Spells v)
    (hrest : rest.head?.any isWord = false) :
    IsOwnParameters (v ++ rest) (ownParameters (v ++ rest)) := by
  by_cases hany : ∃ A w B, WhereBetween (Subquery.segments (v ++ rest)) A w B
  · obtain ⟨A₀, w₀, B₀, hbetween₀⟩ := hany
    obtain ⟨A, w, B, hbetween, hfirst⟩ := hbetween₀.exists_first
    obtain ⟨m, p, hm, hp, hoffset⟩ := find?_mask hv hrest hbetween hfirst
    have hown := hbetween.isOwnWhere
    refine Or.inl ⟨_, w, _, hown, ?_, fun front' w' back' hown' => ?_⟩
    · rw [ownParameters_of_part hm hp, hoffset, hown.split, Text.dropBytes_append]
    · obtain ⟨A', B', hbetween', rfl, -⟩ := hown'.exists_between
      exact (join_prefix_join Subquery.cover (hfirst A' w' B' hbetween')).length_le
  · have hnone : ∀ A w B, ¬ WhereBetween (Subquery.segments (v ++ rest)) A w B :=
      fun A w B hbetween => hany ⟨A, w, B, hbetween⟩
    refine Or.inr ⟨fun front w back hown => ?_, ownParameters_eq_nil hnone⟩
    obtain ⟨A, B, hbetween, -⟩ := hown.exists_between
    exact hnone A w B hbetween

/-- Masking keeps the length of a query in bytes and every byte outside its outermost subqueries. If
the query starts with the whole word `select`, its parameters are the text from the first `where` on
that is a whole word outside these subqueries. And whatever the query, the place where it is cut lies
between two characters. -/
theorem ownParameters_isOwnParameters (body : Text) :
    ((Text.utf8 (Subquery.mask body)).length = (Text.utf8 body).length ∧
      ∀ k, (∀ p ∈ Segment.byteSpans Subquery.cover 0 (Subquery.segments body), k < p.1 ∨ p.2 ≤ k) →
        (Text.utf8 (Subquery.mask body))[k]? = (Text.utf8 body)[k]?) ∧
    (∀ v rest, body = v ++ rest → Text.sameAscii v "select".toList = true →
      rest.head?.any isWord = false → IsOwnParameters body (ownParameters body)) ∧
    ∀ m p, Grammar.selectHead.find? (Subquery.mask body) = some m → m.part? .whereWord = some p →
      Text.IsBoundary body p.start.offset ∧
        Text.utf8 (ownParameters body) = (Text.utf8 body).drop p.start.offset := by
  refine ⟨Subquery.utf8_mask body, ?_, fun m p hm hp => ?_⟩
  · rintro v rest rfl hv hrest
    exact isOwnParameters_of_select (spells_of_sameAscii (by decide) hv) hrest
  · have hboundary := isBoundary_of_find? hm hp
    refine ⟨hboundary, ?_⟩
    rw [ownParameters_of_part hm hp, Text.utf8_dropBytes hboundary]

/-- The first `where` is in a subquery, the second one in a word, and characters of several bytes stand
before the third. -/
theorem ownParameters_behind_subquery :
    let body := "SELECT".toList ++
      " (select 'é' from ü where a = 1) éwhere from t Where b = 2".toList
    IsOwnParameters body (ownParameters body) ∧ ownParameters body = "Where b = 2".toList := by
  intro body
  exact ⟨(ownParameters_isOwnParameters body).2.1 _ _ rfl (by decide) (by decide), by decide +kernel⟩

end MutationPreview
