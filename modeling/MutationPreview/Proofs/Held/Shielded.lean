import MutationPreview.Proofs.Held.Literals
import MutationPreview.Proofs.Text.Spans

/-!
# What stands in literals has no say in what is held

Two texts that differ in the contents of their literals only (`Rewording`) are held as the same
text with the same subqueries, as long as equal literals stay equal and different ones stay
different. Brackets, keywords and terminators between quotes are out of the way before anything
else is looked at.

The two runs go side by side: lines are joined and ends are trimmed at the same places
(`joinLines_quoted`), quotes pair at the same places (`segments_quoted`), and each literal is given
the same number, because the two ledgers hold the two contents of one list of literals
(`Ledger.SideBySide`).

Main statement: `Rewording.shielded`.
-/

namespace MutationPreview

/-! ## Texts made up of characters and literals -/

namespace Segment

variable {α β : Type}

/-- The segment with another name for its span. -/
def rename (f : α → β) : Segment α → Segment β
  | plain c => plain c
  | span a => span (f a)

/-- The segment with `g c` for a character `c` outside the spans. -/
def mapPlain (g : Char → Char) : Segment α → Segment α
  | plain c => plain (g c)
  | span a => span a

/-- Whether a segment is a character of a class. -/
def isPlain (p : Char → Bool) : Segment α → Bool
  | plain c => p c
  | span _ => false

/-- The segments without the characters of a class at either end. -/
def trim (p : Char → Bool) (segs : List (Segment α)) : List (Segment α) :=
  ((segs.dropWhile (isPlain p)).reverse.dropWhile (isPlain p)).reverse

theorem trim_subset (p : Char → Bool) (segs : List (Segment α)) : trim p segs ⊆ segs := by
  intro s hs
  have hs := List.dropWhile_subset _ (List.mem_reverse.mp hs)
  exact List.dropWhile_subset _ (List.mem_reverse.mp hs)

theorem join_map_mapPlain (g : Char → Char) (cover : α → Text) (segs : List (Segment α)) :
    (join cover segs).map g = join (fun a => (cover a).map g) (segs.map (mapPlain g)) := by
  induction segs with
  | nil => rfl
  | cons s segs ih => cases s <;> simp [mapPlain, ih]

theorem reverse_join (cover : α → Text) (segs : List (Segment α)) :
    (join cover segs).reverse = join (fun a => (cover a).reverse) segs.reverse := by
  induction segs with
  | nil => rfl
  | cons s segs ih => cases s <;> simp [join_append, ih]

section Trim

variable {p : Char → Bool}

theorem dropWhile_join {cover : α → Text}
    (hcover : ∀ a, ∃ c rest, cover a = c :: rest ∧ p c = false) (segs : List (Segment α)) :
    (join cover segs).dropWhile p = join cover (segs.dropWhile (isPlain p)) := by
  induction segs with
  | nil => rfl
  | cons s segs ih =>
    cases s with
    | plain c =>
      rw [join_plain, List.dropWhile_cons, List.dropWhile_cons, ih, isPlain]
      split <;> rfl
    | span a =>
      obtain ⟨c, rest, hca, hc⟩ := hcover a
      rw [List.dropWhile_cons_of_neg (by simp [isPlain]), join_span, hca, List.cons_append,
        List.dropWhile_cons_of_neg (by simp [hc])]

/-- Spans that neither start nor end with a character of the class stop the trimming. -/
theorem trim_join {cover : α → Text}
    (hstart : ∀ a, ∃ c rest, cover a = c :: rest ∧ p c = false)
    (hend : ∀ a, ∃ c rest, (cover a).reverse = c :: rest ∧ p c = false) (segs : List (Segment α)) :
    Text.trim p (join cover segs) = join cover (trim p segs) := by
  rw [Text.trim, dropWhile_join hstart, Text.trimEnd, reverse_join, dropWhile_join hend,
    reverse_join, trim]
  simp only [List.reverse_reverse]

end Trim

/-- The text of the segments, with a literal for each span. -/
def quoted (contents : α → Text) (parts : List (Segment α)) : Text :=
  join (fun a => inQuotes (contents a)) parts

/-- Whether the quotes in the text are those around its literals. -/
structure QuoteFree (contents : α → Text) (parts : List (Segment α)) : Prop where
  plain : plain '\'' ∉ parts
  spans : ∀ a ∈ spans parts, '\'' ∉ contents a

theorem QuoteFree.tail {contents : α → Text} {s : Segment α} {parts : List (Segment α)}
    (h : QuoteFree contents (s :: parts)) : QuoteFree contents parts := by
  refine ⟨fun hmem => h.plain (List.mem_cons_of_mem _ hmem), fun a ha => h.spans a ?_⟩
  cases s <;> simp [ha]

/-- The pattern of literals finds the literals that the text was made up of. -/
theorem segments_quoted {contents : α → Text} {parts : List (Segment α)}
    (h : QuoteFree contents parts) :
    (Grammar.literal.segments (quoted contents parts)).map textOf =
      parts.map (rename fun a => inQuotes (contents a)) := by
  have hpaired : ∃ segs, Paired (quoted contents parts) segs ∧
      segs.map textOf = parts.map (rename fun a => inQuotes (contents a)) := by
    induction parts with
    | nil => exact ⟨[], Paired.nil, rfl⟩
    | cons s parts ih =>
      obtain ⟨segs, hsegs, htexts⟩ := ih h.tail
      cases s with
      | plain c =>
        have hc : c ≠ '\'' := by
          rintro rfl
          exact h.plain (by simp)
        exact ⟨.plain c :: segs, hsegs.other hc, by simp [textOf, rename, htexts]⟩
      | span a =>
        obtain ⟨m, hm⟩ := exists_paired_inQuotes (contents a)
        exact ⟨.span m :: segs, Paired.span (h.spans a (by simp)) hm hsegs,
          by simp [textOf, rename, htexts, hm]⟩
  obtain ⟨segs, hsegs, htexts⟩ := hpaired
  rw [(paired_segments _).textOf_unique hsegs rfl, htexts]

/-- The parts of a text once its lines are joined. -/
def joinedParts (parts : List (Segment α)) : List (Segment α) :=
  trim (· == ' ') (parts.map (mapPlain joinLine))

/-- Joining the lines of a text works on its parts one by one, whatever its literals hold. -/
theorem joinLines_quoted (contents : α → Text) (parts : List (Segment α)) :
    joinLines (quoted contents parts) =
      quoted (fun a => (contents a).map joinLine) (joinedParts parts) := by
  have hmap : ∀ a, (inQuotes (contents a)).map joinLine = inQuotes ((contents a).map joinLine) := by
    intro a
    simp [inQuotes, show joinLine '\'' = '\'' from rfl]
  have hstart : ∀ u, ∃ c rest, inQuotes u = c :: rest ∧ (c == ' ') = false := by
    intro u
    exact ⟨'\'', u ++ ['\''], rfl, rfl⟩
  have hend : ∀ u, ∃ c rest, (inQuotes u).reverse = c :: rest ∧ (c == ' ') = false := by
    intro u
    exact ⟨'\'', u.reverse ++ ['\''], by simp [inQuotes], rfl⟩
  rw [joinLines_eq, quoted, join_map_mapPlain]
  simp only [hmap]
  exact trim_join (fun _ => hstart _) (fun _ => hend _) _

theorem spans_map_mapPlain (g : Char → Char) (parts : List (Segment α)) :
    spans (parts.map (mapPlain g)) = spans parts := by
  induction parts with
  | nil => rfl
  | cons s parts ih => cases s <;> simp [mapPlain, ih]

theorem spans_joinedParts_subset (parts : List (Segment α)) :
    spans (joinedParts parts) ⊆ spans parts := by
  intro a ha
  rw [← spans_map_mapPlain joinLine]
  exact mem_spans.mpr (trim_subset _ _ (mem_spans.mp ha))

theorem QuoteFree.joinedParts {contents : α → Text} {parts : List (Segment α)}
    (h : QuoteFree contents parts) :
    QuoteFree (fun a => (contents a).map joinLine) (joinedParts parts) := by
  constructor
  · intro hmem
    obtain ⟨s, hs, heq⟩ := List.mem_map.mp (trim_subset _ _ hmem)
    cases s with
    | plain c =>
      have hc : joinLine c = '\'' := by simpa [mapPlain] using heq
      rw [joinLine_eq_iff (by decide)] at hc
      exact h.plain (hc ▸ hs)
    | span a => simp [mapPlain] at heq
  · intro a ha hmem
    obtain ⟨c, hc, heq⟩ := List.mem_map.mp hmem
    rw [joinLine_eq_iff (by decide)] at heq
    exact h.spans a (spans_joinedParts_subset parts ha) (heq ▸ hc)

end Segment

/-! ## Two ledgers side by side -/

theorem TokenFormat.avoiding_eq_self {f : TokenFormat} {t : Text} (hne : f.lead ≠ [])
    (habsent : ¬ f.lead <:+: t) : f.avoiding t = f := by
  have hfresh : isFresh t f.lead = true := isFresh_iff.mpr ⟨hne, habsent⟩
  rw [avoiding, lengthen, if_pos hfresh]

namespace Ledger

variable {α : Type} {f g : α → Text}

/-- Whether two ledgers hold two readings of one list under the same tokens. -/
structure SideBySide (f g : α → Text) (items : List α) (l l' : Ledger) : Prop where
  format : l'.format = l.format
  left : l.values = items.map f
  right : l'.values = items.map g

/-- An item that is told from the items held by both readings, or by none, is given the same token
by both ledgers. -/
theorem SideBySide.hold {items : List α} {l l' : Ledger} (h : SideBySide f g items l l') {a : α}
    (hsame : ∀ b ∈ items, f b = f a ↔ g b = g a) :
    (l'.hold (g a)).2 = (l.hold (f a)).2 ∧
      ∃ items', SideBySide f g items' (l.hold (f a)).1 (l'.hold (g a)).1 ∧
        ∀ b ∈ items', b ∈ items ∨ b = a := by
  have hfind : (items.map g).findIdx? (· = g a) = (items.map f).findIdx? (· = f a) := by
    clear h
    induction items with
    | nil => rfl
    | cons b items ih =>
      have hhead : decide (g b = g a) = decide (f b = f a) :=
        decide_eq_decide.mpr (hsame b (by simp)).symm
      rw [List.map_cons, List.map_cons, List.findIdx?_cons, List.findIdx?_cons, hhead,
        ih fun c hc => hsame c (List.mem_cons_of_mem _ hc)]
  have hlength : l'.values.length = l.values.length := by
    rw [h.left, h.right, List.length_map, List.length_map]
  rw [Ledger.hold, Ledger.hold, h.left, h.right, hfind]
  cases (items.map f).findIdx? (· = f a) with
  | some i => exact ⟨by rw [h.format], items, h, fun b hb => Or.inl hb⟩
  | none =>
    refine ⟨by simp [h.format], items ++ [a], ⟨h.format, by simp, by simp⟩, ?_⟩
    intro b hb
    simpa using hb

/-- Two ledgers stay side by side while the spans of a text are held, and both write the same
tokens, if the two readings agree on which spans are equal. -/
theorem SideBySide.holdSpans {pool : List α}
    (hsame : ∀ a ∈ pool, ∀ b ∈ pool, f a = f b ↔ g a = g b) {segs : List (Segment α)}
    (hspans : Segment.spans segs ⊆ pool) {items : List α} {l l' : Ledger}
    (h : SideBySide f g items l l') (hitems : items ⊆ pool) :
    (holdSpans g l' segs).2 = (holdSpans f l segs).2 ∧
      ∃ items', SideBySide f g items' (holdSpans f l segs).1 (holdSpans g l' segs).1 := by
  induction segs generalizing items l l' with
  | nil => exact ⟨rfl, items, h⟩
  | cons s segs ih =>
    cases s with
    | plain c =>
      obtain ⟨htext, hside⟩ := ih hspans h hitems
      exact ⟨congrArg (c :: ·) htext, hside⟩
    | span a =>
      rw [Segment.spans_span, List.cons_subset] at hspans
      obtain ⟨htoken, items', hside, hmem⟩ :=
        h.hold (a := a) fun b hb => hsame b (hitems hb) a hspans.1
      have hitems' : items' ⊆ pool := by
        intro b hb
        rcases hmem b hb with hb | rfl
        · exact hitems hb
        · exact hspans.1
      obtain ⟨htext, hrest⟩ := ih hspans.2 hside hitems'
      simp only [Ledger.holdSpans]
      exact ⟨by rw [htoken, htext], hrest⟩

theorem holdSpans_textOf (l : Ledger) (segs : List (Segment Match)) :
    Ledger.holdSpans Match.text l segs = Ledger.holdSpans id l (segs.map Segment.textOf) := by
  induction segs generalizing l with
  | nil => rfl
  | cons s segs ih => cases s <;> simp [Ledger.holdSpans, Segment.textOf, ih]

theorem holdSpans_rename (l : Ledger) (segs : List (Segment α)) :
    Ledger.holdSpans id l (segs.map (Segment.rename f)) = Ledger.holdSpans f l segs := by
  induction segs generalizing l with
  | nil => rfl
  | cons s segs ih => cases s <;> simp [Ledger.holdSpans, Segment.rename, ih]

theorem SideBySide.holds_eq {items : List α} {l l' : Ledger} (h : SideBySide f g items l l')
    (token : Text) : l'.holds token = l.holds token := by
  rw [Bool.eq_iff_iff, holds_iff, holds_iff, h.format, h.left, h.right, List.length_map,
    List.length_map]

end Ledger

/-! ## Texts that differ in their literals -/

/-- Two texts that differ in the contents of their literals only: the characters around the
literals, and in the place of each literal its contents in the one text and in the other. -/
structure Rewording where
  parts : List (Segment (Text × Text))
  left : Segment.QuoteFree Prod.fst parts
  right : Segment.QuoteFree Prod.snd parts

namespace Rewording

/-- The text with the contents it had. -/
def before (w : Rewording) : Text := Segment.quoted Prod.fst w.parts

/-- The text with the contents it has now. -/
def after (w : Rewording) : Text := Segment.quoted Prod.snd w.parts

/-- Whether two literals are equal in the one text exactly when they are in the other, line breaks
and spaces being the same. -/
def KeepsEquality (w : Rewording) : Prop :=
  ∀ a ∈ Segment.spans w.parts, ∀ b ∈ Segment.spans w.parts,
    a.1.map joinLine = b.1.map joinLine ↔ a.2.map joinLine = b.2.map joinLine

instance (w : Rewording) : Decidable w.KeepsEquality :=
  inferInstanceAs (Decidable (∀ a ∈ Segment.spans w.parts, ∀ b ∈ Segment.spans w.parts,
    a.1.map joinLine = b.1.map joinLine ↔ a.2.map joinLine = b.2.map joinLine))

variable {w : Rewording}

/-- The literals of both texts are held side by side. -/
theorem holdSpans_literals (hequal : w.KeepsEquality) (format : TokenFormat) :
    let l := Ledger.holdSpans Match.text ⟨format, []⟩ (Grammar.literal.segments (joinLines w.before))
    let l' := Ledger.holdSpans Match.text ⟨format, []⟩ (Grammar.literal.segments (joinLines w.after))
    l'.2 = l.2 ∧ ∃ items : List (Text × Text), Ledger.SideBySide
      (fun a => inQuotes (a.1.map joinLine)) (fun a => inQuotes (a.2.map joinLine)) items l.1 l'.1 := by
  have hinj : ∀ {u v : Text}, inQuotes u = inQuotes v ↔ u = v := by
    intro u v
    simp [inQuotes]
  simp only [before, after, Segment.joinLines_quoted, Ledger.holdSpans_textOf,
    Segment.segments_quoted w.left.joinedParts, Segment.segments_quoted w.right.joinedParts,
    Ledger.holdSpans_rename]
  have hsame : ∀ a ∈ Segment.spans w.parts, ∀ b ∈ Segment.spans w.parts,
      inQuotes (a.1.map joinLine) = inQuotes (b.1.map joinLine) ↔
        inQuotes (a.2.map joinLine) = inQuotes (b.2.map joinLine) := by
    intro a ha b hb
    rw [hinj, hinj]
    exact hequal a ha b hb
  have hempty : Ledger.SideBySide (fun a : Text × Text => inQuotes (a.1.map joinLine))
      (fun a => inQuotes (a.2.map joinLine)) [] ⟨format, []⟩ ⟨format, []⟩ := ⟨rfl, rfl, rfl⟩
  exact hempty.holdSpans hsame (Segment.spans_joinedParts_subset _) (List.nil_subset _)

/-- Two texts that differ in the contents of their literals only are held alike, up to what the
literals hold. -/
theorem sameButLiterals (hequal : w.KeepsEquality) {literalFormat : TokenFormat}
    (hne : literalFormat.lead ≠ []) (hbefore : ¬ literalFormat.lead <:+: joinLines w.before)
    (hafter : ¬ literalFormat.lead <:+: joinLines w.after) (subqueryFormat : TokenFormat) :
    (Held.ofText literalFormat subqueryFormat w.before).SameButLiterals
      (Held.ofText literalFormat subqueryFormat w.after) := by
  obtain ⟨htext, items, hside⟩ := holdSpans_literals hequal literalFormat
  constructor
  · simp only [Held.ofText, TokenFormat.avoiding_eq_self hne hbefore,
      TokenFormat.avoiding_eq_self hne hafter, htext]
  · simp only [Held.ofText, TokenFormat.avoiding_eq_self hne hbefore,
      TokenFormat.avoiding_eq_self hne hafter, htext]
  · simp only [Held.ofText, TokenFormat.avoiding_eq_self hne hbefore,
      TokenFormat.avoiding_eq_self hne hafter]
    exact hside.holds_eq

end Rewording

/-- Checking the head of a mutation reads the text and the subqueries, not the literals. -/
theorem Mutation.head_of_sameButLiterals {h h' : Held} (hsame : h.SameButLiterals h')
    (budget : Budget) (m : Mutation) : m.head budget h' = m.head budget h := by
  cases m with
  | update => simp only [head, updateHead, hsame.text]
  | delete => simp only [head, deleteHead, hsame.text]
  | merge =>
    have hsource : mergeSource? h' = mergeSource? h := by
      simp only [mergeSource?, Held.subquery?, hsame.text, hsame.subqueries]
    simp only [head, mergeHead, hsame.text, hsource]

/-- Texts that differ in the contents of their literals only are held as one text with one table of
subqueries, and every mutation finds the same head and the same parameters in them. -/
theorem Rewording.shielded (w : Rewording) (hequal : w.KeepsEquality)
    (hbefore : ¬ Profile.standard.literalFormat.lead <:+: joinLines w.before)
    (hafter : ¬ Profile.standard.literalFormat.lead <:+: joinLines w.after) :
    (Held.standard w.after).text = (Held.standard w.before).text ∧
      (Held.standard w.after).subqueries = (Held.standard w.before).subqueries ∧
      ∀ (budget : Budget) (m : Mutation),
        m.head budget (Held.standard w.after) = m.head budget (Held.standard w.before) := by
  have hsame := sameButLiterals hequal (by decide) hbefore hafter Profile.standard.subqueryFormat
  exact ⟨hsame.text, hsame.subqueries, Mutation.head_of_sameButLiterals hsame⟩

/-- An update with two literals, which hold letters in the one text, and a subquery, a bracket and a
terminator in the other. -/
def Rewording.bracketed : Rewording where
  parts := "update s.t set a = ".toList.map .plain ++
    .span ("x".toList, "(select 1 from u)".toList) ::
      (" where b = ".toList.map .plain ++ [.span ("y".toList, "); where".toList), .plain ';'])
  left := ⟨by simp, by simp⟩
  right := ⟨by simp, by simp⟩

theorem Rewording.shielded_bracketed :
    bracketed.before = "update s.t set a = 'x' where b = 'y';".toList ∧
      bracketed.after = "update s.t set a = '(select 1 from u)' where b = '); where';".toList ∧
      (Held.standard bracketed.after).text = (Held.standard bracketed.before).text ∧
      (Held.standard bracketed.after).subqueries = (Held.standard bracketed.before).subqueries ∧
      ∀ (budget : Budget) (m : Mutation), m.head budget (Held.standard bracketed.after) =
        m.head budget (Held.standard bracketed.before) := by
  refine ⟨by decide, by decide, bracketed.shielded (by decide) ?_ ?_⟩
  · rw [← Text.occursIn_iff]
    decide
  · rw [← Text.occursIn_iff]
    decide

end MutationPreview
