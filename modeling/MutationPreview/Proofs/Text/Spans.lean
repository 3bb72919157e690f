import MutationPreview.Proofs.Batch.Single

/-!
# Quoted spans

The quoted spans of a text are its literals from left to right (`quotedSpans`). Quotes pair in one
way (`Paired.textOf_unique`), so the spans can be read off any pairing of the text, and from two texts
in a row they are those of the first and then those of the second, if the first closes all its quotes
(`quotedSpans_append`). `mapLiterals` writes something else in place of every span.
-/

namespace MutationPreview

/-- The quoted spans of a text, from left to right. -/
def quotedSpans (t : Text) : List Text := (Grammar.literal.findAll t).map Match.text

/-- The text with `f v` in place of every quoted span `v`. -/
def mapLiterals (f : Text → Text) (t : Text) : Text :=
  Grammar.literal.replaceAll (fun m => f m.text) t

/-! ## Spans of a pairing -/

theorem Paired.quotedSpans_eq {t : Text} {segs : List (Segment Match)} (h : Paired t segs) :
    quotedSpans t = (Segment.spans segs).map Match.text := by
  rw [quotedSpans, Pattern.findAll, ← Segment.spans_textOf, ← Segment.spans_textOf,
    (paired_segments t).textOf_unique h rfl]

theorem Paired.mapLiterals_eq {t : Text} {segs : List (Segment Match)} (h : Paired t segs)
    (f : Text → Text) : mapLiterals f t = Segment.join (fun m => f m.text) segs := by
  rw [mapLiterals, Pattern.replaceAll, ← Segment.join_textOf, ← Segment.join_textOf,
    (paired_segments t).textOf_unique h rfl]

/-! ## Spans of longer texts -/

/-- A quoted span at the start of a text. -/
theorem exists_paired_inQuotes (content : Text) :
    ∃ m : Match, m.text = inQuotes content :=
  ⟨⟨⟨[], inQuotes content⟩, ⟨[], []⟩, []⟩, by simp [Match.text, Cursor.upTo]⟩

@[simp] theorem quotedSpans_nil : quotedSpans [] = [] := Paired.nil.quotedSpans_eq

theorem quotedSpans_cons {c : Char} (hc : c ≠ '\'') (t : Text) :
    quotedSpans (c :: t) = quotedSpans t :=
  ((paired_segments t).other hc).quotedSpans_eq

theorem quotedSpans_inQuotes_append {content : Text} (h : '\'' ∉ content) (t : Text) :
    quotedSpans (inQuotes content ++ t) = inQuotes content :: quotedSpans t := by
  obtain ⟨m, hm⟩ := exists_paired_inQuotes content
  rw [(Paired.span h hm (paired_segments t)).quotedSpans_eq, Segment.spans_span, List.map_cons, hm]
  rfl

/-- Behind a text whose quotes are all closed, spans are told as if it were not there. -/
theorem quotedSpans_append {a : Text} (h : a.count '\'' % 2 = 0) (b : Text) :
    quotedSpans (a ++ b) = quotedSpans a ++ quotedSpans b := by
  have hpaired := paired_segments a
  generalize Grammar.literal.segments a = segs at hpaired
  induction hpaired with
  | nil => rfl
  | other hc _ ih =>
    rw [List.count_cons_of_ne hc] at h
    rw [List.cons_append, quotedSpans_cons hc, quotedSpans_cons hc, ih h]
  | unclosed hnone _ _ => simp [List.count_eq_zero.mpr hnone] at h
  | @span content rest m segs hcontent _ _ ih =>
    rw [List.count_append, count_inQuotes hcontent] at h
    rw [List.append_assoc, quotedSpans_inQuotes_append hcontent,
      quotedSpans_inQuotes_append hcontent, ih (by omega), List.cons_append]

theorem quotedSpans_of_notMem {t : Text} (h : '\'' ∉ t) : quotedSpans t = [] := by
  rw [(paired_segments t).quotedSpans_eq, (paired_segments t).eq_map_plain h,
    Segment.spans_map_plain, List.map_nil]

theorem quotedSpans_append_of_notMem {u : Text} (h : '\'' ∉ u) (t : Text) :
    quotedSpans (u ++ t) = quotedSpans t := by
  rw [quotedSpans_append (by simp [List.count_eq_zero.mpr h]), quotedSpans_of_notMem h,
    List.nil_append]

/-- Turning line breaks into spaces does so in the spans. -/
theorem quotedSpans_map_joinLine (t : Text) :
    quotedSpans (t.map joinLine) = (quotedSpans t).map fun span => span.map joinLine := by
  have hquote : ∀ {u : Text}, '\'' ∉ u → '\'' ∉ u.map joinLine := by
    intro u hu hmem
    obtain ⟨c, hc, hjoin⟩ := List.mem_map.mp hmem
    rw [joinLine_eq_iff (by decide)] at hjoin
    exact hu (hjoin ▸ hc)
  have hpaired := paired_segments t
  generalize Grammar.literal.segments t = segs at hpaired
  induction hpaired with
  | nil => rfl
  | @other c rest segs hc _ ih =>
    have hjoin : joinLine c ≠ '\'' := fun h => hc ((joinLine_eq_iff (by decide)).mp h)
    rw [List.map_cons, quotedSpans_cons hjoin, quotedSpans_cons hc, ih]
  | unclosed hnone _ ih =>
    have hcons : ∀ {u : Text}, '\'' ∉ u → quotedSpans ('\'' :: u) = [] := fun hu => by
      rw [((paired_segments _).unclosed hu).quotedSpans_eq, (paired_segments _).eq_map_plain hu]
      simp
    rw [List.map_cons, show joinLine '\'' = '\'' from rfl, hcons (hquote hnone), hcons hnone]
    rfl
  | @span content rest m segs hcontent _ _ ih =>
    have hmap : (inQuotes content ++ rest).map joinLine =
        inQuotes (content.map joinLine) ++ rest.map joinLine := by
      simp [inQuotes, show joinLine '\'' = '\'' from rfl]
    rw [hmap, quotedSpans_inQuotes_append (hquote hcontent),
      quotedSpans_inQuotes_append hcontent, ih, List.map_cons]
    simp [inQuotes, show joinLine '\'' = '\'' from rfl]

/-! ## Other texts in place of the spans -/

@[simp] theorem mapLiterals_nil (f : Text → Text) : mapLiterals f [] = [] :=
  Paired.nil.mapLiterals_eq f

theorem mapLiterals_cons (f : Text → Text) {c : Char} (hc : c ≠ '\'') (t : Text) :
    mapLiterals f (c :: t) = c :: mapLiterals f t :=
  ((paired_segments t).other hc).mapLiterals_eq f

theorem mapLiterals_append_of_notMem (f : Text → Text) {u : Text} (h : '\'' ∉ u) (t : Text) :
    mapLiterals f (u ++ t) = u ++ mapLiterals f t := by
  induction u with
  | nil => rfl
  | cons c u ih =>
    rw [List.mem_cons, not_or] at h
    rw [List.cons_append, mapLiterals_cons f (Ne.symm h.1), ih h.2, List.cons_append]

theorem mapLiterals_inQuotes_append (f : Text → Text) {content : Text} (h : '\'' ∉ content)
    (t : Text) : mapLiterals f (inQuotes content ++ t) = f (inQuotes content) ++ mapLiterals f t := by
  obtain ⟨m, hm⟩ := exists_paired_inQuotes content
  rw [(Paired.span h hm (paired_segments t)).mapLiterals_eq, Segment.join_span, hm]
  rfl

end MutationPreview
