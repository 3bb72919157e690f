import MutationPreview.Proofs.Clause.Accepted
import MutationPreview.Proofs.Clause.Plain
import MutationPreview.Proofs.Clause.Words
import MutationPreview.Proofs.Predicate.Shape

/-!
# Where a plain clause is divided

Written with words for values, a plain clause is cut into its comparisons by the patterns that look
for key words between gaps (`Divides.past_comparison`). So laying it out puts each connective on a
line of its own (`PlainClause.join_lineOf`), and checking it meets its comparisons one by one
(`PlainClause.mem_gaps_of_more`) and accepts them (`PlainClause.clauseFaults_eq_nil`).
-/

namespace MutationPreview

open Pattern

/-! ## Patterns that look for key words between gaps -/

/-- A pattern that reads key words with gaps around them; if `first`, also one at the start of the
text without a gap before it. -/
structure Divides (p : Pattern) (gap : Char → Bool) (key : Pattern) (first : Bool) : Prop where
  space : gap ' ' = true
  blank : ∀ c, gap c = true → isBlank c = true
  reserved : ∀ k, key.Spells k → ∃ t ∈ reservedWords, (word t).Spells k
  stretch : ∀ before u after, p.Reads before u after → ∃ g k g', u = g ++ (k ++ g') ∧
    (∀ c ∈ g, gap c = true) ∧ (g = [] → before = [] ∧ first = true) ∧ key.Spells k ∧ g' ≠ [] ∧
    ∀ c ∈ g', gap c = true
  reads : ∀ before k after c d, key.Spells k → gap c = true → gap d = true →
    p.Reads before (c :: (k ++ [d])) after

/-- A choice of reserved words reads reserved words. -/
theorem exists_reserved (ts : List Text) (hts : ∀ t ∈ ts, t ∈ reservedWords) {k : Text}
    (h : (firstOf (ts.map word)).Spells k) : ∃ t ∈ reservedWords, (word t).Spells k := by
  obtain ⟨p, hp, hspells⟩ := reads_firstOf.mp h
  obtain ⟨t, ht, rfl⟩ := List.mem_map.mp hp
  exact ⟨t, hts t ht, hspells⟩

/-- Lines start at words of the layout. -/
theorem divides_lineStart : Divides Grammar.lineStart Grammar.isGap lineWord false where
  space := rfl
  blank _ hc := isBlank_of_isGap hc
  reserved _ hk :=
    exists_reserved (["from", "join", "and", "where", "or"].map String.toList) (by decide) hk
  stretch before u after h := by
    obtain ⟨g, k, g', rfl, hg, hk, hg'⟩ := reads_lineStart_iff.mp h
    exact ⟨g, k, g', rfl, hg.2, fun hnil => absurd hnil hg.1, hk, hg'⟩
  reads before k after c d hk hc hd :=
    reads_lineStart_iff.mpr ⟨[c], k, [d], rfl, ⟨by simp, by simpa using hc⟩, hk,
      ⟨by simp, by simpa using hd⟩⟩

/-- Predicates are divided at connectives. -/
theorem divides_boundary : Divides Grammar.boundary isBlank connective true where
  space := by decide
  blank _ hc := hc
  reserved _ hk :=
    exists_reserved (["where", "and", "or"].map String.toList) (by decide) hk
  stretch before u after h := by
    obtain ⟨e, k, b, rfl, he, hk, hb⟩ := reads_boundary_iff.mp h
    refine ⟨e, k, [b], by simp, ?_, ?_, hk, by simp, by simpa using hb⟩
    · rcases he with ⟨-, rfl⟩ | ⟨d, hd, rfl⟩
      · simp
      · simpa using hd
    · rcases he with ⟨hbefore, -⟩ | ⟨d, -, rfl⟩
      · exact fun _ => ⟨hbefore, rfl⟩
      · simp
  reads before k after c d hk hc hd :=
    reads_boundary_iff.mpr ⟨[c], k, d, by simp, Or.inr ⟨c, hc, rfl⟩, hk, hd⟩

namespace Divides

variable {p key : Pattern} {gap : Char → Bool} {first : Bool} {before w y k : Text} {c : Char}
  {segs : List (Segment Match)}

theorem edge (h : Divides p gap key first) (hc : gap c = true) : isWord c = false :=
  isWord_of_isBlank (h.blank c hc)

theorem not_gap_of_isWord (h : Divides p gap key first) (hc : isWord c = true) : gap c = false := by
  rw [Bool.eq_false_iff]
  intro hgap
  rw [h.edge hgap] at hc
  cases hc

theorem letters (h : Divides p gap key first) (hk : key.Spells k) :
    k ≠ [] ∧ ∀ c ∈ k, isWord c = true := by
  have hletters : ∀ t ∈ reservedWords, t ≠ [] ∧ ∀ x ∈ t, isWordLetter x = true := by decide
  obtain ⟨t, ht, hspells⟩ := h.reserved k hk
  exact isWord_of_spells_word (hletters t ht) hspells

theorem not_spells (h : Divides p gap key first) (hw : IsPlainWord w) : ¬ key.Spells w := by
  intro hk
  obtain ⟨t, ht, hspells⟩ := h.reserved w hk
  exact hw.free t ht hspells

theorem matchAt?_of_not_gap (h : Divides p gap key first) (hc : gap c = false)
    (hbefore : before = [] → first = false) (rest : Text) :
    p.matchAt? ⟨before, c :: rest⟩ = none := by
  rw [matchAt?_eq_none_iff]
  intro u rest' hsplit hreads
  obtain ⟨g, k, g', rfl, hg, hnil, -⟩ := h.stretch _ _ _ hreads
  cases g with
  | nil =>
    obtain ⟨hstart, hfirst⟩ := hnil rfl
    rw [hbefore hstart] at hfirst
    cases hfirst
  | cons d g =>
    obtain ⟨rfl, -⟩ := List.cons.inj hsplit
    rw [hg c (by simp)] at hc
    cases hc

/-- A key word does not start with a gap. -/
theorem head?_key (h : Divides p gap key first) (hk : key.Spells k) (rest : Text) :
    (k ++ rest).head?.any gap = false := by
  obtain ⟨hne, hword⟩ := h.letters hk
  obtain ⟨d, k, rfl⟩ := List.exists_cons_of_ne_nil hne
  exact h.not_gap_of_isWord (hword d (by simp))

/-- What is read at a single gap before a word is that gap and that word, with gaps behind it. -/
theorem stretch_eq (h : Divides p gap key first) {u rest : Text} (hc : gap c = true)
    (hstart : (w ++ y).head?.any gap = false) (hw : ∀ d ∈ w, isWord d = true)
    (hy : y.head?.any isWord = false) (hsplit : c :: (w ++ y) = u ++ rest)
    (hreads : p.Reads before u rest) :
    key.Spells w ∧ ∃ e g, u = c :: (w ++ e :: g) ∧ y = e :: (g ++ rest) ∧
      ∀ d ∈ e :: g, gap d = true := by
  obtain ⟨g, k, g', rfl, hg, -, hk, hne, hg'⟩ := h.stretch _ _ _ hreads
  obtain ⟨e, g', rfl⟩ := List.exists_cons_of_ne_nil hne
  have hedge := h.edge (hg' e (by simp))
  rw [List.append_assoc, List.append_assoc] at hsplit
  obtain ⟨rfl, hrest⟩ := Text.run_unique (a := [c]) (by simpa using hc) hg hstart
    (h.head?_key hk _) hsplit
  obtain ⟨rfl, rfl⟩ := Text.run_unique hw (h.letters hk).2 hy (by simpa using hedge) hrest
  exact ⟨hk, e, g', rfl, rfl, hg'⟩

/-- Nothing is read at a gap before a word that is no key word. -/
theorem matchAt?_of_word (h : Divides p gap key first) (hc : gap c = true)
    (hstart : (w ++ y).head?.any gap = false) (hw : ∀ d ∈ w, isWord d = true)
    (hy : y.head?.any isWord = false) (hkey : ¬ key.Spells w) :
    p.matchAt? ⟨before, c :: (w ++ y)⟩ = none := by
  rw [matchAt?_eq_none_iff]
  intro u rest hsplit hreads
  exact hkey (h.stretch_eq hc hstart hw hy hsplit hreads).1

/-- A stretch without gaps is passed. -/
theorem past_solid (h : Divides p gap key first) (hsegs : p.Segmented before (w ++ y) segs)
    (hw : ∀ d ∈ w, gap d = false) (hbefore : before = [] → first = false) :
    ∃ more, segs = w.map .plain ++ more ∧ p.Segmented (w.reverse ++ before) y more := by
  refine hsegs.past_plain fun a d b hsplit => h.matchAt?_of_not_gap (hw d (by simp [hsplit])) ?_ _
  intro hnil
  exact hbefore (List.append_eq_nil_iff.mp hnil).2

/-- A gap before a word that is no key word is passed. -/
theorem past_gap (h : Divides p gap key first)
    (hsegs : p.Segmented before (c :: (w ++ y)) segs) (hc : gap c = true)
    (hstart : (w ++ y).head?.any gap = false) (hw : ∀ d ∈ w, isWord d = true)
    (hy : y.head?.any isWord = false) (hkey : ¬ key.Spells w) :
    ∃ more, segs = .plain c :: more ∧ p.Segmented (c :: before) (w ++ y) more := by
  exact hsegs.past_char (h.matchAt?_of_word hc hstart hw hy hkey)

/-- A key word with single gaps around it is passed as a whole. -/
theorem past_key (h : Divides p gap key first) {d : Char}
    (hsegs : p.Segmented before (c :: (k ++ d :: y)) segs) (hk : key.Spells k) (hc : gap c = true)
    (hd : gap d = true) (hy : y.head?.any gap = false) :
    ∃ m more, segs = .span m :: more ∧ m.text = c :: (k ++ [d]) ∧
      p.matchAt? ⟨before, c :: (k ++ d :: y)⟩ = some m ∧
      p.Segmented ((c :: (k ++ [d])).reverse ++ before) y more := by
  have htext : c :: (k ++ d :: y) = c :: (k ++ [d]) ++ y := by simp
  rw [htext] at hsegs ⊢
  refine hsegs.past_match (h.reads before k y c d hk hc hd) fun v rest hsplit hreads => ?_
  rw [← htext] at hsplit
  obtain ⟨-, e, g, rfl, hrest, hg⟩ := h.stretch_eq hc (h.head?_key hk _) (h.letters hk).2
    (by simpa using h.edge hd) hsplit hreads
  obtain ⟨rfl, rfl⟩ := List.cons.inj hrest
  -- a second gap would stand at the start of what follows
  cases g with
  | nil => rfl
  | cons f g => simp [hg f (by simp)] at hy

/-- A comparison is passed. -/
theorem past_comparison (h : Divides p gap key first) {q : Comparison} {write : Value → Text}
    (hvalue : IsPlainWord (write q.value)) (hsegs : p.Segmented before (q.text write ++ y) segs)
    (hbefore : before = [] → first = false) (hy : y.head?.any isWord = false) :
    ∃ more, segs = (q.text write).map .plain ++ more ∧
      p.Segmented ((q.text write).reverse ++ before) y more := by
  have hsolid : ∀ {w : Text}, IsPlainWord w → ∀ d ∈ w, gap d = false := fun hw d hd =>
    h.not_gap_of_isWord (hw.isWord d hd)
  have hoperator : ∀ d ∈ q.operator.text, gap d = false := by
    intro d hd
    rw [Bool.eq_false_iff]
    intro hgap
    have hblank := (q.operator.separates d hd).2
    rw [h.blank d hgap] at hblank
    cases hblank
  have hhead : ∀ z, (q.operator.text ++ z).head?.any gap = false ∧
      (q.operator.text ++ z).head?.any isWord = false := by
    intro z
    obtain ⟨d, rest, hd⟩ := List.exists_cons_of_ne_nil q.operator.text_ne_nil
    rw [hd]
    exact ⟨hoperator d (by simp [hd]), (q.operator.separates d (by simp [hd])).1⟩
  have hvalueHead : ∀ z, (write q.value ++ z).head?.any gap = false := by
    intro z
    obtain ⟨d, rest, hd⟩ := List.exists_cons_of_ne_nil hvalue.ne_nil
    rw [hd]
    exact hsolid hvalue d (by simp [hd])
  have htext : q.text write ++ y =
      q.column.text ++ ' ' :: (q.operator.text ++ ' ' :: (write q.value ++ y)) := by
    simp [Comparison.text]
  rw [htext] at hsegs
  -- column, gap, operator, gap and value, one behind the other
  obtain ⟨_, rfl, hfirst⟩ := h.past_solid hsegs (hsolid q.column.isPlainWord) hbefore
  obtain ⟨_, rfl, hoperators⟩ := h.past_gap (w := []) hfirst h.space (hhead _).1 (by simp)
    (hhead _).2 (fun hk => (h.letters hk).1 rfl)
  obtain ⟨_, rfl, hsecond⟩ := h.past_solid (w := q.operator.text) hoperators hoperator (by simp)
  obtain ⟨_, rfl, hvalues⟩ := h.past_gap hsecond h.space (hvalueHead y) hvalue.isWord hy
    (h.not_spells hvalue)
  obtain ⟨more, rfl, hmore⟩ := h.past_solid hvalues (hsolid hvalue) (by simp)
  exact ⟨more, by simp [Comparison.text], by simpa [Comparison.text] using hmore⟩

end Divides

/-! ## The clause as a whole -/

theorem Connective.spells (k : Connective) : lineWord.Spells k.text ∧ connective.Spells k.text := by
  cases k <;> exact ⟨spells_of_readings (by decide), spells_of_readings (by decide)⟩

/-- What is written for a word with single gaps around it. -/
theorem lineOf_eq {before after k : Text} {m : Match} {c d : Char}
    (h : Grammar.lineStart.matchAt? ⟨before, after⟩ = some m) (htext : m.text = c :: (k ++ [d]))
    (hk : lineWord.Spells k) (hc : Grammar.isGap c = true) (hd : Grammar.isGap d = true) :
    lineOf m = '\n' :: (k ++ [' ']) := by
  obtain ⟨g, k', g', hsplit, hg, hk', hg', hline⟩ := exists_of_lineStart h
  have hdivides := divides_lineStart
  rw [htext] at hsplit
  obtain ⟨-, hrest⟩ := Text.run_unique (a := [c]) (by simpa using hc) hg.2
    (hdivides.head?_key hk [d]) (hdivides.head?_key hk' g') hsplit
  obtain ⟨e, g', rfl⟩ := List.exists_cons_of_ne_nil hg'.1
  obtain ⟨rfl, -⟩ := Text.run_unique (hdivides.letters hk).2 (hdivides.letters hk').2
    (by simpa using hdivides.edge hd) (by simpa using hdivides.edge (hg'.2 e (by simp))) hrest
  exact hline

namespace PlainClause

variable {write : Value → Text} {more : List (Connective × Comparison)} {c : PlainClause}
  {before : Text} {segs : List (Segment Match)}

/-- Laying out a clause puts a line feed before each connective. -/
theorem join_lineOf_more (hwrite : ∀ v, IsPlainWord (write v))
    (h : Grammar.lineStart.Segmented before (textOfMore ' ' write more ++ [';']) segs) :
    Segment.join lineOf segs = textOfMore '\n' write more ++ [';'] := by
  have hdivides := divides_lineStart
  induction more generalizing before segs with
  | nil =>
    obtain ⟨_, rfl, hend⟩ := hdivides.past_solid (w := [';']) (y := []) h (by decide) (by simp)
    rw [hend.eq_nil]
    rfl
  | cons entry more ih =>
    obtain ⟨k, q⟩ := entry
    have htext : textOfMore ' ' write ((k, q) :: more) ++ [';'] =
        ' ' :: (k.text ++ ' ' :: (q.text write ++ (textOfMore ' ' write more ++ [';']))) := by
      simp [textOfMore]
    rw [htext] at h
    obtain ⟨m, _, rfl, hm, hmatch, hfirst⟩ := hdivides.past_key h k.spells.1 rfl rfl
      (head?_comparison q (fun c hc => hdivides.not_gap_of_isWord hc) _ _)
    obtain ⟨_, rfl, hrest⟩ := hdivides.past_comparison (hwrite q.value) hfirst (by simp)
      (head?_textOfMore more write)
    have hline := lineOf_eq hmatch hm k.spells.1 rfl rfl
    simp [ih hrest, hline, textOfMore, Segment.join_append]

/-- Laying out a clause puts a line feed before each connective. -/
theorem join_lineOf (hwrite : ∀ v, IsPlainWord (write v))
    (h : Grammar.lineStart.Segmented before (c.text ' ' write ++ [';']) segs) :
    Segment.join lineOf segs = c.text '\n' write ++ [';'] := by
  rw [text, List.append_assoc] at h
  obtain ⟨_, rfl, hmore⟩ := divides_lineStart.past_comparison (hwrite c.first.value) h (by simp)
    (head?_textOfMore c.more write)
  simp [join_lineOf_more hwrite hmore, text, Segment.join_append]

/-- What a boundary leaves of a clause are its comparisons, the last one with the terminator. -/
theorem mem_gaps_of_more {q : Comparison} (hwrite : ∀ v, IsPlainWord (write v))
    (h : Grammar.boundary.Segmented before
      (q.text write ++ (textOfMore ' ' write more ++ [';'])) segs) (hbefore : before ≠ []) :
    ∀ g ∈ Segment.gaps segs, ∃ p ∈ q :: more.map Prod.snd,
      g = p.text write ∨ g = p.text write ++ [';'] := by
  have hdivides := divides_boundary
  induction more generalizing q before segs with
  | nil =>
    obtain ⟨_, rfl, hrest⟩ := hdivides.past_comparison (hwrite q.value) h
      (fun hnil => absurd hnil hbefore) (head?_textOfMore [] write)
    obtain ⟨_, rfl, hend⟩ := hdivides.past_solid (w := [';']) (y := []) hrest (by decide)
      (by simp [Comparison.text])
    rw [hend.eq_nil]
    simp [Segment.gaps_eq, Segment.firstGap, Segment.laterGaps]
  | cons entry more ih =>
    obtain ⟨k, p⟩ := entry
    obtain ⟨_, rfl, hrest⟩ := hdivides.past_comparison (hwrite q.value) h
      (fun hnil => absurd hnil hbefore) (head?_textOfMore _ write)
    have htext : textOfMore ' ' write ((k, p) :: more) ++ [';'] =
        ' ' :: (k.text ++ ' ' :: (p.text write ++ (textOfMore ' ' write more ++ [';']))) := by
      simp [textOfMore]
    rw [htext] at hrest
    obtain ⟨m, _, rfl, -, -, hnext⟩ := hdivides.past_key hrest k.spells.2 hdivides.space
      hdivides.space (head?_comparison p (fun c hc => hdivides.not_gap_of_isWord hc) _ _)
    have hgaps := ih hnext (by simp)
    rw [Segment.gaps_eq] at hgaps ⊢
    simp only [Segment.firstGap_map_plain_append, Segment.laterGaps_map_plain_append,
      Segment.firstGap, Segment.laterGaps, List.append_nil]
    intro g hg
    rcases List.mem_cons.mp hg with rfl | hg
    · exact ⟨q, by simp, Or.inl rfl⟩
    · obtain ⟨p', hp', hg⟩ := hgaps g hg
      exact ⟨p', by simpa using Or.inr hp', hg⟩

end PlainClause

/-- A clause with one `where` has no `where` too many. -/
theorem surplusWheres_eq_nil {t : Text} (ht : t.head?.any isWord = false)
    (h : EachWord (fun w => ¬ (word "where".toList).Spells w) t) :
    surplusWheres ("where".toList ++ t) = [] := by
  have hwhere : (word "where".toList).Spells "where".toList := spells_of_readings (by decide)
  have hsegs := segmented_segments (p := Grammar.whereKeyword) (by decide) ("where".toList ++ t)
  obtain ⟨m, more, hspans, -, -, hrest⟩ := hsegs.past_match
    ((reads_wholeWord_iff where_letters).mpr ⟨hwhere, rfl, ht⟩) fun v rest hsplit hreads => by
      obtain ⟨hspells, -⟩ := (reads_wholeWord_iff where_letters).mp hreads
      have hlength := (reads_word_iff.mp hspells).length_eq
      exact (List.append_inj hsplit hlength).1.symm
  have hnil := h.spans_eq_nil where_letters hrest
  rw [surplusWheres, findAll, hspans, Segment.spans_span, hnil]
  rfl

/-! ## The clause is accepted -/

theorem Text.trim_append {p : Char → Bool} {t back : Text} (hhead : t.head?.any p = false)
    (hlast : t.getLast?.any p = false) (hne : t ≠ []) (hback : ∀ c ∈ back, p c = true) :
    Text.trim p (t ++ back) = t := by
  have hdrop : ∀ {u : Text}, u.head?.any p = false → u.dropWhile p = u := by
    intro u hu
    cases u with
    | nil => rfl
    | cons c u => exact List.dropWhile_cons_of_neg (by simpa using hu)
  have hfront : (t ++ back).head?.any p = false := by
    rw [List.head?_append_of_ne_nil t hne]
    exact hhead
  rw [Text.trim, hdrop hfront, Text.trimEnd, List.reverse_append,
    List.dropWhile_append_of_pos (by simpa using hback),
    hdrop (by simpa using hlast), List.reverse_reverse]

/-- A value shows something. -/
theorem Value.exists_mem_text (v : Value) : ∃ c ∈ v.text, isBlank c = false := by
  cases v with
  | number digits h =>
    obtain ⟨c, rest, rfl⟩ := List.exists_cons_of_ne_nil h.1
    have hc := h.2 c (by simp)
    exact ⟨c, by simp [text],
      isBlank_of_isWord (isWord_of_isNameChar (by simp [isNameChar, Char.isAlphanum, hc]))⟩
  | literal content h => exact ⟨'\'', by simp [text, inQuotes], by decide⟩

namespace Comparison

theorem accepts (q : Comparison) :
    PredicateForm.comparison.accepts (q.text Value.text) = true := by
  obtain ⟨a, c, b, hop, hsign⟩ : ∃ a c b, q.operator.text = a ++ c :: b ∧
      PredicateForm.isSign c = true := by
    cases q.operator with
    | eq | lt | gt | le | ge => exact ⟨[], _, _, rfl, rfl⟩
    | ne => exact ⟨['!'], _, _, rfl, rfl⟩
  obtain ⟨d, hd, hblank⟩ := q.value.exists_mem_text
  refine PredicateForm.accepts_comparison_iff.mpr ⟨q.column.text ++ ' ' :: a, c,
    b ++ ' ' :: q.value.text, ?_, by simp, hsign, d, by simp [hd], hblank⟩
  simp [text, hop]

/-- A comparison has no edge characters at its ends. -/
theorem trim_text (q : Comparison) {write : Value → Text} (hvalue : IsPlainWord (write q.value))
    {back : Text} (hback : ∀ c ∈ back, isClauseEdge c = true) :
    Text.trim isClauseEdge (q.text write ++ back) = q.text write := by
  have hedge : ∀ c, isWord c = true → isClauseEdge c = false := by
    intro c hc
    rw [Bool.eq_false_iff]
    intro hend
    rw [isClauseEdge, Bool.or_eq_true, beq_iff_eq, beq_iff_eq] at hend
    rcases hend with rfl | rfl <;> exact absurd hc (by decide)
  refine Text.trim_append ?_ ?_ (by simp [text]) hback
  · have hhead := PlainClause.head?_comparison q hedge write []
    rwa [List.append_nil] at hhead
  · have hlast := List.getLast?_eq_some_getLast hvalue.ne_nil
    have hword := hvalue.isWord _ (List.getLast_mem hvalue.ne_nil)
    have htext : q.text write =
        q.column.text ++ ' ' :: (q.operator.text ++ [' ']) ++ write q.value := by simp [text]
    rw [htext, List.getLast?_append_of_ne_nil _ hvalue.ne_nil, hlast]
    exact hedge _ hword

end Comparison

namespace PlainClause

variable {write : Value → Text} {c : PlainClause}

theorem mem_split (hwrite : ∀ v, IsPlainWord (write v)) {g : Text}
    (hg : g ∈ Grammar.boundary.split (c.parameters write)) :
    g = [] ∨ ∃ p ∈ c.comparisons, g = p.text write ∨ g = p.text write ++ [';'] := by
  have htext : c.parameters write = "where ".toList ++ (c.text ' ' write ++ [';']) := rfl
  have hsegs := segmented_segments consumes_boundary (c.parameters write)
  have hreads : Grammar.boundary.Reads [] "where ".toList (c.text ' ' write ++ [';']) :=
    reads_boundary_iff.mpr ⟨[], "where".toList, ' ', rfl, Or.inl ⟨rfl, rfl⟩,
      spells_of_readings (by decide), by decide⟩
  rw [split, Segment.gaps_eq] at hg
  generalize Grammar.boundary.segments (c.parameters write) = segs at hsegs hg
  rw [htext, text, List.append_assoc] at hsegs
  obtain ⟨m, more, rfl, hmore⟩ := hsegs.past_boundary (by simpa [text] using hreads)
  rw [Segment.firstGap, Segment.laterGaps, ← Segment.gaps_eq] at hg
  rcases List.mem_cons.mp hg with rfl | hg
  · exact Or.inl rfl
  · exact Or.inr (mem_gaps_of_more hwrite hmore (by decide) g hg)

/-- A plain clause is accepted if its comparisons are put back as they were written. -/
theorem clauseFaults_eq_nil (hwrite : ∀ v, IsPlainWord (write v)) {l : Ledger}
    (hrevert : ∀ p ∈ c.comparisons, l.revert (p.text write) = p.text Value.text) :
    clauseFaults Profile.standard.budget l (c.parameters write) = [] := by
  rw [clauseFaults_eq_nil_iff]
  constructor
  · have hspace : isWord ' ' = false := by decide
    refine surplusWheres_eq_nil (by simpa using hspace) (EachWord.cons hspace ?_)
    refine eachWord_text hwrite (fun w hw => hw.free _ (by decide)) fun k hspells => ?_
    have hlength := (reads_word_iff.mp hspells).length_eq
    cases k <;> simp [Connective.text] at hlength
  · intro p hp
    obtain ⟨g, hg, hempty, rfl, -⟩ := mem_predicatesOf.mp hp
    rcases mem_split hwrite hg with rfl | ⟨q, hq, hgap⟩
    · cases hempty
    · have htrim : Text.trim isClauseEdge g = q.text write := by
        rcases hgap with rfl | rfl
        · have htrim := q.trim_text (hwrite q.value) (List.forall_mem_nil _)
          rwa [List.append_nil] at htrim
        · exact q.trim_text (hwrite q.value) (by simp [isClauseEdge])
      rw [htrim, hrevert q hq]
      exact ⟨.comparison, q.accepts⟩

end PlainClause

end MutationPreview
