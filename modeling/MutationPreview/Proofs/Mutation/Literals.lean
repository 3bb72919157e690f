import MutationPreview.Proofs.Mutation.Identifier
import MutationPreview.Proofs.Tidy.Dropped

/-!
# Literals of a converted delete

Every literal of a delete comes back in its preview, in the same order, with its line breaks turned
into spaces (`Job.quotedSpans_of_delete`): the head that is replaced keeps the table, tidying keeps
the tokens of literals, and reverting puts each literal back for its token. What is left out are
deletes in which a literal stands as the alias, entity expressions, a mark that hides the token of a
subquery, and a literal whose token runs on in the digits behind it.
-/

namespace MutationPreview

open Pattern Ledger

/-! ## The head of a delete -/

/-- The pieces of the head of a delete: the words, the table, what stands between the table and
`where`, and the text from `where` on. -/
theorem exists_of_deleteHeader {before after : Text} {m : Match}
    (h : Grammar.deleteHeader.matchAt? ⟨before, after⟩ = some m) :
    ∃ front table gap more rest, after = front ++ (table ++ (gap ++ more ++ rest)) ∧
      (chain [wordEdge, word "delete".toList, blanks1, word "from".toList, blanks1]).Reads before
        front (table ++ (gap ++ more ++ rest)) ∧
      qualifiedName.Spells table ∧ blanks1.Spells gap ∧ optionalName.Spells more ∧
      ∃ c w, m.part? .table = some c ∧ c.text = table ∧ c.stop.after = gap ++ more ++ rest ∧
        m.part? .whereWord = some w ∧ w.start.after = rest ∧
        ∃ k z, rest = k ++ z ∧ (word "where".toList).Spells k ∧ z.head?.any isWord = false := by
  have hchain : (chain ([wordEdge, word "delete".toList, blanks1, word "from".toList, blanks1] ++
      part .table qualifiedName :: ([blanks1, optionalName] ++
        part .whereWord (word "where".toList) :: [wordEdge]))).matchAt? ⟨before, after⟩ =
      some m := h
  obtain ⟨r, hr, rfl⟩ := matchAt?_reading hchain
  obtain ⟨r₁, h₁, hr⟩ := mem_readings_chain_append.mp hr
  obtain ⟨s₂, h₂, hr₂⟩ := mem_readings_chain_cons.mp hr
  obtain ⟨r₂, h₂, rfl⟩ := List.mem_map.mp h₂
  obtain ⟨r₃, h₃, hr₃⟩ := mem_readings_chain_append.mp hr₂
  obtain ⟨s₄, h₄, hr₄⟩ := mem_readings_chain_cons.mp hr₃
  obtain ⟨r₄, h₄, rfl⟩ := List.mem_map.mp h₄
  obtain ⟨front, hfront, -, hreads⟩ := exists_stretch h₁
  obtain ⟨table, htable, -, hname⟩ := exists_stretch h₂
  obtain ⟨between, hbetween, -, hmore⟩ := exists_stretch h₃
  obtain ⟨gap, more, rfl, hgap, hmore⟩ := reads_chain_cons.mp hmore
  obtain ⟨k, hk, hkbefore, hwhere⟩ := exists_stretch h₄
  have hspells := hwhere.spells (edgeFree_word _)
  obtain ⟨_, hend, -, rfl, hedge⟩ := exists_stretch hr₄
  rw [hkbefore, atWordEdge_behind (isWord_of_spells_word where_letters hspells)] at hedge
  simp only [List.nil_append] at hfront hbetween hreads hend
  refine ⟨front, table, gap, more, r₃.here.after, ?_, ?_, hname.spells (by decide),
    hgap.spells (by decide), Reads.spells (by decide) hmore,
    ⟨.table, r₁.here, r₂.here⟩, ⟨.whereWord, r₃.here, r₄.here⟩, ?_, ?_, hbetween, ?_, rfl,
    k, r₄.here.after, hk, hspells, by rw [hend]; simpa using hedge⟩
  · rw [hfront, htable, hbetween]
  · rw [htable, hbetween] at hreads
    exact hreads
  · refine find?_parts (c := ⟨.table, r₁.here, r₂.here⟩) hr₂ rfl fun q hq => ?_
    have hname : Part.table ∈ [Part.whereWord] := List.mem_map_of_mem (f := Prod.fst) hq
    simp at hname
  · simp [Capture.text, Cursor.upTo, htable]
  · exact find?_parts (c := ⟨.whereWord, r₃.here, r₄.here⟩) hr₄ rfl (by simp [chain, partsIn])

namespace Held

/-- What stands between the table and the `where` of a delete: blanks, and the alias if it has
one. -/
def aliasStretch (h : Held) : Text :=
  match Grammar.deleteHeader.find? h.text with
  | none => []
  | some m =>
    match m.part? .table, m.part? .whereWord with
    | some table, some whereWord => table.stop.upTo whereWord.start
    | _, _ => []

variable {q : Held} {t : Text}

/-- Words of a head have no literal. -/
theorem Sound.spansIn_eq_nil_of_notMem (h : q.Sound) (hquote : '\'' ∉ t) (hopen : '(' ∉ t)
    (hletter : 'S' ∉ t) : q.spansIn t = [] := by
  have hself := h.putBack_append_of_notMem (b := []) hopen hletter
  have hnil : q.putBack [] = [] := h.putBack_eq_self (by simp) (by simp)
  rw [List.append_nil, hnil, List.append_nil] at hself
  rw [spansIn, hself, quotedSpans_of_notMem hquote]

/-- A text without brackets and without the lead of literals has no literal. -/
theorem Sound.spansIn_eq_nil_of_absent (h : q.Sound) (hquote : '\'' ∉ t) (hopen : '(' ∉ t)
    (hlead : ¬ q.literals.format.lead <:+: t) : q.spansIn t = [] := by
  obtain ⟨lead, hbracket⟩ := h.standard.exists_bracket_lead
  have habsent : ¬ q.subqueries.format.lead <:+: t :=
    fun hwithin => hopen (hwithin.subset (by simp [hbracket]))
  rw [spansIn, putBack, Ledger.revert_of_absent habsent, Ledger.revert_of_absent hlead,
    quotedSpans_of_notMem hquote]

theorem isSeparator_of_blanks1 {gap : Text} (h : blanks1.Spells gap) :
    gap ≠ [] ∧ ∀ c ∈ gap, Sound.IsSeparator c := by
  obtain ⟨hne, hblank⟩ := spells_many1.mp h
  exact ⟨hne, fun c hc => Sound.isSeparator_of_isBlank (hblank c hc)⟩

/-- The spans of the query of a delete are those of its held text, if its alias has none. -/
theorem Sound.spansIn_deleteSelect (h : q.Sound) {x front table gap more rest : Text}
    (hx : ∀ c ∈ x, isBlank c = true) {before after : Text}
    (hfront : (chain [wordEdge, word "delete".toList, blanks1, word "from".toList,
      blanks1]).Reads before front after)
    (htable : qualifiedName.Spells table) (hgap : blanks1.Spells gap)
    (hmore : optionalName.Spells more) (halias : ¬ q.literals.format.lead <:+: gap ++ more) :
    q.spansIn (x ++ ("select *\nfrom ".toList ++ table ++ "\n".toList) ++ rest) =
      q.spansIn (x ++ (front ++ (table ++ (gap ++ more ++ rest)))) := by
  obtain ⟨e, front, rfl, ⟨rfl, -⟩, hfront⟩ := reads_chain_cons.mp hfront
  obtain ⟨d, front, rfl, hd, hfront⟩ := reads_chain_cons.mp hfront
  obtain ⟨g, front, rfl, hg, hfront⟩ := reads_chain_cons.mp hfront
  obtain ⟨f, g', rfl, hf, hg'⟩ := reads_chain_cons.mp hfront
  have hwords : ∀ {u : Text}, '\'' ∉ u → '(' ∉ u → 'S' ∉ u → q.spansIn u = [] :=
    fun hquote hopen hletter => h.spansIn_eq_nil_of_notMem hquote hopen hletter
  obtain ⟨hgne, hgsep⟩ := isSeparator_of_blanks1 (hg.spells (by decide))
  obtain ⟨hgne', hgsep'⟩ := isSeparator_of_blanks1 (Reads.spells (by decide) hg')
  obtain ⟨hgapne, hgapsep⟩ := isSeparator_of_blanks1 hgap
  have hspace : ∀ c ∈ [' '], Sound.IsSeparator c := by
    simpa using Sound.isSeparator_of_isGap (c := ' ') (by decide)
  have hline : ∀ c ∈ ['\n'], Sound.IsSeparator c := by
    simpa using Sound.isSeparator_of_isGap (c := '\n') (by decide)
  have hquote : '\'' ∉ table := htable.notMem (by decide)
  -- behind the table, the alias and the blanks around it have no span
  have hbehind : q.spansIn (more ++ rest) = q.spansIn rest := by
    rcases hmore with hmore | rfl
    · obtain ⟨nick, blank, rfl, hnick, hblank⟩ := (spells_chain_cons (by decide) (by decide)).mp hmore
      obtain ⟨hne, hsep⟩ := isSeparator_of_blanks1 hblank
      have hnone : q.spansIn nick = [] := by
        refine h.spansIn_eq_nil_of_absent (hnick.notMem (by decide)) (hnick.notMem (by decide)) ?_
        intro hwithin
        exact halias (hwithin.trans ⟨gap, blank, by simp⟩)
      rw [List.append_assoc, h.spansIn_cut (hnick.notMem (by decide)) hne hsep, hnone,
        List.nil_append]
    · rfl
  have hold : q.spansIn (x ++ (d ++ (g ++ (f ++ (g' ++ (table ++ (gap ++ (more ++ rest)))))))) =
      q.spansIn table ++ q.spansIn rest := by
    rw [h.spansIn_run fun c hc => Sound.isSeparator_of_isBlank (hx c hc),
      h.spansIn_cut (hd.notMem (by decide)) hgne hgsep,
      h.spansIn_cut (hf.notMem (by decide)) hgne' hgsep', h.spansIn_cut hquote hgapne hgapsep,
      hwords (hd.notMem (by decide)) (hd.notMem (by decide)) (hd.notMem (by decide)),
      hwords (hf.notMem (by decide)) (hf.notMem (by decide)) (hf.notMem (by decide)), hbehind]
    rfl
  have hnew : q.spansIn (x ++ ("select *".toList ++ (['\n'] ++ ("from".toList ++ ([' '] ++
      (table ++ (['\n'] ++ rest))))))) = q.spansIn table ++ q.spansIn rest := by
    rw [h.spansIn_run fun c hc => Sound.isSeparator_of_isBlank (hx c hc),
      h.spansIn_cut (by decide) (by simp) hline, h.spansIn_cut (by decide) (by simp) hspace,
      h.spansIn_cut hquote (by simp) hline,
      hwords (by decide) (by decide) (by decide), hwords (by decide) (by decide) (by decide)]
    rfl
  have htext : x ++ ("select *\nfrom ".toList ++ table ++ "\n".toList) ++ rest =
      x ++ ("select *".toList ++ (['\n'] ++ ("from".toList ++ ([' '] ++
        (table ++ (['\n'] ++ rest)))))) := by simp
  rw [htext, hnew, ← hold]
  simp

/-! ## Statements -/

theorem count_quoteLiteral (value : Text) : (quoteLiteral value).count '\'' % 2 = 0 := by
  have hreplace : (Text.replace "'".toList "''".toList value).count '\'' % 2 = 0 := by
    induction value with
    | nil => rfl
    | cons c value ih =>
      have hfirst : (if c = '\'' then "''".toList else [c]).count '\'' % 2 = 0 := by
        split
        · rfl
        · rename_i hc
          simp [hc]
      rw [replace_quote_cons, List.count_append]
      omega
  simp only [quoteLiteral, List.cons_append, List.count_cons_self, List.count_append, List.count_nil]
  omega

/-- A statement with closed quotes is held soundly. -/
theorem sound_standard {raw : Text} (heven : (joinLines raw).count '\'' % 2 = 0) :
    (Held.standard raw).Sound := by
  refine ⟨isStandard_standard raw, covers_standard raw, (quote_notMem_standard heven).2, ?_⟩
  intro v hv
  obtain ⟨content, hcontent, rfl⟩ := quoted_literals raw v hv
  rw [count_inQuotes hcontent]

/-- A literal with closed quotes may be held too. -/
theorem Sound.holdLiteral (h : q.Sound) {literal : Text} (hliteral : literal.count '\'' % 2 = 0) :
    (q.holdLiteral literal).1.Sound := by
  refine ⟨h.standard.holdLiteral literal, h.covers, h.unquoted, fun v hv => ?_⟩
  rcases (Ledger.hold_spec q.literals literal).only v hv with hv | rfl
  · exact h.closed v hv
  · exact hliteral

/-- Whether a literal stands before a digit with which its token makes the token of another one of
the keys. -/
def runsInto (keys : List Text) (literal : Text) : List (Segment Match) → Bool
  | .plain digit :: _ => digit.isDigit &&
    decide (10 * (keys.idxOf literal + 1) + (digit.toNat - '0'.toNat) ≤ keys.length)
  | _ => false

/-- Whether some literal runs into the digits behind it. -/
def runsOn (keys : List Text) : List (Segment Match) → Bool
  | [] => false
  | .plain _ :: rest => runsOn keys rest
  | .span literal :: rest => runsInto keys literal.text rest || runsOn keys rest

theorem clear_of_runsOn {l : Ledger} (hl : l.IsStandard) {segs : List (Segment Match)}
    (h : runsOn l.values segs = false) : Clear Match.text l segs := by
  obtain ⟨k, hformat⟩ := hl.exists_format
  have hlead : l.format.lead = 'S' :: ("TR_".toList ++ List.replicate k '_') := by
    rw [hformat]
    rfl
  induction segs with
  | nil => trivial
  | cons s segs ih =>
    cases s with
    | plain c => exact ih h
    | span literal =>
      rw [runsOn, Bool.or_eq_false_iff] at h
      refine ⟨?_, ih h.2⟩
      rw [Ledger.overread_iff hl.trail_eq hlead (by decide)]
      rintro ⟨digit, rest, rfl, hdigit, hle⟩
      have hnot := h.1
      rw [runsInto, hdigit, Bool.true_and, decide_eq_false_iff_not] at hnot
      exact hnot hle

/-- A held text is put back as the text that was held, also with one more literal, if no token runs
on. -/
theorem putBack_holdLiteral {cleaned t : Text} (hq : q.IsStandard)
    (hlit : Ledger.HoldSpansSpec Match.text ⟨Profile.standard.literalFormat.avoiding cleaned, []⟩
      (Grammar.literal.segments cleaned) q.literals t)
    (hsub : Ledger.HoldSpansSpec Subquery.cover ⟨Profile.standard.subqueryFormat.avoiding t, []⟩
      (Subquery.segments t) q.subqueries q.text) {literal : Text}
    (h : runsOn (q.literals.hold literal).1.values (Grammar.literal.segments cleaned) = false) :
    (q.holdLiteral literal).1.putBack q.text = cleaned := by
  have hspec := Ledger.hold_spec q.literals literal
  have hstandard : (q.literals.hold literal).1.IsStandard := (hq.holdLiteral literal).literals
  have hformat := hspec.continues.format.trans hlit.continues.format
  have hjoin : Segment.join Match.text (Grammar.literal.segments cleaned) = cleaned :=
    (paired_segments _).join_eq
  have htext : t = Segment.join (fun m => (q.literals.hold literal).1.tokenOf m.text)
      (Grammar.literal.segments cleaned) := by
    rw [hlit.text_eq]
    exact Segment.join_congr fun m hm => (hspec.continues.tokenOf_eq (hlit.held m hm)).symm
  have hun : Text.Unbordered (q.literals.hold literal).1.format.lead := by
    rw [hformat]
    exact unbordered_avoiding 'S' "TR_".toList _ _ rfl (by decide) (by decide)
  have habsent : ¬ (q.literals.hold literal).1.format.lead <:+:
      Segment.join Match.text (Grammar.literal.segments cleaned) := by
    rw [hformat, hjoin]
    exact TokenFormat.avoiding_absent _ _
  have hheld : ∀ m ∈ Segment.spans (Grammar.literal.segments cleaned),
      m.text ∈ (q.literals.hold literal).1.values :=
    fun m hm => hspec.continues.values.subset (hlit.held m hm)
  show (q.literals.hold literal).1.revert (q.subqueries.revert q.text) = cleaned
  rw [revert_subqueries hsub, Ledger.revert_eq_substitute hstandard.lead_ne_nil, htext,
    Ledger.substitute_tokens hun habsent hheld (clear_of_runsOn hstandard h), hjoin]

/-- The literals of a preview are those that stand in its query, if nothing is injected. -/
theorem Sound.quotedSpans_revert_tidy (h : q.Sound) (hquote : '\'' ∉ q.text)
    (hentity : q.findsEntity = false) (hmark : q.subqueries.HidesNoToken q.text)
    (identifier : Text) :
    quotedSpans (tidy Profile.standard identifier q).revert =
      (q.holdLiteral (quoteLiteral identifier)).1.spansIn q.text := by
  have hsound := h.holdLiteral (count_quoteLiteral identifier)
  have hdropped : '\'' ∉ dropWords q.text := by
    have hkeeps : ∀ {p : Pattern} {t : Text}, p.consumes = true → '\'' ∉ t →
        '\'' ∉ p.replaceAll (fun _ => []) t := fun hp ht =>
      (keeps_replaceAll hp fun _ _ => Or.inr List.not_mem_nil).notMem ht
    exact hkeeps (by decide) (hkeeps (by decide) hquote)
  rw [revert_tidy_eq, injectIdentifier_eq_self hentity]
  exact (hsound.spansIn_layOut hdropped).trans (hsound.spansIn_dropWords hquote hmark)

/-- Replacing the head of a delete keeps the spans, if there is none between the table and the
`where`. -/
theorem Sound.spansIn_select (h : q.Sound) {m : Match} {w : Capture} {heading : Text}
    (hfind : Grammar.deleteHeader.find? q.text = some m) (hwhere : m.part? .whereWord = some w)
    (hheading : Mutation.delete.heading? Profile.standard q.text = some heading)
    (hpassed : ∀ c ∈ m.start.passed, isBlank c = true)
    (halias : ¬ q.literals.format.lead <:+: q.aliasStretch) :
    q.spansIn (m.start.passed ++ heading ++ w.start.after) = q.spansIn q.text := by
  obtain ⟨x, after, htext, hmatch, -⟩ := findFrom?_some hfind
  obtain ⟨-, -, hstart, -⟩ := matchAt?_some hmatch
  obtain ⟨front, table, gap, more, rest, rfl, hfront, htable, hgap, hmore, c, w', hc, hname, hstop,
    hw', hrest, -⟩ := exists_of_deleteHeader hmatch
  obtain rfl : w' = w := Option.some.inj (hw'.symm.trans hwhere)
  have hx : m.start.passed = x := by
    rw [hstart]
    simp [Cursor.passed]
  have hstretch : q.aliasStretch = gap ++ more := by
    simp only [aliasStretch, hfind, hc, hwhere, Cursor.upTo, hstop, hrest]
    rw [List.length_append, Nat.add_sub_cancel, List.take_left]
  have hselect : heading = "select *\nfrom ".toList ++ table ++ "\n".toList := by
    simpa [Mutation.heading?, hfind, hc, hname] using hheading.symm
  rw [hstretch] at halias
  rw [hx] at hpassed ⊢
  rw [hselect, hrest, htext]
  exact h.spansIn_deleteSelect hpassed hfront htable hgap hmore halias

end Held

/-! ## Records -/

theorem Statement.ends_of_mem {batch : Text} {s : Statement} (hs : s ∈ statementsOf ';' batch) :
    ∃ u, s.sql = u ++ [';'] := by
  obtain ⟨piece, hpiece, hs⟩ := List.mem_filterMap.mp hs
  obtain ⟨hends, hsingle⟩ := cutBatch_single (by decide) hpiece
  exact (Statement.single_of_piece hends hsingle hs).1

/-- Joining the lines of a text joins those of its literals. -/
theorem quotedSpans_joinLines {raw : Text} (hends : ∃ u, raw = u ++ [';']) :
    quotedSpans (joinLines raw) = (quotedSpans raw).map fun span => span.map joinLine := by
  obtain ⟨u, rfl⟩ := hends
  obtain ⟨spaces, hmap, hspaces, -⟩ := exists_spaces_joinLines (u := u)
  have hquote : '\'' ∉ spaces := fun hmem => absurd (hspaces _ hmem) (by decide)
  rw [← quotedSpans_map_joinLine, hmap, quotedSpans_append_of_notMem hquote]

namespace Job

variable {batch identifier : Text} {s : Statement}

/-- The literals of a converted delete come back in order, with their line breaks turned into
spaces. -/
theorem quotedSpans_of_delete (hs : s ∈ (Job.standard batch identifier).statements)
    (hkind : s.kind = .delete)
    (hrecord : ((Job.standard batch identifier).record s).isError = false)
    (heven : s.sql.count '\'' % 2 = 0)
    (hquery : ∀ query, s.query Profile.standard = .ok query →
      query.findsEntity = false ∧ query.subqueries.HidesNoToken query.text)
    (halias : ¬ (Held.standard s.sql).literals.format.lead <:+: (Held.standard s.sql).aliasStretch)
    (hdigit : Held.runsOn ((Held.standard s.sql).literals.hold
        (quoteLiteral (Job.standard batch identifier).identifier)).1.values
      (Grammar.literal.segments (joinLines s.sql)) = false) :
    quotedSpans ((Job.standard batch identifier).record s).sql =
      (quotedSpans s.sql).map fun span => span.map joinLine := by
  obtain ⟨mutation, report, query, m, heading, hconverts, hfind, hpassed, hheading, htext⟩ :=
    exists_replaced hs (Or.inl hkind) hrecord
  obtain rfl : mutation = .delete := hconverts.mutation_eq hkind
  have hends := Statement.ends_of_mem hs
  have hsql : ((Job.standard batch identifier).record s).sql =
      (tidy Profile.standard (Job.standard batch identifier).identifier query).revert := by
    rw [record_of_query _ hconverts.query_eq, finish_sql]
    rfl
  obtain ⟨m', w, -, hfind', hwhere, hparameters, -, -⟩ :=
    Mutation.exists_of_select (by simp) hconverts.head hconverts.select_eq.1
  obtain rfl : m = m' := Option.some.inj (hfind.symm.trans hfind')
  obtain ⟨hentity, hmark⟩ := hquery query hconverts.query_eq
  -- no quote is left in the held text, and none comes into the query
  rw [← (single_joinLines hends).2.2] at heven
  obtain ⟨hquote, hsub⟩ := Held.quote_notMem_standard heven
  have hnone : '\'' ∉ query.text :=
    (Mutation.keeps_select (by decide) hsub hconverts.head hconverts.select_eq.1).notMem hquote
  have hsound := Held.sound_standard heven
  obtain ⟨t, hlit, hsubs⟩ := Held.literals_spec s.sql
  have hstandard := Held.isStandard_standard s.sql
  have hquery_eq := hconverts.select_eq.2
  generalize Held.standard s.sql = held at *
  have hblanks : ∀ c ∈ m.start.passed, isBlank c = true := by
    rw [hpassed]
    exact fun c hc => List.mem_takeWhile_imp hc
  have hsame : ∀ literal u, (query.holdLiteral literal).1.spansIn u =
      (held.holdLiteral literal).1.spansIn u := by
    rw [hquery_eq]
    exact fun literal u => rfl
  have hquerySound : query.Sound := by
    rw [hquery_eq]
    exact ⟨⟨hstandard.literals, hstandard.subqueries⟩, hsound.covers, hsound.unquoted,
      hsound.closed⟩
  have hmore := hsound.holdLiteral
    (Held.count_quoteLiteral (Job.standard batch identifier).identifier)
  rw [hsql, hquerySound.quotedSpans_revert_tidy hnone hentity hmark, hsame, htext, hparameters]
  refine (hmore.spansIn_select hfind hwhere hheading hblanks ?_).trans ?_
  · have hformat := (Ledger.hold_spec held.literals
      (quoteLiteral (Job.standard batch identifier).identifier)).continues.format
    exact hformat ▸ halias
  · rw [Held.spansIn, ← quotedSpans_joinLines hends]
    exact congrArg quotedSpans (Held.putBack_holdLiteral hstandard hlit hsubs hdigit)

/-- A delete with an alias, a literal that comes twice and one over two lines. -/
theorem quotedSpans_of_delete_three_literals :
    let batch := "delete from s.t x where a = 'x\ny' and b in ('z', 'x\ny');".toList
    let s := Statement.ofText batch
    quotedSpans s.sql = ["'x\ny'".toList, "'z'".toList, "'x\ny'".toList] ∧
      quotedSpans ((Job.standard batch "abc".toList).record s).sql =
        ["'x y'".toList, "'z'".toList, "'x y'".toList] := by
  have hquery : ∀ query, Statement.query Profile.standard (Statement.ofText
      "delete from s.t x where a = 'x\ny' and b in ('z', 'x\ny');".toList) = .ok query →
      query.findsEntity = false ∧ query.subqueries.HidesNoToken query.text := by
    intro query hquery
    have hclean : ((Statement.query Profile.standard (Statement.ofText
        "delete from s.t x where a = 'x\ny' and b in ('z', 'x\ny');".toList)).toOption.all
        fun q => decide (q.findsEntity = false ∧ q.subqueries.HidesNoToken q.text)) = true := by decide +kernel
    rw [hquery] at hclean
    simpa [Except.toOption] using hclean
  refine ⟨by decide +kernel, ?_⟩
  exact (quotedSpans_of_delete (by decide +kernel) (by decide) (by decide +kernel)
    (by decide +kernel) hquery (by decide +kernel) (by decide +kernel)).trans (by decide +kernel)

/-- A delete without entity expressions and with paired quotes that is turned into a query with these
literals, which are not its own. -/
def ChangesLiterals (batch : Text) (shown : List Text) : Prop :=
  let s := Statement.ofText batch
  let record := (Job.standard batch "abc".toList).record s
  (Job.standard batch "abc".toList).statements = [s] ∧ s.kind = .delete ∧
    record.isError = false ∧ s.sql.count '\'' % 2 = 0 ∧
    Profile.standard.entityCall.hasMatch s.sql = false ∧
    Profile.standard.entityToken.hasMatch s.sql = false ∧
    quotedSpans record.sql = shown ∧ quotedSpans record.sql ≠ quotedSpans s.sql

/-- Literals do not come back as they are: the line break of a literal becomes a space, a literal in
place of an alias is dropped with it, dropping a mark makes an entity token or the token of a subquery,
and a literal before a digit is read as the tenth one. -/
theorem literals_changed_in_delete :
    ChangesLiterals "delete from s.t where a = 'x\ny';".toList ["'x y'".toList] ∧
    ChangesLiterals "delete from s.t 'x' where a = 1;".toList [] ∧
    ChangesLiterals "delete from s.t where a = :tmp_entityid;".toList ["'ABC'".toList] ∧
    ChangesLiterals
      "delete from s.t where a in (select b from u where c = 'x') and d = (tmp_SUB_1);".toList
      ["'x'".toList, "'x'".toList] ∧
    ChangesLiterals
      "delete from s.t where a = '1'0 and b in ('2','3','4','5','6','7','8','9','0');".toList
      (["'0'", "'2'", "'3'", "'4'", "'5'", "'6'", "'7'", "'8'", "'9'", "'0'"].map String.toList) := by
  -- the kernel decodes a string slowly
  simp only [ChangesLiterals, List.map_cons, List.map_nil]
  repeat rw [String.toList_ofList]
  refine ⟨?_, ?_, ?_, ?_, ?_⟩ <;> decide +kernel

end Job

end MutationPreview
