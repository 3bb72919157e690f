import MutationPreview.Proofs.Clause.Divided
import MutationPreview.Proofs.Clause.Held
import MutationPreview.Proofs.Mutation.Literals

/-!
# Plain deletes

A plain delete names a table, maybe an alias, and has a plain clause. It is one piece of a batch
(`PlainDelete.statementsOf_sql`); in its held text the literals are words
(`PlainDelete.heldAs_standard`); its head is read in one way (`PlainDelete.find?_deleteHeader`); and its
clause is accepted. So the query on the same rows is made of it (`PlainDelete.HeldAs.query_eq`).
-/

namespace MutationPreview

open Pattern Ledger

/-- A delete with a plain clause. -/
structure PlainDelete where
  schema : Name
  table : Name
  nick : Option Name
  clause : PlainClause

namespace PlainDelete

/-- The table with its schema. -/
def target (d : PlainDelete) : Text := d.schema.text ++ '.' :: d.table.text

/-- The alias with the space behind it, if there is one. -/
def nickText (d : PlainDelete) : Text :=
  match d.nick with
  | none => []
  | some nick => nick.text ++ [' ']

/-- The statement up to its `where`. -/
def head (d : PlainDelete) : Text := "delete from ".toList ++ (d.target ++ ' ' :: d.nickText)

/-- The statement with its values written in a given way. -/
def statement (write : Value → Text) (d : PlainDelete) : Text := d.head ++ d.clause.parameters write

/-- The statement. -/
def sql (d : PlainDelete) : Text := d.statement Value.text

/-- The query on the same rows with its values written in a given way. -/
def laidOut (write : Value → Text) (d : PlainDelete) : Text :=
  "select *\nfrom ".toList ++ d.target ++ "\nwhere ".toList ++ d.clause.text '\n' write ++ [';']

/-- The query on the same rows. -/
def preview (d : PlainDelete) : Text := d.laidOut Value.text

end PlainDelete

/-! ## One piece of a batch -/

/-- Without a terminator outside quotes a text is not cut. -/
theorem cutFrom_eq_rest {x : Char} {quoted : Bool} {t : Text} (h : x ∉ outsideFrom quoted t) :
    cutFrom x quoted t = ⟨[], t⟩ := by
  induction t generalizing quoted with
  | nil => cases quoted <;> rfl
  | cons c t ih =>
    rw [outsideFrom_step] at h
    have hothers : cutFrom x (quotedBehind quoted c t) t = ⟨[], t⟩ ∧
        ¬ (c = x ∧ c ≠ '\'' ∧ quoted = false) := by
      by_cases hquoted : quoted = true ∨ quotedBehind quoted c t = true
      · rw [if_pos hquoted] at h
        refine ⟨ih h, ?_⟩
        rintro ⟨-, hc, rfl⟩
        simp [quotedBehind, hc] at hquoted
      · rw [if_neg hquoted] at h
        simp only [not_or, Bool.not_eq_true] at hquoted
        rw [List.mem_cons, not_or] at h
        rw [hquoted.2]
        exact ⟨ih h.2, fun hcut => h.1 hcut.1.symm⟩
    simp only [cutFrom_cons, hothers.1, if_neg hothers.2]
    rfl

/-- A closed text with a terminator behind it is one piece. -/
theorem IsClosed.statementsOf_eq {u : Text} (h : IsClosed (('d' :: u))) :
    statementsOf ';' ('d' :: u ++ [';']) = [Statement.ofText ('d' :: u ++ [';'])] := by
  have hpieces : (cutBatch ';' ('d' :: u ++ [';'])).pieces = ['d' :: u ++ [';']] := by
    have hcut : cutBatch ';' ('d' :: u) = ⟨[], 'd' :: u⟩ := cutFrom_eq_rest h.unended
    have hend : cutBatch ';' [';'] = ⟨[[';']], []⟩ := rfl
    rw [cutBatch_append h.even, hcut, hend, Pieces.append, Pieces.pushText_pieces]
    rfl
  have htrim : Text.trim isNoise ('d' :: u ++ [';']) = 'd' :: u ++ [';'] := by
    rw [Text.trim_append_singleton (by decide), List.dropWhile_cons_of_neg (by decide)]
  have hsome : Text.isBlank (Text.trimEnd (· == ';') ('d' :: u ++ [';'])) = false := by
    refine Text.isBlank_eq_false_iff.mpr ⟨'d', ?_, by decide⟩
    have hkept := Text.trimEnd_append (p := (· == ';')) (u := []) (v := u ++ [';']) (c := 'd') (by decide)
    have htext : 'd' :: u ++ [';'] = [] ++ ['d'] ++ (u ++ [';']) := by simp
    rw [htext, hkept]
    simp
  rw [statementsOf, hpieces, List.filterMap_cons, Statement.ofPiece?]
  simp only [htrim, hsome, Bool.false_eq_true, if_false, List.filterMap_nil]

namespace PlainDelete

variable (d : PlainDelete)

theorem isClauseChar_of_mem_head : ∀ x ∈ d.head, isClauseChar x = true ∨ x = '.' := by
  have hname : ∀ n : Name, ∀ x ∈ n.text, isClauseChar x = true ∨ x = '.' := fun n x hx =>
    Or.inl (n.isClauseChar_of_mem x hx)
  have hnick : ∀ x ∈ d.nickText, isClauseChar x = true ∨ x = '.' := by
    rw [nickText]
    split
    · simp
    · rw [List.forall_mem_append]
      exact ⟨hname _, by decide⟩
  unfold head target
  rw [List.forall_mem_append, List.forall_mem_append, List.forall_mem_append,
    List.forall_mem_cons, List.forall_mem_cons]
  exact ⟨by decide, ⟨hname _, Or.inr rfl, hname _⟩, Or.inl (by decide), hnick⟩

theorem notMem_head {x : Char} (hx : isClauseChar x = false) (hdot : x ≠ '.') : x ∉ d.head := by
  intro hmem
  rcases d.isClauseChar_of_mem_head x hmem with hchar | heq
  · rw [hchar] at hx
    cases hx
  · exact hdot heq

theorem statement_eq (write : Value → Text) :
    d.statement write = d.head ++ ("where ".toList ++ d.clause.text ' ' write) ++ [';'] := by
  simp [statement, PlainClause.parameters]

theorem statementsOf_sql : statementsOf ';' d.sql = [Statement.ofText d.sql] := by
  have hhead : IsClosed d.head :=
    .of_notMem (d.notMem_head (by decide) (by decide)) (d.notMem_head (by decide) (by decide))
  have hwhere : IsClosed "where ".toList := .of_notMem (by decide) (by decide)
  have hclosed : IsClosed ('d' :: _) := hhead.append (hwhere.append d.clause.isClosed_text)
  rw [sql, statement_eq]
  exact hclosed.statementsOf_eq

theorem notMem_statement {x : Char} {write : Value → Text} (hx : isClauseChar x = false)
    (hmark : x ∉ ".;".toList) (hvalue : ∀ v, x ∉ write v) : x ∉ d.statement write := by
  have hwhere : ∀ y ∈ "where ".toList, isClauseChar y = true := by decide
  have hspace : x ≠ ' ' := by
    rintro rfl
    cases hx
  have hclause := PlainClause.notMem_text (c := d.clause) hx hspace (fun p _ => hvalue p.value)
  rw [statement_eq]
  intro hmem
  rcases List.mem_append.mp hmem with hmem | hmem
  · rcases List.mem_append.mp hmem with hmem | hmem
    · exact d.notMem_head hx (fun heq => hmark (by rw [heq]; decide)) hmem
    · rcases List.mem_append.mp hmem with hmem | hmem
      · rw [hwhere x hmem] at hx
        cases hx
      · exact hclause hmem
  · exact hmark (by rw [List.mem_singleton.mp hmem]; decide)

end PlainDelete

/-! ## The held statement -/

namespace PlainDelete

variable (d : PlainDelete)

theorem joinLines_sql : joinLines d.sql = d.sql := by
  have hbreak : ∀ x ∈ ['\r', '\n'], x ∉ d.sql := by
    intro x hx
    have hmarks : ∀ x ∈ ['\r', '\n'], isClauseChar x = false ∧ x ∉ ".;".toList ∧
        x ∈ ['\r', '\n', '’'] := by decide
    obtain ⟨hchar, hmark, hvalue⟩ := hmarks x hx
    exact d.notMem_statement hchar hmark fun v => v.notMem_text hvalue
  have hmap : d.sql.map joinLine = d.sql := by
    refine (List.map_congr_left fun c hc => ?_).trans (List.map_id d.sql)
    have hreturn : c ≠ '\r' := fun heq => hbreak '\r' (by simp) (heq ▸ hc)
    have hfeed : c ≠ '\n' := fun heq => hbreak '\n' (by simp) (heq ▸ hc)
    simp [joinLine, hreturn, hfeed]
  rw [joinLines_eq, hmap, sql, statement_eq, Text.trim_append_singleton (by decide)]
  exact congrArg (· ++ [';']) (List.dropWhile_cons_of_neg (by decide))

/-- The held form of a plain delete: literals are written as tokens and nothing else is held. -/
structure HeldAs (h : Held) : Prop where
  standard : h.IsStandard
  text : h.text = d.statement (Value.held h.literals)
  subqueries : h.subqueries.values = []
  literals : ∀ q ∈ d.clause.comparisons, ∀ u ∈ q.value.literals, u ∈ h.literals.values
  absent : ¬ h.literals.format.lead <:+: d.sql

theorem heldAs_standard : d.HeldAs (Held.standard d.sql) := by
  obtain ⟨t, hlit, hsub⟩ := Held.literals_spec d.sql
  have hstandard := Held.isStandard_standard d.sql
  rw [joinLines_sql] at hlit
  generalize hheld : Held.standard d.sql = h at *
  have htext : t = d.statement (Value.held h.literals) := by
    have hhead : '\'' ∉ d.head := d.notMem_head (by decide) (by decide)
    have hwhere : '\'' ∉ "where ".toList := by decide
    have hmap : t = mapLiterals h.literals.tokenOf d.sql := hlit.text_eq
    rw [hmap, sql, statement_eq, statement_eq, List.append_assoc, List.append_assoc,
      mapLiterals_append_of_notMem _ hhead, mapLiterals_append_of_notMem _ hwhere,
      PlainClause.mapLiterals_text]
    simp [mapLiterals_cons]
  have hopen : '(' ∉ t := by
    rw [htext]
    refine d.notMem_statement (by decide) (by decide) fun v hmem => ?_
    exact absurd ((v.isPlainWord_held hstandard.literals).isWord _ hmem) (by decide)
  have hplain : Subquery.segments t = t.map .plain :=
    Subquery.segments_eq_map_plain fun a b hsplit => absurd (by simp [hsplit]) hopen
  refine ⟨hstandard, ?_, ?_, ?_, ?_⟩
  · rw [hsub.text_eq, hplain, Segment.join_map_plain, htext]
  · refine List.eq_nil_iff_forall_not_mem.mpr fun v hv => ?_
    rcases hsub.only v hv with hnil | ⟨a, ha, -⟩
    · simp at hnil
    · simp [hplain] at ha
  · intro q hq u hu
    have hspan : u ∈ quotedSpans d.sql := by
      have hhead : '\'' ∉ d.head ++ "where ".toList := by
        rw [List.mem_append, not_or]
        exact ⟨d.notMem_head (by decide) (by decide), by decide⟩
      have hsplit : d.sql = d.head ++ "where ".toList ++ (d.clause.text ' ' Value.text ++ [';']) := by
        rw [sql, statement_eq]
        simp
      rw [hsplit, quotedSpans_append_of_notMem hhead]
      exact PlainClause.mem_quotedSpans hq hu _
    obtain ⟨m, hm, rfl⟩ := List.mem_map.mp hspan
    exact hlit.held m hm
  · have hformat : h.literals.format = Profile.standard.literalFormat.avoiding d.sql :=
      hlit.continues.format
    rw [hformat]
    exact TokenFormat.avoiding_absent _ _

/-! ## The head -/

theorem deleteHeader_ne_none (write : Value → Text) :
    Grammar.deleteHeader.matchAt? ⟨[], d.statement write⟩ ≠ none := by
  have hname : ∀ n : Name, name.Spells n.text := fun n =>
    spells_many1.mpr ⟨n.isPlainWord.ne_nil, n.isPlainWord.isWord⟩
  have hspace : blanks1.Spells [' '] := spells_of_readings (by decide)
  have htarget : qualifiedName.Spells d.target := by
    refine (spells_chain_cons (by decide) (by decide)).mpr ⟨_, _, rfl, hname d.schema, ?_⟩
    exact (spells_chain_cons (by decide) (by decide)).mpr ⟨['.'], _, rfl, by simp, hname d.table⟩
  have hnick : optionalName.Spells d.nickText := by
    rw [nickText]
    cases d.nick with
    | none => exact Or.inr rfl
    | some nick =>
      exact Or.inl ((spells_chain_cons (by decide) (by decide)).mpr ⟨_, _, rfl, hname nick, hspace⟩)
  have hspells : (chain [word "delete".toList, blanks1, word "from".toList, blanks1,
      part .table qualifiedName, blanks1, optionalName,
      part .whereWord (word "where".toList)]).Spells (d.head ++ "where".toList) := by
    refine (spells_chain_cons (by decide) (by decide)).mpr
      ⟨"delete".toList, _, rfl, spells_of_readings (by decide), ?_⟩
    refine (spells_chain_cons (by decide) (by decide)).mpr ⟨[' '], _, rfl, hspace, ?_⟩
    refine (spells_chain_cons (by decide) (by decide)).mpr
      ⟨"from".toList, _, rfl, spells_of_readings (by decide), ?_⟩
    refine (spells_chain_cons (by decide) (by decide)).mpr ⟨[' '], _, rfl, hspace, ?_⟩
    refine (spells_chain_cons (by decide) (by decide)).mpr
      ⟨d.target, ' ' :: (d.nickText ++ "where".toList), by simp, htarget, ?_⟩
    refine (spells_chain_cons (by decide) (by decide)).mpr ⟨[' '], _, rfl, hspace, ?_⟩
    exact (spells_chain_cons (by decide) (by decide)).mpr ⟨d.nickText, _, rfl, hnick,
      spells_of_readings (by decide)⟩
  have hreads : Grammar.deleteHeader.Reads [] (d.head ++ "where".toList)
      (' ' :: (d.clause.text ' ' write ++ [';'])) := by
    refine reads_chain_cons.mpr ⟨[], _, rfl, ⟨rfl, rfl⟩, ?_⟩
    refine (@reads_chain_append _ [wordEdge] _ _ _).mpr
      ⟨_, [], (List.append_nil _).symm, hspells.reads (by decide) _ _, rfl, ?_⟩
    rw [List.reverse_append, List.append_assoc, atWordEdge_behind (by decide)]
    rfl
  intro hnone
  refine matchAt?_eq_none_iff.mp hnone _ _ ?_ hreads
  simp [statement, PlainClause.parameters]

end PlainDelete

/-- A word before a single space is told from the words and blanks of a reading. -/
theorem word_space_unique {w w' g x y : Text} (hw : ∀ c ∈ w, isWord c = true)
    (hw' : ∀ c ∈ w', isWord c = true) (hg : blanks1.Spells g) (hx : x.head?.any isBlank = false)
    (hy : y.head?.any isBlank = false) (h : w ++ ' ' :: x = w' ++ (g ++ y)) : w = w' ∧ x = y := by
  have hspace : isWord ' ' = false := by decide
  obtain ⟨rfl, hrest⟩ := Text.run_unique hw hw' (by simpa using hspace) (head?_blanks hg y).2 h
  obtain ⟨-, hxy⟩ := Text.run_unique (a := [' ']) (by decide) (spells_many1.mp hg).2 hx hy hrest
  exact ⟨rfl, hxy⟩

namespace PlainDelete

variable (d : PlainDelete)

/-- The `where` of a plain delete is the one of its clause: neither the alias nor a column is
taken for it. -/
theorem parameters_unique {write : Value → Text} {more rest k z : Text}
    (hmore : optionalName.Spells more) (hk : (word "where".toList).Spells k)
    (hz : z.head?.any isWord = false) (hrest : rest = k ++ z)
    (h : d.nickText ++ d.clause.parameters write = more ++ rest) :
    rest = d.clause.parameters write := by
  have hkword := isWord_of_spells_word where_letters hk
  have hnot : ∀ (n : Name) (t : Text), n.text ++ ' ' :: t ≠ k ++ z := by
    intro n t hsplit
    have hspace : isWord ' ' = false := by decide
    obtain ⟨rfl, -⟩ := Text.run_unique n.isPlainWord.isWord hkword.2 (by simpa using hspace) hz hsplit
    exact n.isPlainWord.free _ (by decide) hk
  have hrestHead : rest.head?.any isBlank = false := by
    rw [hrest]
    exact head?_word hkword z
  have hwhere : ∀ t, ("where".toList ++ t).head?.any isBlank = false := head?_word (by decide)
  have hcolumn : (d.clause.text ' ' write ++ [';']).head?.any isBlank = false := by
    rw [PlainClause.text, List.append_assoc]
    exact PlainClause.head?_comparison _ (fun _ => isBlank_of_isWord) _ _
  have hcases : more = [] ∨ ∃ nick gap, more = nick ++ gap ∧ (∀ c ∈ nick, isWord c = true) ∧
      blanks1.Spells gap := by
    rcases hmore with hmore | rfl
    · obtain ⟨nick, gap, rfl, hnick, hgap⟩ := (spells_chain_cons (by decide) (by decide)).mp hmore
      exact Or.inr ⟨nick, gap, rfl, (spells_many1.mp hnick).2, hgap⟩
    · exact Or.inl rfl
  rcases hcases with rfl | ⟨nick, gap, rfl, hnick, hgap⟩
  · cases hnickText : d.nick with
    | none => simpa [nickText, hnickText, eq_comm] using h
    | some n =>
      -- the alias would be the `where`
      refine absurd ?_ (hnot n (d.clause.parameters write))
      simpa [nickText, hnickText, hrest] using h
  · rw [List.append_assoc] at h
    cases hnickText : d.nick with
    | none =>
      -- the `where` would be an alias, and the first column the `where`
      have hsplit : "where".toList ++ ' ' :: (d.clause.text ' ' write ++ [';']) =
          nick ++ (gap ++ rest) := by
        simpa [nickText, hnickText, PlainClause.parameters] using h
      obtain ⟨-, hbehind⟩ := word_space_unique (by decide) hnick hgap hcolumn hrestHead hsplit
      obtain ⟨t, ht⟩ : ∃ t, d.clause.text ' ' write ++ [';'] = d.clause.first.column.text ++ ' ' :: t :=
        ⟨_, by rw [PlainClause.text, Comparison.text, List.append_assoc, List.append_assoc]; rfl⟩
      exact absurd (by rw [← ht, hbehind, hrest]) (hnot d.clause.first.column t)
    | some n =>
      have hsplit : n.text ++ ' ' :: d.clause.parameters write = nick ++ (gap ++ rest) := by
        simpa [nickText, hnickText] using h
      exact (word_space_unique n.isPlainWord.isWord hnick hgap (hwhere _) hrestHead hsplit).2.symm

/-- The table of a plain delete is the one that is read. -/
theorem target_unique {write : Value → Text} {front table gap tail after : Text}
    (hfront : (chain [wordEdge, word "delete".toList, blanks1, word "from".toList, blanks1]).Reads []
      front after)
    (htable : qualifiedName.Spells table) (hgap : blanks1.Spells gap)
    (htail : tail.head?.any isBlank = false)
    (h : d.statement write = front ++ (table ++ (gap ++ tail))) :
    table = d.target ∧ d.nickText ++ d.clause.parameters write = tail := by
  have hletters : ∀ t ∈ ["delete".toList, "from".toList], t ≠ [] ∧
      ∀ x ∈ t, isWordLetter x = true := by decide
  obtain ⟨_, front, rfl, ⟨rfl, -⟩, hfront⟩ := reads_chain_cons.mp hfront
  obtain ⟨k, front, rfl, hk, hfront⟩ := reads_chain_cons.mp hfront
  obtain ⟨g, front, rfl, hg, hfront⟩ := reads_chain_cons.mp hfront
  obtain ⟨k', g', rfl, hk', hg'⟩ := reads_chain_cons.mp hfront
  obtain ⟨s, _, rfl, hs, hpoint⟩ := (spells_chain_cons (by decide) (by decide)).mp htable
  obtain ⟨dot, t, rfl, hdot, ht⟩ := (spells_chain_cons (by decide) (by decide)).mp hpoint
  obtain rfl : dot = ['.'] := by simpa using hdot
  have hkword := isWord_of_spells_word (hletters _ (by simp)) (hk.spells (edgeFree_word _))
  have hkword' := isWord_of_spells_word (hletters _ (by simp)) (hk'.spells (edgeFree_word _))
  have hsword := spells_many1.mp hs
  have htword := spells_many1.mp ht
  have hschema := d.schema.isPlainWord
  have hname := d.table.isPlainWord
  have hbehind : (d.nickText ++ d.clause.parameters write).head?.any isBlank = false := by
    rw [nickText]
    split
    · exact head?_word (w := "where".toList) (by decide) _
    · rename_i n _
      rw [List.append_assoc]
      exact head?_word ⟨n.isPlainWord.ne_nil, n.isPlainWord.isWord⟩ _
  have hsplit : "delete".toList ++ ' ' :: ("from".toList ++ ' ' :: (d.schema.text ++ '.' ::
      (d.table.text ++ ' ' :: (d.nickText ++ d.clause.parameters write)))) =
        k ++ (g ++ (k' ++ (g' ++ (s ++ '.' :: (t ++ (gap ++ tail)))))) := by
    unfold statement head target at h
    simpa using h
  -- one run of word characters after the other is the same on both sides
  obtain ⟨-, hfrom⟩ := word_space_unique (by decide) hkword.2 (hg.spells (by decide))
    (head?_word (by decide) _) (head?_word hkword' _) hsplit
  obtain ⟨-, hqualified⟩ := word_space_unique (by decide) hkword'.2 (Reads.spells (by decide) hg')
    (head?_word ⟨hschema.ne_nil, hschema.isWord⟩ _) (head?_word hsword _) hfrom
  have hedge : isWord '.' = false := by decide
  obtain ⟨rfl, htables⟩ := Text.run_unique hschema.isWord hsword.2 (by simpa using hedge)
    (by simpa using hedge) hqualified
  obtain ⟨rfl, htail⟩ := word_space_unique hname.isWord htword.2 hgap hbehind htail
    (List.cons.inj htables).2
  exact ⟨rfl, htail⟩

/-- The head of a plain delete is read in one way. -/
theorem find?_deleteHeader (write : Value → Text) :
    ∃ m table whereWord, Grammar.deleteHeader.find? (d.statement write) = some m ∧
      m.start.passed = [] ∧ m.part? .table = some table ∧ table.text = d.target ∧
      m.part? .whereWord = some whereWord ∧ whereWord.start.after = d.clause.parameters write := by
  obtain ⟨m, hm⟩ := Option.ne_none_iff_exists'.mp (d.deleteHeader_ne_none write)
  obtain ⟨-, -, hstart, -⟩ := matchAt?_some hm
  obtain ⟨front, table, gap, more, rest, hsplit, hfront, htable, hgap, hmore, c, w, hc, hctext, -, hw,
    hwrest, k, z, hrest, hk, hz⟩ := exists_of_deleteHeader hm
  have hbehind : (more ++ rest).head?.any isBlank = false := by
    rcases hmore with hmore | rfl
    · obtain ⟨nick, _, rfl, hnick, -⟩ := (spells_chain_cons (by decide) (by decide)).mp hmore
      rw [List.append_assoc]
      exact head?_word (spells_many1.mp hnick) _
    · rw [hrest]
      exact head?_word (isWord_of_spells_word where_letters hk) z
  rw [List.append_assoc] at hsplit
  obtain ⟨htarget, hnick⟩ := d.target_unique hfront htable hgap hbehind hsplit
  refine ⟨m, c, w, find?_of_matchAt? hm, by simp [hstart, Cursor.passed], hc, ?_, hw, ?_⟩
  · rw [hctext, htarget]
  · rw [hwrest]
    exact d.parameters_unique hmore hk hz hrest hnick

/-! ## The query -/

/-- The query with its values written in a given way, before it is tidied. -/
def query (write : Value → Text) : Text :=
  "select *\nfrom ".toList ++ d.target ++ "\n".toList ++ d.clause.parameters write

variable {d} {h : Held}

namespace HeldAs

theorem isPlainWord (hd : d.HeldAs h) (v : Value) : IsPlainWord (v.held h.literals) :=
  v.isPlainWord_held hd.standard.literals

theorem revert_subqueries (hd : d.HeldAs h) (t : Text) : h.subqueries.revert t = t := by
  rw [Ledger.revert, hd.subqueries]
  rfl

theorem revert_comparison (hd : d.HeldAs h) {l : Ledger} (hl : l.IsStandard)
    (hmore : h.literals.Extends l) {q : Comparison} (hq : q ∈ d.clause.comparisons) :
    l.revert (q.text (Value.held h.literals)) = q.text Value.text := by
  refine PlainClause.revert_comparison hl hmore (hd.literals q hq) fun hwithin => hd.absent ?_
  rw [← hmore.format]
  refine hwithin.trans ((PlainClause.infix_text hq).trans ?_)
  rw [sql, statement_eq]
  exact ⟨d.head ++ "where ".toList, [';'], by simp⟩

theorem accepted (hd : d.HeldAs h) :
    parameterFaults Profile.standard h (d.clause.parameters (Value.held h.literals)) = .ok [] := by
  have hopen : '(' ∉ d.clause.parameters (Value.held h.literals) := by
    have hnot : '(' ∉ h.text := by
      rw [hd.text]
      refine d.notMem_statement (by decide) (by decide) fun v hmem => ?_
      exact absurd ((hd.isPlainWord v).isWord _ hmem) (by decide)
    intro hmem
    rw [hd.text, statement] at hnot
    exact hnot (List.mem_append_right _ hmem)
  have hplain := Subquery.segments_eq_map_plain
    (t := d.clause.parameters (Value.held h.literals)) fun a b hsplit => absurd (by simp [hsplit]) hopen
  rw [parameterFaults_of_no_subquery (by rw [hd.revert_subqueries, hplain, Segment.spans_map_plain]),
    hd.revert_subqueries, clauseOf, hplain, Segment.join_map_plain]
  exact congrArg Except.ok (PlainClause.clauseFaults_eq_nil hd.isPlainWord fun q hq =>
    hd.revert_comparison hd.standard.literals (.refl _) hq)

theorem query_eq (hd : d.HeldAs (Held.standard d.sql)) :
    (Statement.ofText d.sql).query Profile.standard =
      .ok { Held.standard d.sql with text := d.query (Value.held (Held.standard d.sql).literals) } := by
  obtain ⟨m, table, whereWord, hfind, hpassed, htable, htext, hwhere, hafter⟩ :=
    d.find?_deleteHeader (Value.held (Held.standard d.sql).literals)
  rw [← hd.text] at hfind
  have hparameters : (Mutation.deleteHead (Held.standard d.sql)).parameters =
      d.clause.parameters (Value.held (Held.standard d.sql).literals) := by
    simp [Mutation.deleteHead, hfind, fromPart, hwhere, hafter]
  have hselect : Mutation.deleteSelect? (Held.standard d.sql).text =
      some (d.query (Value.held (Held.standard d.sql).literals)) := by
    unfold query
    simp [Mutation.deleteSelect?, hfind, htable, hwhere, spliceSelect, hpassed, htext, hafter]
  have hconverts : (Job.standard d.sql []).Converts (Statement.ofText d.sql) (Held.standard d.sql)
      .delete (Mutation.deleteHead (Held.standard d.sql))
      { Held.standard d.sql with text := d.query (Value.held (Held.standard d.sql).literals) } := by
    refine ⟨rfl, rfl, ?_, ?_, ?_⟩
    · simp [Mutation.deleteHead, HeadReport.failure?, hfind]
    · rw [hparameters]
      exact hd.accepted
    · rw [Mutation.toQuery, Mutation.select, hselect]
  exact hconverts.query_eq

end HeldAs

end PlainDelete

end MutationPreview
