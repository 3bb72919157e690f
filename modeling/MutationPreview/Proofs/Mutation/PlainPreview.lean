import MutationPreview.Proofs.Mutation.Injected
import MutationPreview.Proofs.Mutation.PlainDelete

/-!
# The preview of a plain delete

The conversion of a plain delete is known to the last character (`convert_plainDelete`): the one record
is the query on the table with the same clause, each connective on a line of its own.

Tidying finds nothing to drop or inject in the query, sets the connectives in lines
(`PlainDelete.layOut_query`) and finds no spaces to collapse; reverting puts the literals back.
-/

namespace MutationPreview

open Pattern Ledger

/-! ## Tidying finds nothing to drop or inject -/

theorem hasMatch_entityCall {t : Text} (h : '(' ∉ t) :
    Profile.standard.entityCall.hasMatch t = false := by
  rw [Bool.eq_false_iff]
  intro hmatch
  obtain ⟨m, hm⟩ := Option.isSome_iff_exists.mp hmatch
  obtain ⟨x, y, rfl, hat, -⟩ := findFrom?_some hm
  obtain ⟨rest, rfl, -⟩ := matchAt?_some hat
  obtain ⟨w, a, b, arg, c, htext, -⟩ := exists_of_entityCall hat
  exact h (by simp [htext])

theorem hasMatch_entityToken {t : Text} (h : ':' ∉ t) :
    Profile.standard.entityToken.hasMatch t = false := by
  rw [Bool.eq_false_iff]
  intro hmatch
  obtain ⟨x, u, y, rfl, hreads⟩ := hasMatch_iff.mp hmatch
  obtain ⟨e, rfl, -⟩ := exists_of_spells_token (reads_entityToken_iff.mp hreads).1
  exact h (by simp)

namespace PlainDelete

variable {d : PlainDelete} {write : Value → Text}

theorem query_eq (write : Value → Text) : d.query write = "select".toList ++ ' ' :: '*' :: '\n' ::
    ("from".toList ++ ' ' :: (d.target ++ '\n' :: ("where".toList ++ ' ' ::
      (d.clause.text ' ' write ++ [';'])))) := by
  unfold query PlainClause.parameters
  simp

/-- The words of the query that are no names and no values. -/
def queryWords : List Text := ["select", "from", "where", "and", "or"].map String.toList

/-- Names and values apart, the words of the query are its own. -/
theorem eachWord_query {P : Text → Prop} (hwrite : ∀ v, IsPlainWord (write v))
    (hplain : ∀ w, IsPlainWord w → P w) (hwords : ∀ w ∈ queryWords, P w) :
    EachWord P (d.query write) := by
  have hclause : EachWord P (d.clause.text ' ' write ++ [';']) := by
    refine PlainClause.eachWord_text hwrite hplain fun k => ?_
    cases k <;> exact hwords _ (by decide)
  have hname : ∀ (n : Name) {c : Char} {t : Text}, isWord c = false → EachWord P t →
      EachWord P (n.text ++ c :: t) := by
    intro n c t hc ht
    exact .append_word n.isPlainWord.isWord (hplain _ n.isPlainWord) (by simpa using hc) (ht.cons hc)
  have hword : ∀ w ∈ queryWords, ∀ {c : Char} {t : Text}, isWord c = false → EachWord P t →
      EachWord P (w ++ c :: t) := by
    intro w hw c t hc ht
    have hchars : ∀ w ∈ queryWords, ∀ c ∈ w, isWord c = true := by decide
    exact .append_word (hchars w hw) (hwords w hw) (by simpa using hc) (ht.cons hc)
  rw [query_eq, target, List.append_assoc, List.cons_append]
  refine hword _ (by decide) (by decide) (.cons (by decide) (.cons (by decide) ?_))
  refine hword _ (by decide) (by decide) (hname _ (by decide) (hname _ (by decide) ?_))
  exact hword _ (by decide) (by decide) hclause

/-- Nothing is dropped from the query. -/
theorem dropWords_query (hwrite : ∀ v, IsPlainWord (write v)) :
    dropWords (d.query write) = d.query write := by
  have hfirst : ∀ w ∈ queryWords, ∃ c rest, w = c :: rest ∧ sameLetter 'u' c = false ∧
      sameLetter 't' c = false := by
    intro w hw
    simp only [queryWords, List.map_cons, List.map_nil, List.mem_cons, List.not_mem_nil,
      or_false] at hw
    rcases hw with rfl | rfl | rfl | rfl | rfl <;> exact ⟨_, _, rfl, by decide, by decide⟩
  have husing : Grammar.usingKeyword.hasMatch (d.query write) = false := by
    refine EachWord.hasMatch_wholeWord using_letters ?_
    refine eachWord_query hwrite (fun w hw => hw.free _ (by decide)) fun w hw => ?_
    obtain ⟨c, rest, rfl, hc, -⟩ := hfirst w hw
    exact not_spells_of_head hc (List.append_nil _).symm
  have hmark : Profile.standard.stagingMark.hasMatch (d.query write) = false := by
    refine EachWord.hasMatch_mark ?_
    refine eachWord_query hwrite (fun w hw => hw.unmarked) fun w hw u v hsplit => ?_
    obtain ⟨c, rest, rfl, -, hc⟩ := hfirst w hw
    exact not_spells_of_head hc hsplit
  rw [dropWords, replaceAll_eq_self (by decide) husing, replaceAll_eq_self (by decide) hmark]

/-- Each connective gets a line of its own. -/
theorem breakLines_query (hwrite : ∀ v, IsPlainWord (write v)) :
    breakLines (d.query write) = d.laidOut write := by
  have hdivides := divides_lineStart
  have hgap : ∀ c, isWord c = true → Grammar.isGap c = false := fun c hc =>
    hdivides.not_gap_of_isWord hc
  have htarget : ∀ c ∈ d.target, Grammar.isGap c = false := by
    rw [target, List.forall_mem_append, List.forall_mem_cons]
    exact ⟨fun c hc => hgap c (d.schema.isPlainWord.isWord c hc), rfl,
      fun c hc => hgap c (d.table.isPlainWord.isWord c hc)⟩
  have hstart : ∀ t, (d.target ++ t).head?.any Grammar.isGap = false := by
    intro t
    obtain ⟨c, rest, hc⟩ := List.exists_cons_of_ne_nil d.schema.isPlainWord.ne_nil
    rw [target, hc]
    exact hgap c (d.schema.isPlainWord.isWord c (by simp [hc]))
  have hfrom : lineWord.Spells "from".toList := spells_of_readings (by decide)
  have hwhere : lineWord.Spells "where".toList := spells_of_readings (by decide)
  have hsegs := segmented_segments (p := Grammar.lineStart) (by decide) (d.query write)
  rw [breakLines_eq, replaceAll]
  generalize Grammar.lineStart.segments (d.query write) = segs at hsegs ⊢
  rw [query_eq] at hsegs
  obtain ⟨_, rfl, hselect⟩ := hdivides.past_solid hsegs (by decide) (by simp)
  have hasterisk : isWord '*' = false := by decide
  obtain ⟨_, rfl, hstar⟩ := hdivides.past_gap (w := []) hselect rfl rfl (by simp)
    (by simpa using hasterisk) (fun hk => (hdivides.letters hk).1 rfl)
  obtain ⟨_, rfl, hline⟩ := hdivides.past_solid (w := ['*']) hstar (by decide) (by simp)
  obtain ⟨m, _, rfl, hm, hat, hname⟩ := hdivides.past_key hline hfrom rfl rfl
    (hstart _)
  obtain ⟨_, rfl, hclause⟩ := hdivides.past_solid hname htarget (by simp)
  obtain ⟨m', _, rfl, hm', hat', hmore⟩ := hdivides.past_key hclause hwhere rfl rfl
    (by rw [PlainClause.text, List.append_assoc]; exact PlainClause.head?_comparison _ hgap _ _)
  have hfirst := lineOf_eq hat hm hfrom rfl rfl
  have hsecond := lineOf_eq hat' hm' hwhere rfl rfl
  have hrest := PlainClause.join_lineOf hwrite hmore
  unfold laidOut
  simp [Segment.join_append, hfirst, hsecond, hrest]

theorem layOut_query (hwrite : ∀ v, IsPlainWord (write v)) :
    layOut (d.query write) = d.laidOut write := by
  have hblank : isBlank ' ' = true := by decide
  have hstart : ∀ t, (d.target ++ t).head?.any isBlank = false := by
    intro t
    rw [target, List.append_assoc]
    exact head?_word ⟨d.schema.isPlainWord.ne_nil, d.schema.isPlainWord.isWord⟩ _
  have htarget : ' ' ∉ d.target ++ "\nwhere".toList := by
    have hname : ∀ n : Name, ' ' ∉ n.text := fun n hmem =>
      absurd (n.isPlainWord.isWord _ hmem) (by decide)
    simp [target, hname]
  have htext : d.laidOut write = "select".toList ++ ' ' :: ("*\nfrom".toList ++ ' ' ::
      (d.target ++ "\nwhere".toList ++ ' ' :: (d.clause.text '\n' write ++ [';']))) := by
    unfold laidOut
    simp
  have hspaced : SingleSpaced (d.laidOut write) := by
    have hclause := (PlainClause.singleSpaced_text (c := d.clause) hwrite).space hblank
      (by rw [PlainClause.text, List.append_assoc]
          exact PlainClause.head?_comparison _ (fun _ => isBlank_of_isWord) _ _)
    have hfrom := (SingleSpaced.append htarget hclause).space hblank (by rw [List.append_assoc]; exact hstart _)
    have hstar := (SingleSpaced.append (w := "*\nfrom".toList) (by decide) hfrom).space hblank
      (show isBlank '*' = false by decide)
    rw [htext]
    exact .append (by decide) hstar
  rw [layOut, breakLines_query hwrite, hspaced.collapseSpaces_eq]

/-! ## The record -/

/-- Reverting the query puts its literals back. -/
theorem HeldAs.revert_laidOut {h : Held} (hd : d.HeldAs h) {l : Ledger} (hl : l.IsStandard)
    (hmore : h.literals.Extends l) :
    l.revert (d.laidOut (Value.held h.literals)) = d.preview := by
  have htext : ∀ write, d.laidOut write = "select *\nfrom ".toList ++ (d.target ++ '\n' ::
      ("where ".toList ++ (d.clause.text '\n' write ++ [';']))) := by
    intro write
    unfold laidOut
    simp
  have hfront : ∀ c ∈ "select *\nfrom ".toList, EndsToken c := by decide
  have hwhere : ∀ c ∈ "where ".toList, EndsToken c := by decide
  have htarget : l.revert d.target = d.target := by
    refine revert_of_absent fun hwithin => hd.absent ?_
    rw [← hmore.format]
    refine hwithin.trans ?_
    unfold sql statement head
    exact ⟨"delete from ".toList, ' ' :: d.nickText ++ d.clause.parameters Value.text, by simp⟩
  have hbreak : EndsToken '\n' := by decide
  have hclause := PlainClause.revert_text hl (fun q hq => hd.revert_comparison hl hmore hq) hbreak
  rw [preview, htext, htext, hl.revert_front hfront, hl.revert_cut (by decide), htarget,
    hl.revert_front hwhere, hclause]

theorem notMem_query {x : Char} (hx : isClauseChar x = false) (hmark : x ∉ "*\n.;".toList)
    (hvalue : ∀ v, x ∉ write v) : x ∉ d.query write := by
  have hstatement : x ∉ d.statement write :=
    d.notMem_statement hx (fun hmem => hmark (by revert hmem; simp; tauto)) hvalue
  have htarget : x ∉ d.target := by
    intro hmem
    unfold statement head at hstatement
    simp [hmem] at hstatement
  have hselect : x ∉ "select *\nfrom ".toList := by
    intro hmem
    have hall : ∀ y ∈ "select *\nfrom ".toList, isClauseChar y = true ∨ y ∈ "*\n.;".toList := by
      decide
    rcases hall x hmem with hchar | hmem
    · rw [hchar] at hx
      cases hx
    · exact hmark hmem
  rw [statement, List.mem_append, not_or] at hstatement
  have hbreak : x ∉ "\n".toList := fun hmem => hmark (by simp_all)
  unfold query
  simp only [List.mem_append, not_or]
  exact ⟨⟨⟨hselect, htarget⟩, hbreak⟩, hstatement.2⟩

/-- Tidying and reverting the held query gives the preview. -/
theorem HeldAs.revert_tidy {h : Held} (hd : d.HeldAs h) (identifier : Text) :
    (tidy Profile.standard identifier
      { h with text := d.query (Value.held h.literals) }).revert = d.preview := by
  have hvalue : ∀ x, isWord x = false → ∀ v : Value, x ∉ v.held h.literals := by
    intro x hx v hmem
    rw [(hd.isPlainWord v).isWord x hmem] at hx
    cases hx
  have hcall := hasMatch_entityCall (notMem_query (d := d) (x := '(') (by decide) (by decide)
    (hvalue _ (by decide)))
  have htoken := hasMatch_entityToken (notMem_query (d := d) (x := ':') (by decide) (by decide)
    (hvalue _ (by decide)))
  have hinject : ∀ literals token, injectIdentifier Profile.standard literals token
      (d.query (Value.held h.literals)) = d.query (Value.held h.literals) := by
    intro literals token
    rw [Held.injectIdentifier_eq, replaceAll_eq_self (by decide) hcall,
      replaceAll_eq_self (by decide) htoken]
  rw [revert_tidy_eq, dropWords_query hd.isPlainWord, hinject, layOut_query hd.isPlainWord,
    hd.revert_subqueries]
  exact hd.revert_laidOut (hd.standard.holdLiteral (quoteLiteral identifier)).literals
    (hold_spec h.literals _).continues

theorem hasMatch_queryHead (d : PlainDelete) :
    Grammar.queryHead.hasMatch (d.preview.dropWhile isBlank) = true := by
  obtain ⟨rest, hrest⟩ : ∃ rest, d.preview = "select".toList ++ ' ' :: rest := by
    unfold preview laidOut
    exact ⟨_, rfl⟩
  have hdrop : d.preview.dropWhile isBlank = "select".toList ++ ' ' :: rest := by
    rw [hrest]
    exact List.dropWhile_cons_of_neg (by decide)
  rw [hdrop]
  refine hasMatch_iff.mpr ⟨[], "select".toList, ' ' :: rest, rfl, ?_⟩
  refine reads_chain_cons.mpr ⟨[], _, rfl, ⟨rfl, rfl⟩, ?_⟩
  refine reads_chain_cons.mpr ⟨_, [], (List.append_nil _).symm, Or.inl ?_, rfl, ?_⟩
  · exact Spells.reads (by decide) (spells_of_readings (by decide)) _ _
  · rw [atWordEdge_behind (by decide)]
    rfl

end PlainDelete

/-- A plain delete is converted into the query on the same rows: the same table, without the alias,
and the same clause, with each connective on a line of its own. -/
theorem convert_plainDelete (d : PlainDelete) (identifier : String)
    (h : Text.isBlank identifier.toList = false) :
    convert (String.ofList d.sql) identifier =
      .ok [⟨d.preview, false, "Delete statement converted successfully.".toList⟩] := by
  have hquote : '’' ∉ d.sql :=
    d.notMem_statement (by decide) (by decide) fun v => v.notMem_text (by decide)
  have hmem : Statement.ofText d.sql ∈ statementsOf ';' d.sql := by
    rw [d.statementsOf_sql]
    exact List.mem_singleton_self _
  have hrecord : (Job.standard d.sql identifier.toList).record (Statement.ofText d.sql) =
      ⟨d.preview, false, "Delete statement converted successfully.".toList⟩ := by
    rw [Job.record_of_query (Job.standard _ _) d.heldAs_standard.query_eq]
    have hpreview := d.heldAs_standard.revert_tidy (Job.standard d.sql identifier.toList).identifier
    refine (congrArg _ hpreview).trans ?_
    rw [Job.finish, if_pos d.hasMatch_queryHead]
    rfl
  have hrecords : (Job.standard d.sql identifier.toList).records =
      .ok [⟨d.preview, false, "Delete statement converted successfully.".toList⟩] := by
    refine Job.records_eq_ok_iff.mpr ⟨Job.missed?_eq_none_of_mem h hquote hmem, ?_⟩
    exact (congrArg _ d.statementsOf_sql).trans (congrArg (fun record => [record]) hrecord)
  rw [convert_eq, String.toList_ofList, hrecords]

/-- A delete with an alias, literals that hold a terminator and a connective, and a column that looks
like the token of a literal. -/
theorem convert_plainDelete_alias :
    convert "delete from s.t x where a = 'it;em' and STR_1 >= 10 or b != 'x and y';" "abc" =
      .ok [⟨"select *\nfrom s.t\nwhere a = 'it;em'\nand STR_1 >= 10\nor b != 'x and y';".toList,
        false, "Delete statement converted successfully.".toList⟩] :=
  convert_plainDelete
    { schema := ⟨"s".toList, by decide⟩
      table := ⟨"t".toList, by decide⟩
      nick := some ⟨"x".toList, by decide⟩
      clause :=
        { first := ⟨⟨"a".toList, by decide⟩, .eq, .literal "it;em".toList (by decide)⟩
          more := [
            (.and, ⟨⟨"STR_1".toList, by decide⟩, .ge, .number "10".toList (by decide)⟩),
            (.or, ⟨⟨"b".toList, by decide⟩, .ne, .literal "x and y".toList (by decide)⟩)] } }
    "abc" (by decide)

/-- A table name in capitals that looks like the staging mark loses the mark, which is found in any
letter case. -/
theorem convert_capital_mark :
    ("TMP_t".toList.head?.any Char.isAlpha = true ∧ (∀ c ∈ "TMP_t".toList, isNameChar c = true) ∧
      (∀ w ∈ reservedWords, Text.sameAscii "TMP_t".toList w = false) ∧
      ¬ "tmp_".toList <+: "TMP_t".toList) ∧
    convert "delete from s.TMP_t where a = 1;" "abc" ≠
      .ok [⟨"select *\nfrom s.TMP_t\nwhere a = 1;".toList, false,
        "Delete statement converted successfully.".toList⟩] := by
  refine ⟨by decide, ?_⟩
  decide +kernel

end MutationPreview
