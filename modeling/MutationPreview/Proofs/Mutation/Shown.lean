import MutationPreview.Proofs.Tidy.Tokens

/-!
# Previews around their subqueries

The subqueries of a delete or an update are held while the preview is tidied, so tidying reaches the
text around them and not their own text. The query of a merge is the body of a subquery, in which
nothing is held but literals, so that tidying reaches it at every depth.

Main statement: a preview is the text of a tidied query with subqueries put back at some places, and
with tokens at these places it is reached (`Job.isReached_of_record`).
-/

namespace MutationPreview

open Pattern Ledger

/-- A query that tidying can read: there is no quote in it, no word carries the staging mark twice,
and once words are dropped its literals keep apart from the words that tidying looks for. -/
structure Held.Clean (q : Held) (identifier : Text) : Prop where
  unquoted : '\'' ∉ q.text
  marked_once : (Grammar.stagingMark "tmp_tmp_".toList).hasMatch q.text = false
  apart : (q.literals.hold (quoteLiteral identifier)).1.KeepsApart (dropWords q.text)

instance (q : Held) : DecidablePred q.Clean := fun identifier =>
  decidable_of_iff ('\'' ∉ q.text ∧
      (Grammar.stagingMark "tmp_tmp_".toList).hasMatch q.text = false ∧
      (q.literals.hold (quoteLiteral identifier)).1.KeepsApart (dropWords q.text))
    ⟨fun ⟨hquote, hmark, hapart⟩ => ⟨hquote, hmark, hapart⟩,
      fun h => ⟨h.unquoted, h.marked_once, h.apart⟩⟩

/-- The text of a held subquery with its literals put back. -/
def Held.shown (q : Held) (i : Nat) : Text := q.literals.revert (q.subqueries.valueAt i)

/-! ## Tidied queries -/

theorem outsideQuotes_quoteLiteral (value : Text) : outsideQuotes (quoteLiteral value) = [] := by
  have hnone := isQuoted_quoteLiteral value []
  rwa [List.append_nil] at hnone

/-- A token of a subquery is not read as one of a literal. -/
theorem Ledger.IsBracketed.revert_token {sub l : Ledger} {n : Nat} (hsub : sub.IsBracketed n)
    (hl : l.IsStandard) (i : Nat) : l.revert (sub.format.token i) = sub.format.token i := by
  obtain ⟨k, hk⟩ := hl.exists_format
  refine Ledger.revert_of_absent fun hwithin => ?_
  have hletter : 'T' ∈ sub.format.token i := hwithin.subset (by rw [hk]; simp)
  rw [TokenFormat.mem_token, hsub, List.mem_append, List.mem_replicate] at hletter
  rcases hletter with (hlead | hlead) | hdigit | htrail
  · exact absurd hlead (by decide)
  · exact absurd hlead.2 (by decide)
  · exact absurd (Text.isDigit_of_mem_ofNat hdigit) (by decide)
  · have hclose : 'T' ∈ ")".toList := htrail
    exact absurd hclose (by decide)

theorem tidy_subqueries (identifier : Text) (q : Held) :
    (tidy Profile.standard identifier q).subqueries = q.subqueries := rfl

namespace Held.Clean

variable {q : Held} {identifier : Text}

/-- Tidying reaches all of the text in which subqueries are held. -/
theorem isReached_outer (h : q.Clean identifier) (hq : q.IsStandard)
    (hvalues : q.literals.Quoted) :
    IsReached identifier ((tidy Profile.standard identifier q).literals.revert
      (tidy Profile.standard identifier q).text) := by
  have hspec := Ledger.hold_spec q.literals (quoteLiteral identifier)
  have hl : (q.literals.hold (quoteLiteral identifier)).1.IsStandard :=
    (hq.holdLiteral (quoteLiteral identifier)).literals
  have hquote : '\'' ∉ layOut (injectIdentifier Profile.standard
      (q.literals.hold (quoteLiteral identifier)).1 (q.literals.hold (quoteLiteral identifier)).2
      (dropWords q.text)) := (keeps_tidy (by decide) hq identifier).notMem h.unquoted
  change IsReached identifier ((q.literals.hold (quoteLiteral identifier)).1.revert
    (layOut (injectIdentifier Profile.standard (q.literals.hold (quoteLiteral identifier)).1
      (q.literals.hold (quoteLiteral identifier)).2 (dropWords q.text))))
  have hapart := h.apart
  generalize q.literals.hold (quoteLiteral identifier) = held at hspec hl hquote hapart ⊢
  obtain ⟨l, token⟩ := held
  obtain rfl : token = l.tokenOf (quoteLiteral identifier) := hspec.token_eq
  dsimp only [Ledger.tokenOf] at hspec hl hquote hapart ⊢
  have hmark := unmarked_dropWords ((unmarked_iff two_marks_letters).mpr h.marked_once)
  have hsettled := settled_injectIdentifier (k := l.values.idxOf (quoteLiteral identifier)) hl
    hapart hmark
  refine (layOut_preserves (fun hu => Settled.respaced hl hu) hsettled).isReached hl hquote ?_
    hspec.held
  intro v hv
  rcases hspec.only v hv with hv | rfl
  · exact hvalues v hv
  · exact ⟨by simp [quoteLiteral], outsideQuotes_quoteLiteral identifier⟩

/-- A preview is a text that tidying has reached, with subqueries put back for tokens in it. -/
theorem exists_places (h : q.Clean identifier) (hq : q.IsStandard) (hvalues : q.literals.Quoted)
    (hcovers : ∀ v ∈ q.subqueries.values, ∃ body, v = Subquery.cover body) :
    ∃ places : List (Segment Nat),
      (tidy Profile.standard identifier q).revert =
        Segment.join (tidy Profile.standard identifier q).shown places ∧
      (∀ i ∈ Segment.spans places, i < q.subqueries.values.length) ∧
      IsReached identifier
        (Segment.join (fun i => q.subqueries.format.token (i + 1)) places) := by
  have hreached := h.isReached_outer hq hvalues
  have hl : (tidy Profile.standard identifier q).literals.IsStandard :=
    (hq.holdLiteral (quoteLiteral identifier)).literals
  obtain ⟨n, hsub⟩ := hq.exists_isBracketed
  have hne : q.subqueries.format.lead ≠ [] := by
    rw [hsub]
    simp
  -- the places of the tokens in the tidied text, and then where they are once literals are back
  obtain ⟨segs, hlt, htext, hrevert⟩ := Ledger.exists_places hne q.subqueries.values.length
    (tidy Profile.standard identifier q).text
  obtain ⟨places, hspans, hplaces⟩ := hl.exists_revert_join segs
  refine ⟨places, ?_, by rwa [hspans], ?_⟩
  · rw [Held.revert, tidy_subqueries, hrevert q.subqueries ⟨rfl, rfl⟩]
    exact hplaces _ fun i hi => hcovers _ (valueAt_mem (hlt i hi))
  · rw [← htext, hplaces _ fun i _ => ?_] at hreached
    · have hsame : (fun i => (tidy Profile.standard identifier q).literals.revert
          (q.subqueries.format.token (i + 1))) = fun i => q.subqueries.format.token (i + 1) :=
        funext fun i => hsub.revert_token hl (i + 1)
      rwa [hsame] at hreached
    · refine ⟨"SUB_".toList ++ List.replicate n '_' ++ Text.ofNat (i + 1), ?_⟩
      rw [TokenFormat.token, hsub]
      simp [Subquery.cover]

/-- Where no token of a subquery stands and no mark hides one, tidying reaches all of the preview. -/
theorem isReached (h : q.Clean identifier) (hq : q.IsStandard) (hvalues : q.literals.Quoted)
    (hnone : q.subqueries.tokensIn q.text = []) (hmark : q.subqueries.HidesNoToken q.text) :
    IsReached identifier (tidy Profile.standard identifier q).revert := by
  obtain ⟨lead, hlead⟩ := hq.exists_bracket_lead
  have htidy := hq.tokensIn_tidy identifier
  rw [hmark, hnone] at htidy
  rw [Held.revert, tidy_subqueries, revert_of_tokensIn_eq_nil (by simp [hlead]) htidy]
  exact h.isReached_outer hq hvalues

end Held.Clean

/-! ## Merges -/

/-- Nothing is held in the source of a merge but literals. -/
theorem Held.absent_mergeSource {raw text : Text}
    (h : mergeSource? (Held.standard raw) = some text) :
    ¬ (Held.standard raw).subqueries.format.lead <:+: text := by
  obtain ⟨t, -, hsub⟩ := literals_spec raw
  obtain ⟨m, -, h⟩ := Option.bind_eq_some_iff.mp h
  obtain ⟨source, -, h⟩ := Option.bind_eq_some_iff.mp h
  obtain ⟨subquery, hget, h⟩ := Option.bind_eq_some_iff.mp h
  obtain ⟨i, hi, -⟩ := Ledger.get?_eq_some_iff.mp hget
  rcases hsub.only _ (List.mem_of_getElem? hi) with hnil | ⟨body, hbody, rfl⟩
  · simp at hnil
  · rw [stripBrackets_cover] at h
    obtain rfl := Option.some.inj h
    intro hwithin
    have htrim : Text.trimBlank body <:+: body := by
      obtain ⟨front, back, heq, -, -⟩ := Text.exists_eq_trim isBlank body
      exact ⟨front, back, heq.symm⟩
    have hcover : body <:+: Subquery.cover body := ⟨['('], [')'], by simp [Subquery.cover]⟩
    have hspan := Segment.infix_join Subquery.cover hbody
    rw [Subquery.join_segments] at hspan
    rw [hsub.continues.format] at hwithin
    exact TokenFormat.avoiding_absent _ _ (((hwithin.trans htrim).trans hcover).trans hspan)

/-! ## Records -/

namespace Job

variable {batch identifier : Text} {s : Statement}

/-- A converted statement with a clean query is previewed as the tidied query. With the tokens of its
subqueries in their places, no entity token and no mark is left outside quotes, and every entity call
has the identifier; the preview of a merge is so with everything put back, unless a mark hides the
token of a subquery. -/
theorem isReached_of_record
    (hrecord : ((Job.standard batch identifier).record s).isError = false)
    (hclean : ∀ query, s.query Profile.standard = .ok query →
      query.Clean (Job.standard batch identifier).identifier) :
    ∃ query places, s.query Profile.standard = .ok query ∧
      ((Job.standard batch identifier).record s).sql = Segment.join
        (tidy Profile.standard (Job.standard batch identifier).identifier query).shown places ∧
      (∀ i ∈ Segment.spans places, i < query.subqueries.values.length) ∧
      IsReached (Job.standard batch identifier).identifier
        (Segment.join (fun i => query.subqueries.format.token (i + 1)) places) ∧
      (s.kind = .merge → query.subqueries.HidesNoToken query.text →
        IsReached (Job.standard batch identifier).identifier
          ((Job.standard batch identifier).record s).sql) := by
  obtain ⟨mutation, report, query, hconverts, hsql, -⟩ :=
    exists_converts (preview_of_record hrecord)
  replace hconverts : (Job.standard batch identifier).Converts s (Held.standard s.sql) mutation
    report query := hconverts
  have hq : query.IsStandard := hconverts.isStandard
  have hvalues : query.literals.Quoted := by
    rw [hconverts.literals_eq]
    intro v hv
    obtain ⟨content, hcontent, rfl⟩ := Held.quoted_literals s.sql v hv
    have hnone := isQuoted_inQuotes hcontent []
    rw [List.append_nil] at hnone
    exact ⟨by simp [inQuotes], hnone⟩
  have hcovers : ∀ v ∈ query.subqueries.values, ∃ body, v = Subquery.cover body := by
    rw [hconverts.subqueries_eq]
    exact Held.covers_standard s.sql
  have hquery := hclean query hconverts.query_eq
  obtain ⟨places, hplaces, hlt, hreached⟩ :=
    hquery.exists_places hq hvalues hcovers
  refine ⟨query, places, hconverts.query_eq, hsql.trans hplaces, hlt, hreached, ?_⟩
  intro hkind hmark
  obtain rfl : mutation = .merge := hconverts.mutation_eq hkind
  obtain ⟨lead, hlead⟩ := hq.exists_bracket_lead
  have hnone : query.subqueries.tokensIn query.text = [] := by
    refine Ledger.tokensIn_of_absent (by simp [hlead]) ?_
    have hsource := Held.absent_mergeSource (mergeSource_of_select hconverts.select_eq.1)
    rwa [hconverts.subqueries_eq]
  rw [hsql]
  exact hquery.isReached hq hvalues hnone hmark

/-- A merge with a mark in its source, and entity expressions in a subquery of it. -/
theorem isReached_of_record_nested :
    let batch := "merge into s.t using (select a from tmp_u where b in (select c from v ".toList ++
      "where d = :entityid and e = toentityid ('k') and f = N'it''s')) on (1=1) ".toList ++
      "when matched then delete;".toList
    let record := (Job.standard batch "a'b".toList).record (Statement.ofText batch)
    record.sql = "select a\nfrom u\nwhere b in (select c\nfrom v\nwhere ".toList ++
        "d = toentityid('A''B')\nand e = toentityid('A''B')\nand f = N'it''s')".toList ∧
      IsReached "A'B".toList record.sql := by
  -- the kernel decodes a string slowly
  repeat rw [String.toList_ofList]
  intro batch record
  have hrecord : record.isError = false := by decide +kernel
  have hclean : ∀ query, (Statement.ofText batch).query Profile.standard = .ok query →
      query.Clean (Job.standard batch "a'b".toList).identifier ∧
        query.subqueries.HidesNoToken query.text := by
    intro query hquery
    have hall : (((Statement.ofText batch).query Profile.standard).toOption.all
        fun q => decide (q.Clean (Job.standard batch "a'b".toList).identifier ∧
          q.subqueries.HidesNoToken q.text)) = true := by
      decide +kernel
    rw [hquery] at hall
    simpa [Except.toOption] using hall
  obtain ⟨query, places, hquery, -, -, -, hmerge⟩ :=
    isReached_of_record hrecord fun query hquery => (hclean query hquery).1
  have hreached := hmerge (by decide +kernel) (hclean query hquery).2
  exact ⟨by decide +kernel, hreached⟩

/-- Converted statements that tidying does not reach all of: a subquery of a delete stays held, a mark
that comes twice is dropped once, a literal right before a mark or a call, or right behind an entity
token, makes one word of both, two literals side by side are no argument, dropping a mark spells the
token of a subquery, and an open quote pairs with the one before the identifier. -/
theorem entity_not_reached :
    (∀ entry ∈ [
      ("delete from s.t where a in (select b from u where c = :entityid);", "abc"),
      ("delete from s.t where a = :entityid'k';", "abc"),
      ("delete from s.t where a = 1' and b = :entityid;", ":entityid")],
      let batch := entry.1.toList
      let job := Job.standard batch entry.2.toList
      let record := job.record (Statement.ofText batch)
      job.statements = [Statement.ofText batch] ∧ record.isError = false ∧
        Profile.standard.entityToken.MatchesOutside record.sql) ∧
    (∀ entry ∈ [
      "delete from s.t where a in (select b from tmp_s.u where c = 1);",
      "delete from s.tmp_tmp_t where a = 1;",
      "delete from s.t where a = 'k'tmp_b;",
      "merge into s.t using (select a from (tmp_SUB_1)) on (1=1) when matched then delete;"],
      let batch := entry.toList
      let record := (Job.standard batch "abc".toList).record (Statement.ofText batch)
      (Job.standard batch "abc".toList).statements = [Statement.ofText batch] ∧
        record.isError = false ∧ Profile.standard.stagingMark.MatchesOutside record.sql) ∧
    (∀ entry ∈ [
      ("delete from s.t where a in (select b from u where c = toentityid('k'));",
        "select *\nfrom s.t\nwhere a in (select b from u where c = ", "'k'", ");"),
      ("delete from s.t where a = 'j'toentityid('k');", "select *\nfrom s.t\nwhere a = 'j'", "'k'",
        ";"),
      ("delete from s.t where a = toentityid('j''k');", "select *\nfrom s.t\nwhere a = ", "'j''k'",
        ";")],
      let batch := entry.1.toList
      let record := (Job.standard batch "abc".toList).record (Statement.ofText batch)
      (Job.standard batch "abc".toList).statements = [Statement.ofText batch] ∧
        record.isError = false ∧
        record.sql = entry.2.1.toList ++ ("toentityid(".toList ++ (entry.2.2.1.toList ++
          (')' :: entry.2.2.2.toList))) ∧
        entry.2.2.1.toList ≠ quoteLiteral "ABC".toList) := by
  -- the kernel decodes a string slowly
  simp only [List.forall_mem_cons]
  repeat rw [String.toList_ofList]
  decide +kernel

end Job

end MutationPreview
