import MutationPreview.Proofs.Batch.Cuts
import MutationPreview.Proofs.Held.RoundTrip
import MutationPreview.Proofs.Mutation.Keyword
import MutationPreview.Proofs.Text.AtEnd

/-!
# One terminator to a statement

A piece of a batch ends with its terminator and has no other one outside quotes
(`cutBatch_single`). The noise before a statement may hold quotes; if it holds an even number of
them, the quotes of the statement pair as they do in the batch, and the same is true of the
statement (`Statement.single_of_piece`). Then the held text has no other terminator either, and
the held subqueries have none (`Held.single_standard`).
-/

namespace MutationPreview

/-! ## Pieces -/

section Cut

variable {x : Char}

/-- A piece whose start lies inside quotes or outside them: it ends with the terminator, which comes
outside quotes at the end only, and a quote closes the quotes at its start. -/
structure Terminated (x : Char) (quoted : Bool) (piece : Text) : Prop where
  ends : ∃ u, piece = u ++ [x]
  single : Text.AtEnd x (outsideFrom quoted piece)
  closed : quoted = true → '\'' ∈ piece

/-- One step over a text: a character outside quotes is kept unless it opens some. -/
theorem outsideFrom_step (quoted : Bool) (c : Char) (t : Text) :
    outsideFrom quoted (c :: t) =
      if quoted = true ∨ quotedBehind quoted c t = true then outsideFrom (quotedBehind quoted c t) t
      else c :: outsideFrom false t := by
  cases quoted with
  | true => simp [outsideFrom, quotedBehind]
  | false =>
    by_cases hopen : c = '\'' ∧ '\'' ∈ t
    · simp [outsideFrom, quotedBehind, hopen]
    · have hbehind : quotedBehind false c t = false := by
        simpa [quotedBehind] using hopen
      simp [outsideFrom, hbehind, hopen]

/-- A character that is not cut off goes in front of the piece behind it. -/
theorem Terminated.cons (hx : x ≠ '\'') {quoted : Bool} {c : Char} {t piece : Text}
    (hcut : ¬ (c = x ∧ c ≠ '\'' ∧ quoted = false)) (hsub : piece ⊆ t)
    (h : Terminated x (quotedBehind quoted c t) piece) : Terminated x quoted (c :: piece) := by
  -- a quote that opens in the text opens in the piece, which reaches its other end
  have hsame : quotedBehind quoted c piece = quotedBehind quoted c t := by
    cases hopen : quotedBehind quoted c t with
    | true =>
      have hmem := h.closed hopen
      cases quoted <;> simp_all [quotedBehind]
    | false =>
      cases quoted with
      | true => simpa [quotedBehind] using hopen
      | false =>
        simp only [quotedBehind, Bool.false_eq_true, if_false, Bool.and_eq_false_iff] at hopen ⊢
        refine hopen.imp_right fun hnone => ?_
        simp only [List.contains_eq_mem, decide_eq_false_iff_not] at hnone ⊢
        exact fun hmem => hnone (hsub hmem)
  refine ⟨?_, ?_, ?_⟩
  · obtain ⟨u, rfl⟩ := h.ends
    exact ⟨c :: u, rfl⟩
  · rw [outsideFrom_step, hsame]
    split
    · exact h.single
    · rename_i hkept
      rw [not_or, Bool.not_eq_true, Bool.not_eq_true] at hkept
      have hc : x ≠ c := by
        rintro rfl
        exact hcut ⟨rfl, hx, hkept.1⟩
      have hsingle := h.single
      rw [hkept.2] at hsingle
      exact hsingle.append (u := [c]) (by simpa using hc)
  · rintro rfl
    by_cases hc : c = '\''
    · simp [hc]
    · exact List.mem_cons_of_mem _ (h.closed (by simpa [quotedBehind] using hc))

/-- All pieces that are cut are such pieces, and all but the first one start outside quotes. -/
theorem terminated_cutFrom (hx : x ≠ '\'') {quoted : Bool} {t : Text}
    (hquoted : quoted = true → '\'' ∈ t) {p : Text} {ps : List Text}
    (hpieces : (cutFrom x quoted t).pieces = p :: ps) :
    Terminated x quoted p ∧ ∀ piece ∈ ps, Terminated x false piece := by
  induction t generalizing quoted p ps with
  | nil => cases quoted <;> simp [cutFrom] at hpieces
  | cons c t ih =>
    have hbehind : quotedBehind quoted c t = true → '\'' ∈ t := by
      intro hopen
      cases quoted with
      | true =>
        have hc : c ≠ '\'' := by simpa [quotedBehind] using hopen
        exact (List.mem_cons.mp (hquoted rfl)).resolve_left fun h => hc h.symm
      | false =>
        have hopen : c = '\'' ∧ '\'' ∈ t := by simpa [quotedBehind] using hopen
        exact hopen.2
    have hwhole := whole_cutFrom (x := x) (quotedBehind quoted c t) t
    rw [cutFrom_cons] at hpieces
    dsimp only at hpieces
    split at hpieces
    · rename_i hcut
      obtain ⟨rfl, hc, rfl⟩ := hcut
      rw [List.cons.injEq] at hpieces
      obtain ⟨rfl, rfl⟩ := hpieces
      refine ⟨⟨⟨[], rfl⟩, by simp [outsideFrom, hc, Text.AtEnd], by simp⟩, fun piece hmem => ?_⟩
      -- behind the terminator no quote is open
      have hopen : quotedBehind false c t = false := by simp [quotedBehind, hc]
      obtain ⟨q, qs, hothers⟩ := List.exists_cons_of_ne_nil (List.ne_nil_of_mem hmem)
      obtain ⟨hq, hqs⟩ := ih hbehind hothers
      rw [hopen] at hq
      rw [hothers] at hmem
      rcases List.mem_cons.mp hmem with rfl | hmem
      · exact hq
      · exact hqs piece hmem
    · rename_i hcut
      cases hothers : cutFrom x (quotedBehind quoted c t) t with
      | mk pieces rest =>
        cases pieces with
        | nil => simp [hothers, Pieces.push] at hpieces
        | cons q qs =>
          rw [hothers, Pieces.push, List.cons.injEq] at hpieces
          obtain ⟨rfl, rfl⟩ := hpieces
          obtain ⟨hq, hqs⟩ := ih hbehind (congrArg Pieces.pieces hothers)
          have hsub : q ⊆ t := by
            intro d hd
            rw [← hwhole, hothers]
            simp [hd]
          exact ⟨hq.cons hx hcut hsub, hqs⟩

/-- A piece of a batch ends with the terminator and has no other one outside quotes. -/
theorem cutBatch_single (hx : x ≠ '\'') {batch piece : Text}
    (h : piece ∈ (cutBatch x batch).pieces) :
    (∃ u, piece = u ++ [x]) ∧ Text.AtEnd x (outsideQuotes piece) := by
  rw [cutBatch] at h
  obtain ⟨p, ps, hpieces⟩ := List.exists_cons_of_ne_nil (List.ne_nil_of_mem h)
  obtain ⟨hfirst, hrest⟩ := terminated_cutFrom hx (by simp) hpieces
  have hpiece : Terminated x false piece := by
    rw [hpieces] at h
    rcases List.mem_cons.mp h with rfl | h
    · exact hfirst
    · exact hrest piece h
  exact ⟨hpiece.ends, hpiece.single⟩

end Cut

/-! ## Statements -/

/-- A statement is its piece without the noise at the start. If that holds an even number of quotes,
the terminator still comes outside quotes at the end only. -/
theorem Statement.single_of_piece {piece : Text} {s : Statement}
    (hends : ∃ u, piece = u ++ [';']) (hsingle : Text.AtEnd ';' (outsideQuotes piece))
    (hs : Statement.ofPiece? ';' piece = some s) :
    (∃ u, s.sql = u ++ [';']) ∧
      ((piece.takeWhile isNoise).count '\'' % 2 = 0 → Text.AtEnd ';' (outsideQuotes s.sql)) := by
  obtain ⟨u, rfl⟩ := hends
  have hsql : s.sql = u.dropWhile isNoise ++ [';'] := by
    rw [Statement.ofPiece?] at hs
    split at hs
    · cases hs
    · rw [← Option.some.inj hs, Statement.ofText, Text.trim_append_singleton (by decide)]
  refine ⟨⟨_, hsql⟩, fun hnoise => ?_⟩
  have hdrop : (u ++ [';']).dropWhile isNoise = s.sql := by
    rw [hsql, List.dropWhile_append]
    split
    · rename_i hnil
      have hnil : u.dropWhile isNoise = [] := by simpa using hnil
      rw [hnil]
      rfl
    · rfl
  rw [← List.takeWhile_append_dropWhile (p := isNoise) (l := u ++ [';']),
    outsideQuotes_append hnoise, hdrop] at hsingle
  exact hsingle.stretch (List.suffix_append _ _).isInfix

/-! ## Joined lines -/

theorem joinLine_eq_iff {c d : Char} (hd : d ∈ ";'".toList) : joinLine c = d ↔ c = d := by
  have hnot : d ≠ ' ' ∧ d ≠ '\r' ∧ d ≠ '\n' := by
    have hall : ∀ d ∈ ";'".toList, d ≠ ' ' ∧ d ≠ '\r' ∧ d ≠ '\n' := by decide
    exact hall d hd
  rw [joinLine]
  split
  · rename_i hc
    simp only [Bool.or_eq_true, beq_iff_eq] at hc
    constructor
    · exact fun h => absurd h.symm hnot.1
    · rintro rfl
      exact absurd hc (by simp [hnot])
  · rfl

theorem outsideFrom_map_joinLine (quoted : Bool) (t : Text) :
    outsideFrom quoted (t.map joinLine) = (outsideFrom quoted t).map joinLine := by
  have hquote : ∀ c, joinLine c = '\'' ↔ c = '\'' := fun c => joinLine_eq_iff (by decide)
  have hmem : ∀ u : Text, '\'' ∈ u.map joinLine ↔ '\'' ∈ u := by
    intro u
    simp [hquote]
  induction t generalizing quoted with
  | nil => cases quoted <;> rfl
  | cons c t ih =>
    have hbehind : quotedBehind quoted (joinLine c) (t.map joinLine) = quotedBehind quoted c t := by
      rw [Bool.eq_iff_iff]
      cases quoted <;> simp [quotedBehind, hquote]
    rw [List.map_cons, outsideFrom_step, outsideFrom_step, hbehind, ih, ih]
    split <;> rfl

/-- Joining the lines of a text that ends with the terminator drops nothing but spaces at its start. -/
theorem exists_spaces_joinLines {u : Text} :
    ∃ spaces, (u ++ [';']).map joinLine = spaces ++ joinLines (u ++ [';']) ∧
      (∀ c ∈ spaces, c = ' ') ∧ ∃ v, joinLines (u ++ [';']) = v ++ [';'] := by
  have hjoin : joinLines (u ++ [';']) = (u.map joinLine).dropWhile (· == ' ') ++ [';'] := by
    rw [joinLines_eq, List.map_append]
    exact Text.trim_append_singleton (by decide)
  refine ⟨(u.map joinLine).takeWhile (· == ' '), ?_, ?_, _, hjoin⟩
  · rw [hjoin, ← List.append_assoc, List.takeWhile_append_dropWhile, List.map_append]
    rfl
  · intro c hc
    simpa using List.mem_takeWhile_imp hc

/-- Joining lines leaves the terminators and the quotes as they are. -/
theorem single_joinLines {raw : Text} (hends : ∃ u, raw = u ++ [';']) :
    (∃ v, joinLines raw = v ++ [';']) ∧
      (Text.AtEnd ';' (outsideQuotes raw) → Text.AtEnd ';' (outsideQuotes (joinLines raw))) ∧
      (joinLines raw).count '\'' = raw.count '\'' := by
  obtain ⟨u, rfl⟩ := hends
  obtain ⟨spaces, hmap, hspaces, v, hv⟩ := exists_spaces_joinLines (u := u)
  have hquote : '\'' ∉ spaces := fun hmem => absurd (hspaces _ hmem) (by decide)
  refine ⟨⟨v, hv⟩, fun hsingle => ?_, ?_⟩
  · have hmapped : Text.AtEnd ';' (outsideQuotes ((u ++ [';']).map joinLine)) := by
      rw [outsideQuotes, outsideFrom_map_joinLine, Text.AtEnd, ← List.map_dropLast]
      intro hmem
      obtain ⟨c, hc, hjoin⟩ := List.mem_map.mp hmem
      rw [joinLine_eq_iff (by decide)] at hjoin
      exact hsingle (hjoin ▸ hc)
    rw [hmap, outsideQuotes_append_of_notMem hquote] at hmapped
    exact hmapped.stretch (List.suffix_append _ _).isInfix
  · have hcount : ((u ++ [';']).map joinLine).count '\'' = (u ++ [';']).count '\'' := by
      rw [List.count_eq_countP, List.countP_map, List.count_eq_countP]
      refine List.countP_congr fun c _ => ?_
      simp [joinLine_eq_iff]
    rw [← hcount, hmap, List.count_append, List.count_eq_zero.mpr hquote, Nat.zero_add]

/-! ## Held text -/

/-- A token has a character of its format or a digit. -/
theorem TokenFormat.notMem_avoiding_token {f : TokenFormat} {x : Char}
    (hx : x ∉ f.lead ++ '_' :: f.trail) (hdigit : x.isDigit = false) (t : Text) (n : Nat) :
    x ∉ (f.avoiding t).token n := by
  obtain ⟨k, hk⟩ := f.exists_avoiding_lead t
  simp only [List.mem_append, List.mem_cons, not_or] at hx
  rw [TokenFormat.mem_token, hk, TokenFormat.avoiding_trail]
  rintro (hmem | hmem | hmem)
  · rcases List.mem_append.mp hmem with hmem | hmem
    · exact hx.1 hmem
    · exact hx.2.1 (List.mem_replicate.mp hmem).2
  · rw [Text.isDigit_of_mem_ofNat hmem] at hdigit
    cases hdigit
  · exact hx.2.2 hmem

theorem count_inQuotes {content : Text} (h : '\'' ∉ content) :
    (inQuotes content).count '\'' = 2 := by
  simp [inQuotes, List.count_eq_zero.mpr h]

/-- A quote outside all spans makes the number of quotes odd. -/
theorem Paired.count_odd {t : Text} {segs : List (Segment Match)} (h : Paired t segs)
    (hplain : .plain '\'' ∈ segs) : t.count '\'' % 2 = 1 := by
  induction h with
  | nil => simp at hplain
  | other hc _ ih =>
    have hcount := ih (by simpa [hc.symm] using hplain)
    rwa [List.count_cons_of_ne hc]
  | unclosed hnone _ _ => simp [List.count_eq_zero.mpr hnone]
  | span hcontent _ _ ih =>
    have hcount := ih (by simpa using hplain)
    rw [List.count_append, count_inQuotes hcontent]
    omega

namespace Held

/-- The terminator and the quote, which are no part of a token. -/
def marks : Text := ";'".toList

theorem mark_notMem_token {x : Char} (hx : x ∈ marks) :
    x ∉ Profile.standard.literalFormat.lead ++ '_' :: Profile.standard.literalFormat.trail ∧
      x ∉ Profile.standard.subqueryFormat.lead ++ '_' :: Profile.standard.subqueryFormat.trail ∧
      x.isDigit = false ∧ x ≠ ')' := by
  have hall : ∀ x ∈ marks,
      x ∉ Profile.standard.literalFormat.lead ++ '_' :: Profile.standard.literalFormat.trail ∧
      x ∉ Profile.standard.subqueryFormat.lead ++ '_' :: Profile.standard.subqueryFormat.trail ∧
      x.isDigit = false ∧ x ≠ ')' := by decide
  exact hall x hx

/-- Holding subqueries moves no mark, and takes none from the end of the text. -/
theorem keeps_subqueries {x : Char} (hx : x ∈ marks) {t text : Text} {l : Ledger}
    (h : Ledger.HoldSpansSpec Subquery.cover ⟨Profile.standard.subqueryFormat.avoiding t, []⟩
      (Subquery.segments t) l text) :
    Text.Keeps x t text ∧ (Text.AtEnd x t → ∀ v ∈ l.values, x ∉ v) := by
  obtain ⟨-, htoken, hdigit, hclose⟩ := mark_notMem_token hx
  constructor
  · have hkeeps : Text.Keeps x (Segment.join Subquery.cover (Subquery.segments t))
        (Segment.join (fun body => l.tokenOf (Subquery.cover body)) (Subquery.segments t)) := by
      refine Segment.keeps_join (by simp [Subquery.cover]) fun body _ => Or.inr ?_
      rw [Ledger.tokenOf, h.continues.format]
      exact TokenFormat.notMem_avoiding_token htoken hdigit _ _
    rwa [Subquery.join_segments, ← h.text_eq] at hkeeps
  · intro hend v hv
    rcases h.only v hv with hnil | ⟨body, hbody, rfl⟩
    · simp at hnil
    · -- a subquery ends with its bracket
      have hinfix := Segment.infix_join Subquery.cover hbody
      rw [Subquery.join_segments] at hinfix
      have hcover := Text.atEnd_concat_iff.mp (hend.stretch hinfix)
      rw [Subquery.cover, List.mem_append]
      rintro (hmem | hmem)
      · exact hcover hmem
      · exact hclose (by simpa using hmem)

/-- If a text has its terminator outside quotes at the end only, so has its held form, and the held
subqueries have none. -/
theorem single_standard {raw : Text} (hends : ∃ u, joinLines raw = u ++ [';'])
    (hsingle : Text.AtEnd ';' (outsideQuotes (joinLines raw))) :
    Text.AtEnd ';' (Held.standard raw).text ∧
      ∀ v ∈ (Held.standard raw).subqueries.values, ';' ∉ v := by
  obtain ⟨t, hlit, hsub⟩ := literals_spec raw
  obtain ⟨u, hu⟩ := hends
  have hpaired := paired_segments (joinLines raw)
  have hspans : ∀ m ∈ Segment.spans (Grammar.literal.segments (joinLines raw)),
      ∃ v c, Match.text m = v ++ [c] ∧ c ≠ ';' := by
    intro m hm
    obtain ⟨content, -, htext⟩ := hpaired.text_of_mem hm
    exact ⟨'\'' :: content, '\'', htext, by decide⟩
  obtain ⟨segs, hsegs, -⟩ := Segment.exists_concat_plain hspans (hpaired.join_eq.trans hu)
  have hend : Text.AtEnd ';' t := by
    rw [← hpaired.join_nil, hsegs, Segment.join_append, Segment.join_plain, Segment.join_nil,
      Text.atEnd_concat_iff, Segment.mem_join] at hsingle
    rw [hlit.text_eq, hsegs, Segment.join_append, Segment.join_plain, Segment.join_nil,
      Text.atEnd_concat_iff, Segment.mem_join]
    rintro (hplain | ⟨m, -, hmem⟩)
    · exact hsingle (Or.inl hplain)
    · rw [Ledger.tokenOf, hlit.continues.format] at hmem
      exact TokenFormat.notMem_avoiding_token (mark_notMem_token (by decide)).1 (by decide) _ _ hmem
  obtain ⟨hkeeps, hvalues⟩ := keeps_subqueries (x := ';') (by decide) hsub
  exact ⟨hkeeps.atEnd hend, hvalues hend⟩

/-- If all quotes of a text are closed, its held form has no quote outside the literals. -/
theorem quote_notMem_standard {raw : Text} (heven : (joinLines raw).count '\'' % 2 = 0) :
    '\'' ∉ (Held.standard raw).text ∧ ∀ v ∈ (Held.standard raw).subqueries.values, '\'' ∉ v := by
  obtain ⟨t, hlit, hsub⟩ := literals_spec raw
  have hnone : '\'' ∉ t := by
    rw [hlit.text_eq, Segment.mem_join]
    rintro (hplain | ⟨m, -, hmem⟩)
    · have hodd := (paired_segments (joinLines raw)).count_odd hplain
      omega
    · rw [Ledger.tokenOf, hlit.continues.format] at hmem
      exact TokenFormat.notMem_avoiding_token (mark_notMem_token (by decide)).1 (by decide) _ _ hmem
  obtain ⟨hkeeps, hvalues⟩ := keeps_subqueries (x := '\'') (by decide) hsub
  exact ⟨hkeeps.notMem hnone, hvalues (Text.atEnd_of_notMem hnone)⟩

end Held

end MutationPreview
