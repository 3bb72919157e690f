import MutationPreview.Proofs.Clause.Accepted
import MutationPreview.Proofs.Held.RoundTrip
import MutationPreview.Proofs.Predicate.Decisive
import MutationPreview.Proofs.Subquery

/-!
# Literals and the acceptance of parameters

The parameters of a statement are cut into fragments while their literals are held, and each
fragment is checked with its literals put back. So the contents of literals have a say in what is
accepted, unless the literals are inert.

Main statement: a held statement accepts the same parameters as every statement that differs from
it in inert literals only, exactly when its own literals are inert (`Held.sameVerdict_iff_inert`).
-/

namespace MutationPreview

/-! ## Ledgers with the same tokens -/

/-- Underscores before two texts that do not start with one are counted. -/
theorem underscores_inj {k k' : Nat} {a b : Text} (ha : a.head? ≠ some '_')
    (hb : b.head? ≠ some '_')
    (h : List.replicate k '_' ++ a = List.replicate k' '_' ++ b) : k = k' := by
  induction k generalizing k' with
  | zero =>
    cases k' with
    | zero => rfl
    | succ k' =>
      have hhead := congrArg List.head? h
      simp [List.replicate_succ] at hhead
      exact absurd hhead ha
  | succ k ih =>
    cases k' with
    | zero =>
      have hhead := congrArg List.head? h
      simp [List.replicate_succ] at hhead
      exact absurd hhead.symm hb
    | succ k' =>
      rw [List.replicate_succ, List.replicate_succ, List.cons_append, List.cons_append,
        List.cons.injEq] at h
      rw [ih h.2]

theorem head?_ofNat_ne (n : Nat) : (Text.ofNat n).head? ≠ some '_' := by
  intro hhead
  have hdigit := Text.isDigit_of_mem_ofNat (List.mem_of_mem_head? hhead)
  exact absurd hdigit (by decide)

namespace Ledger

/-- Whether the tokens are those of literals under the default configuration, with the lead
lengthened as some text demands. -/
def IsStandard (l : Ledger) : Prop :=
  ∃ t, l.format = Profile.standard.literalFormat.avoiding t

theorem IsStandard.exists_format {l : Ledger} (h : l.IsStandard) :
    ∃ k, l.format = ⟨"STR_".toList ++ List.replicate k '_', []⟩ := by
  obtain ⟨t, ht⟩ := h
  obtain ⟨k, hk⟩ := Profile.standard.literalFormat.exists_avoiding_lead t
  have hlead : l.format.lead = "STR_".toList ++ List.replicate k '_' := by
    rw [ht]
    exact hk
  have htrail : l.format.trail = [] := by
    rw [ht]
    rfl
  exact ⟨k, by rw [← hlead, ← htrail]⟩

/-- Two ledgers that have a token in common write all their tokens alike. -/
theorem IsStandard.format_eq {l l' : Ledger} (h : l.IsStandard) (h' : l'.IsStandard) {m n : Nat}
    (htoken : l.format.token m = l'.format.token n) : l.format = l'.format := by
  obtain ⟨k, hk⟩ := h.exists_format
  obtain ⟨k', hk'⟩ := h'.exists_format
  rw [hk, hk', TokenFormat.token, TokenFormat.token, List.append_nil, List.append_nil,
    List.append_assoc, List.append_assoc] at htoken
  have hcount := underscores_inj (head?_ofNat_ne m) (head?_ofNat_ne n)
    (List.append_cancel_left htoken)
  rw [hk, hk', hcount]

/-- The set of tokens tells the format and the number of values, unless it is empty. -/
theorem IsStandard.hasTokens {l l' : Ledger} (h : l.IsStandard) (h' : l'.IsStandard)
    (hsame : ∀ token, l'.holds token = l.holds token) :
    l.values = [] ∧ l'.values = [] ∨ l'.HasTokens l.format l.values.length := by
  -- each ledger has the tokens of the other, so neither is the longer one
  have hle : ∀ {a b : Ledger}, a.IsStandard → b.IsStandard →
      (∀ token, b.holds token = a.holds token) → ∀ {i : Nat}, i < a.values.length →
        a.format = b.format ∧ i < b.values.length := by
    intro a b ha hb hab i hi
    have hheld : b.holds (a.format.token (i + 1)) = true := by
      rw [hab]
      exact holds_iff.mpr ⟨i, hi, rfl⟩
    obtain ⟨j, hj, htoken⟩ := holds_iff.mp hheld
    have hformat := ha.format_eq hb htoken
    rw [hformat] at htoken
    have hij := TokenFormat.token_injective htoken
    exact ⟨hformat, by omega⟩
  have hback : ∀ token, l.holds token = l'.holds token := fun token => (hsame token).symm
  have hlen : l'.values.length = l.values.length := by
    apply Nat.le_antisymm
    · by_contra hlt
      have hlt := (hle h' h hback (Nat.lt_of_not_le hlt)).2
      omega
    · by_contra hlt
      have hlt := (hle h h' hsame (Nat.lt_of_not_le hlt)).2
      omega
  cases hvalues : l.values with
  | nil =>
    rw [hvalues] at hlen
    exact Or.inl ⟨rfl, List.length_eq_zero_iff.mp hlen⟩
  | cons v values =>
    have hpos : 0 < l.values.length := by
      rw [hvalues]
      simp
    rw [← hvalues]
    exact Or.inr ⟨(hle h h' hsame hpos).1.symm, hlen⟩

/-- Ledgers with the same tokens and inert values fill the same places of a text. -/
theorem IsStandard.exists_fills {l l' : Ledger} (h : l.IsStandard) (h' : l'.IsStandard)
    (hsame : ∀ token, l'.holds token = l.holds token) (hinert : ∀ v ∈ l.values, IsInert v)
    (hinert' : ∀ v ∈ l'.values, IsInert v) (t : Text) :
    ∃ segs : List (Segment Nat),
      Fills l.valueAt l'.valueAt segs ∧
        l.revert t = Segment.join l.valueAt segs ∧
        l'.revert t = Segment.join l'.valueAt segs := by
  rcases h.hasTokens h' hsame with ⟨hnil, hnil'⟩ | htokens
  · refine ⟨t.map .plain, by intro i hi; simp at hi, ?_, ?_⟩
    · rw [revert, hnil, Segment.join_map_plain]
      rfl
    · rw [revert, hnil', Segment.join_map_plain]
      rfl
  · have hlead : l.format.lead ≠ [] := by
      obtain ⟨r, hr⟩ := h
      rw [hr]
      exact TokenFormat.avoiding_ne_nil _ _
    obtain ⟨segs, hlt, -, heq⟩ := exists_places hlead l.values.length t
    refine ⟨segs, ?_, heq l ⟨rfl, rfl⟩, heq l' htokens⟩
    intro i hi
    have hi := hlt i hi
    have hi' : i < l'.values.length := by
      rw [htokens.2]
      exact hi
    exact ⟨hinert _ (valueAt_mem hi), hinert' _ (valueAt_mem hi')⟩

end Ledger

/-! ## Inert literals have no say -/

theorem Text.isBlank_eq_false_iff {t : Text} :
    Text.isBlank t = false ↔ ∃ d ∈ t, MutationPreview.isBlank d = false := by
  simp [Text.isBlank]

/-- A clause that is accepted with one filling of its literals is accepted with the other. -/
theorem clauseFaults_of_fills {l l' : Ledger}
    (hfills : ∀ t, ∃ segs : List (Segment Nat),
      Fills l.valueAt l'.valueAt segs ∧
        l.revert t = Segment.join l.valueAt segs ∧
        l'.revert t = Segment.join l'.valueAt segs) {clause : Text}
    (h : clauseFaults Profile.standard.budget l clause = []) :
    clauseFaults Profile.standard.budget l' clause = [] := by
  obtain ⟨hwheres, hforms⟩ := clauseFaults_eq_nil_iff.mp h
  refine clauseFaults_eq_nil_iff.mpr ⟨hwheres, ?_⟩
  intro p' hp'
  obtain ⟨fragment, hmem, hempty, rfl, hblank⟩ := mem_predicatesOf.mp hp'
  obtain ⟨segs, hf, heq, heq'⟩ := hfills (Text.trim isClauseEdge fragment)
  have hp : l.revert (Text.trim isClauseEdge fragment) ∈ predicatesOf l clause := by
    refine mem_predicatesOf.mpr ⟨fragment, hmem, hempty, rfl, ?_⟩
    rw [Text.isBlank_eq_false_iff, heq'] at hblank
    rw [Text.isBlank_eq_false_iff, heq]
    exact hf.symm.exists_mem (by decide) hblank
  obtain ⟨form, hform⟩ := hforms _ hp
  rw [heq] at hform
  rw [heq']
  exact ⟨form, hf.accepts hform⟩

/-! ## Quiet parameters are one predicate -/

theorem isQuiet_of_isDigit {c : Char} (hc : c.isDigit = true) : isQuiet c = true := by
  obtain ⟨hchar, hlt⟩ := Text.digitChar_toNat_sub hc
  have hall : ∀ n < 10, isQuiet (Nat.digitChar n) = true := by decide
  rw [← hchar]
  exact hall _ hlt

/-- The tokens of literals are quiet. -/
theorem isQuiet_of_mem_token {l : Ledger} (h : l.IsStandard) {n : Nat} {c : Char}
    (hc : c ∈ l.format.token n) : isQuiet c = true := by
  obtain ⟨k, hk⟩ := h.exists_format
  rw [hk, TokenFormat.token, List.append_nil, List.mem_append, List.mem_append,
    List.mem_replicate] at hc
  rcases hc with (hc | ⟨-, rfl⟩) | hc
  · have hall : ∀ d ∈ "STR_".toList, isQuiet d = true := by decide
    exact hall c hc
  · decide
  · exact isQuiet_of_isDigit (Text.isDigit_of_mem_ofNat hc)

section Quiet

variable {t : Text}

theorem surplusWheres_quiet (ht : ∀ c ∈ t, isQuiet c = true) : surplusWheres t = [] := by
  have hsegs : Grammar.whereKeyword.segments t = t.map .plain := by
    refine Pattern.segments_eq_map_plain rfl ?_
    intro before u after hreads hwithin
    -- the word starts with a letter that no quiet text has
    obtain ⟨e, u, rfl, ⟨rfl, -⟩, hreads⟩ := Pattern.reads_chain_cons.mp hreads
    obtain ⟨w, v, rfl, hw, -⟩ := Pattern.reads_chain_cons.mp hreads
    obtain ⟨a, w, rfl, ⟨c, hc, rfl⟩, -⟩ := Pattern.reads_chain_cons.mp hw
    have hc : sameLetter 'w' c = true := hc
    have hquiet := ht c (hwithin.subset (by simp))
    simp [isQuiet, hc] at hquiet
  rw [surplusWheres, Pattern.findAll, hsegs, Segment.spans_map_plain]
  rfl

theorem split_quiet (ht : ∀ c ∈ t, isQuiet c = true) : Grammar.boundary.split t = [t] := by
  have hsegs : Grammar.boundary.segments t = t.map .plain := by
    refine Pattern.segments_eq_map_plain rfl ?_
    intro before u after hreads hwithin
    -- a boundary ends with a blank
    obtain ⟨e, u, rfl, -, hreads⟩ := Pattern.reads_chain_cons.mp hreads
    obtain ⟨w, v, rfl, -, hv⟩ := Pattern.reads_chain_cons.mp hreads
    obtain ⟨c, hc, rfl⟩ := hv
    have hquiet := ht c (hwithin.subset (by simp))
    simp [isQuiet, hc] at hquiet
  rw [Pattern.split, hsegs, Segment.gaps_map_plain]

/-- A quiet text is one predicate. -/
theorem predicatesOf_quiet {l : Ledger} (ht : ∀ c ∈ t, isQuiet c = true) (hne : t ≠ [])
    (hblank : Text.isBlank (l.revert t) = false) : predicatesOf l t = [l.revert t] := by
  have hedge : ∀ c ∈ t, isClauseEdge c = false := by
    intro c hc
    have hquiet := ht c hc
    simp [isQuiet] at hquiet
    exact hquiet.1.1.1.2
  have hspace : ∀ c ∈ t, isBlank c = false := by
    intro c hc
    have hquiet := ht c hc
    simp [isQuiet] at hquiet
    exact hquiet.1.1.1.1
  have hempty : isEmptyFragment t = false := by
    have htab : ∀ c ∈ t, (isClauseEdge c || c == '\t') = false := by
      intro c hc
      rw [hedge c hc, Bool.false_or]
      rw [beq_eq_false_iff_ne]
      rintro rfl
      exact absurd (hspace _ hc) (by decide)
    rw [isEmptyFragment, Text.trim_eq_self htab, Text.isBlank_eq_false_iff]
    obtain ⟨c, hc⟩ := List.exists_mem_of_ne_nil t hne
    exact ⟨c, hc, hspace c hc⟩
  simp [predicatesOf, split_quiet ht, hempty, Text.trim_eq_self hedge, hblank]

/-- A quiet text has no subquery. -/
theorem segments_quiet (ht : ∀ c ∈ t, isQuiet c = true) :
    Subquery.segments t = t.map .plain := by
  refine Subquery.segments_eq_map_plain ?_
  rintro a b rfl
  have hword : Text.sameAscii ((b.dropWhile isBlank).take 6) "select".toList = false := by
    rw [Bool.eq_false_iff]
    intro hsame
    have hlower : ((b.dropWhile isBlank).take 6).map Char.toLower =
        "select".toList.map Char.toLower := by simpa [Text.sameAscii] using hsame
    have hmem : 'l' ∈ ((b.dropWhile isBlank).take 6).map Char.toLower := by
      rw [hlower]
      decide
    obtain ⟨c, hc, hcl⟩ := List.mem_map.mp hmem
    have hcb : c ∈ b := List.dropWhile_subset _ (List.mem_of_mem_take hc)
    have hquiet := ht c (by simp [hcb])
    simp [isQuiet, hcl] at hquiet
  rw [opensSelect, hword, Bool.false_and]

end Quiet

namespace Held

/-- Whether the tokens are those of the default configuration. -/
structure IsStandard (h : Held) : Prop where
  literals : h.literals.IsStandard
  subqueries : ∃ t, h.subqueries.format = Profile.standard.subqueryFormat.avoiding t

/-- Every text is held under the tokens of the default configuration. -/
theorem isStandard_standard (raw : Text) : (Held.standard raw).IsStandard := by
  obtain ⟨t, hlit, hsub⟩ := literals_spec raw
  exact ⟨⟨_, hlit.continues.format⟩, ⟨_, hsub.continues.format⟩⟩

/-- Holding one more literal keeps the tokens. -/
theorem IsStandard.holdLiteral {h : Held} (hs : h.IsStandard) (literal : Text) :
    (h.holdLiteral literal).1.IsStandard := by
  obtain ⟨t, ht⟩ := hs.literals
  exact ⟨⟨t, (Ledger.hold_spec h.literals literal).continues.format.trans ht⟩, hs.subqueries⟩

/-- Whether two held statements differ at most in what their literals hold. -/
structure SameButLiterals (h h' : Held) : Prop where
  text : h'.text = h.text
  subqueries : h'.subqueries = h.subqueries
  tokens : ∀ token, h'.literals.holds token = h.literals.holds token

/-- Whether parameters get the same verdict from two held statements. -/
def SameVerdict (h h' : Held) (parameters : Text) : Prop :=
  ∃ faults faults', parameterFaults Profile.standard h parameters = .ok faults ∧
    parameterFaults Profile.standard h' parameters = .ok faults' ∧
    faults.isEmpty = faults'.isEmpty

theorem sameVerdict_iff {h h' : Held} {parameters : Text} :
    h.SameVerdict h' parameters ↔
      (parameterFaults Profile.standard h parameters = .ok [] ↔
        parameterFaults Profile.standard h' parameters = .ok []) := by
  simp only [SameVerdict, parameterFaults_standard, Except.ok.injEq]
  constructor
  · rintro ⟨faults, faults', rfl, rfl, hsame⟩
    rw [← List.isEmpty_iff, ← List.isEmpty_iff, hsame]
  · intro hiff
    refine ⟨_, _, rfl, rfl, ?_⟩
    rw [Bool.eq_iff_iff, List.isEmpty_iff, List.isEmpty_iff]
    exact hiff

/-- Statements that differ in inert literals only accept the same parameters. -/
theorem sameVerdict_of_inert {h h' : Held} (hs : h.IsStandard) (hs' : h'.IsStandard)
    (hsame : h.SameButLiterals h') (hinert : ∀ v ∈ h.literals.values, IsInert v)
    (hinert' : ∀ v ∈ h'.literals.values, IsInert v) (parameters : Text) :
    h.SameVerdict h' parameters := by
  have hfills := hs.literals.exists_fills hs'.literals hsame.tokens hinert hinert'
  have hback : ∀ token, h.literals.holds token = h'.literals.holds token :=
    fun token => (hsame.tokens token).symm
  have hfills' := hs'.literals.exists_fills hs.literals hback hinert' hinert
  rw [sameVerdict_iff]
  simp only [parameterFaults_standard, Except.ok.injEq, hsame.subqueries]
  refine workOff_eq_nil_congr (fun clause => ⟨?_, ?_⟩) _
  · exact clauseFaults_of_fills hfills
  · exact clauseFaults_of_fills hfills'

/-- A quiet text is accepted as parameters exactly when it has a form with its literals put
back. -/
theorem faults_quiet_iff {h : Held} (hs : h.IsStandard) {t : Text} (ht : ∀ c ∈ t, isQuiet c = true)
    (hne : t ≠ []) (hblank : Text.isBlank (h.literals.revert t) = false) :
    parameterFaults Profile.standard h t = .ok [] ↔
      ∃ form : PredicateForm, form.accepts (h.literals.revert t) = true := by
  have hsub : h.subqueries.revert t = t := by
    apply Ledger.revert_of_absent
    intro hwithin
    obtain ⟨r, hr⟩ := hs.subqueries
    obtain ⟨k, hk⟩ := Profile.standard.subqueryFormat.exists_avoiding_lead r
    have hmem : 'U' ∈ h.subqueries.format.lead := by
      rw [hr, hk, List.mem_append]
      exact Or.inl (by decide)
    exact absurd (ht 'U' (hwithin.subset hmem)) (by decide)
  have hclause : clauseOf Profile.standard.resolvedMark t = t := by
    rw [clauseOf, segments_quiet ht, Segment.join_map_plain]
  have hspans : Segment.spans (Subquery.segments (h.subqueries.revert t)) = [] := by
    rw [hsub, segments_quiet ht, Segment.spans_map_plain]
  rw [parameterFaults_of_no_subquery hspans, hsub, hclause, Except.ok.injEq,
    clauseFaults_eq_nil_iff, predicatesOf_quiet ht hne hblank]
  simp [surplusWheres_quiet ht]

/-- The token of a literal in a frame is read back as the literal. -/
theorem revert_frame {l : Ledger} (h : l.IsStandard) {a b : Text} (hframe : isFrame a b = true)
    {i : Nat} {value : Text} (hvalue : l.values[i]? = some value) :
    l.revert (a ++ l.format.token (i + 1) ++ b) = a ++ value ++ b := by
  obtain ⟨k, hk⟩ := h.exists_format
  have hlead : l.format.lead = 'S' :: ("TR_".toList ++ List.replicate k '_') := by
    rw [hk]
    rfl
  simp only [isFrame, Bool.and_eq_true, Bool.not_eq_true', List.contains_eq_mem,
    decide_eq_false_iff_not] at hframe
  obtain ⟨⟨⟨-, ha⟩, hb⟩, hdigit⟩ := hframe
  have hclear : ¬ l.Overread i b := by
    rintro ⟨ds, j, hds, hdigits, ⟨rest, hpre⟩, -, -⟩
    obtain ⟨d, ds, rfl⟩ := List.exists_cons_of_ne_nil hds
    rw [hk, List.append_nil, List.nil_append] at hpre
    have hd := hdigits d (by simp)
    rw [← hpre] at hdigit
    simp [hd] at hdigit
  have hbcopy := Ledger.substitute_append_of_notMem hlead hb []
  rw [List.append_nil, Text.substitute_nil, List.append_nil] at hbcopy
  rw [Ledger.revert_eq_substitute (by rw [hlead]; simp), List.append_assoc,
    Ledger.substitute_append_of_notMem hlead ha, Ledger.substitute_token hvalue hclear, hbcopy,
    List.append_assoc]

/-- A held statement with every literal made plain. -/
def withPlainLiterals (h : Held) : Held :=
  { h with literals := { h.literals with values := h.literals.values.map fun _ => plainLiteral } }

theorem IsStandard.withPlainLiterals {h : Held} (hs : h.IsStandard) :
    h.withPlainLiterals.IsStandard := ⟨hs.literals, hs.subqueries⟩

theorem isInert_withPlainLiterals (h : Held) :
    ∀ v ∈ h.withPlainLiterals.literals.values, IsInert v := by
  intro v hv
  obtain ⟨-, -, rfl⟩ := List.mem_map.mp hv
  exact isInert_plainLiteral

theorem sameButLiterals_withPlainLiterals (h : Held) : h.SameButLiterals h.withPlainLiterals := by
  refine ⟨rfl, rfl, ?_⟩
  intro token
  rw [Bool.eq_iff_iff, Ledger.holds_iff, Ledger.holds_iff]
  simp [withPlainLiterals]

/-- Acceptance depends on the contents of literals exactly as far as they are not inert. -/
theorem sameVerdict_iff_inert (h : Held) (hs : h.IsStandard)
    (hliterals : ∀ v ∈ h.literals.values, ∃ content, content ≠ [] ∧ v = inQuotes content) :
    (∀ v ∈ h.literals.values, IsInert v) ↔
      ∀ h' : Held, h'.IsStandard → h.SameButLiterals h' →
        (∀ v ∈ h'.literals.values, IsInert v) →
        ∀ parameters, h.SameVerdict h' parameters := by
  constructor
  · intro hinert h' hs' hsame hinert' parameters
    exact sameVerdict_of_inert hs hs' hsame hinert hinert' parameters
  · intro hverdict v hv
    obtain ⟨content, hne, rfl⟩ := hliterals v hv
    refine ⟨content, hne, rfl, ?_⟩
    rw [Bool.eq_false_iff]
    intro hmatch
    -- a frame tells the literal from a plain one
    obtain ⟨a, b, hframe, ⟨form, haccepts⟩, hrejects⟩ := exists_decisive_frame hmatch
    obtain ⟨i, hi, hget⟩ := List.getElem_of_mem hv
    have hvalue : h.literals.values[i]? = some (inQuotes content) := by
      rw [List.getElem?_eq_getElem hi, hget]
    have hvalue' : h.withPlainLiterals.literals.values[i]? = some plainLiteral := by
      simp [withPlainLiterals, hi]
    have hs' := hs.withPlainLiterals
    have hquiet : ∀ c ∈ a ++ h.literals.format.token (i + 1) ++ b, isQuiet c = true := by
      simp only [isFrame, Bool.and_eq_true, List.all_eq_true] at hframe
      obtain ⟨⟨⟨⟨ha, hb⟩, -⟩, -⟩, -⟩ := hframe
      intro c hc
      rcases List.mem_append.mp hc with hc | hc
      · rcases List.mem_append.mp hc with hc | hc
        · exact ha c hc
        · exact isQuiet_of_mem_token hs.literals hc
      · exact hb c hc
    have hnonempty : a ++ h.literals.format.token (i + 1) ++ b ≠ [] := by
      simp [TokenFormat.token_ne_nil]
    have hrevert := revert_frame hs.literals hframe hvalue
    have hrevert' : h.withPlainLiterals.literals.revert
        (a ++ h.literals.format.token (i + 1) ++ b) = a ++ plainLiteral ++ b :=
      revert_frame hs'.literals hframe hvalue'
    have hiff := faults_quiet_iff hs hquiet hnonempty (by
      rw [hrevert, Text.isBlank_eq_false_iff]
      exact ⟨'\'', by simp [inQuotes], by decide⟩)
    have hiff' := faults_quiet_iff hs' hquiet hnonempty (by
      rw [hrevert', Text.isBlank_eq_false_iff]
      exact ⟨'\'', by simp [plainLiteral, inQuotes], by decide⟩)
    have hsame := sameVerdict_iff.mp (hverdict _ hs' h.sameButLiterals_withPlainLiterals
      h.isInert_withPlainLiterals
      (a ++ h.literals.format.token (i + 1) ++ b))
    rw [hiff, hiff', hrevert, hrevert'] at hsame
    obtain ⟨form', hform'⟩ := hsame.mp ⟨form, haccepts⟩
    rw [hrejects form'] at hform'
    exact absurd hform' (by simp)

/-- A letter between quotes is inert. -/
theorem sameVerdict_of_letter :
    (Held.standard "a = 'b'".toList).SameVerdict (Held.standard "a = 'b'".toList).withPlainLiterals
      "where a = STR_1".toList := by
  have hvalues : (Held.standard "a = 'b'".toList).literals.values = [inQuotes ['b']] := by
    decide
  have hinert : ∀ v ∈ (Held.standard "a = 'b'".toList).literals.values, IsInert v := by
    intro v hv
    rw [hvalues, List.mem_singleton] at hv
    exact ⟨['b'], by simp, hv, by decide⟩
  refine (sameVerdict_iff_inert _ (isStandard_standard _) ?_).mp hinert _
    (isStandard_standard _).withPlainLiterals (sameButLiterals_withPlainLiterals _)
    (isInert_withPlainLiterals _) _
  intro v hv
  obtain ⟨content, hne, heq, -⟩ := hinert v hv
  exact ⟨content, hne, heq⟩

/-- A literal with a comparison sign in it is accepted as a predicate, and one without is not. -/
theorem verdict_of_sign_in_literal :
    let h := Held.standard "'a = b'".toList
    let h' := Held.standard "'ab'".toList
    h.SameButLiterals h' ∧ h.literals.values = ["'a = b'".toList] ∧
      h'.literals.values = ["'ab'".toList] ∧
      parameterFaults Profile.standard h "where STR_1".toList = .ok [] ∧
      parameterFaults Profile.standard h' "where STR_1".toList = .ok ["'ab'".toList] := by
  have hlit : (Held.standard "'a = b'".toList).literals =
      ⟨⟨"STR_".toList, []⟩, ["'a = b'".toList]⟩ := by decide
  have hlit' : (Held.standard "'ab'".toList).literals =
      ⟨⟨"STR_".toList, []⟩, ["'ab'".toList]⟩ := by decide
  refine ⟨⟨by decide, by decide, ?_⟩, by rw [hlit], by rw [hlit'], ?_, ?_⟩
  · intro token
    rw [Bool.eq_iff_iff, Ledger.holds_iff, Ledger.holds_iff, hlit, hlit']
    simp
  · rw [parameterFaults_of_no_subquery (by decide)]
    exact congrArg Except.ok (by decide)
  · rw [parameterFaults_of_no_subquery (by decide)]
    exact congrArg Except.ok (by decide)

end Held

end MutationPreview
