import MutationPreview.Proofs.Batch.Compose
import MutationPreview.Proofs.Held.Spans

/-!
# Where the identifier shows

The identifier is held as one more literal of every query, whether or not it is put into an entity
expression. So it shows in a preview in two ways: the injection finds an entity expression, or a
literal stands before digits with which its token makes the token of the identifier.

Main statement: the records of a batch are the same for all identifiers exactly when no query of it
shows the identifier in one of these ways (`convert_eq_iff_not_showsIdentifier`).
-/

namespace MutationPreview

open Pattern Ledger

/-! ## Tokens of literals outlast the steps of tidying -/

section Outlast

variable {l : Ledger} {n : Nat} {t : Text}

/-- The characters of a token of a literal. -/
theorem Ledger.IsStandard.mem_token (h : l.IsStandard) {c : Char} (hc : c ∈ l.format.token n) :
    c ∈ "STR_".toList ∨ c.isDigit = true := by
  rw [TokenFormat.mem_token, h.trail_eq] at hc
  rcases hc with hc | hc | hc
  · exact Or.inl (h.mem_lead hc)
  · exact Or.inr (Text.isDigit_of_mem_ofNat hc)
  · simp at hc

theorem Ledger.IsStandard.notMem_token (h : l.IsStandard) {c : Char} (hc : EndsToken c) :
    c ∉ l.format.token n := by
  intro hmem
  rcases h.mem_token hmem with hlead | hdigit
  · exact hc.1 hlead
  · rw [hc.2] at hdigit
    simp at hdigit

theorem Ledger.IsStandard.underscore_mem_token (h : l.IsStandard) : '_' ∈ l.format.token n := by
  obtain ⟨k, hk⟩ := h.exists_format
  simp [TokenFormat.token, hk]

/-- A token is still there after replacing, if matches have no underscore and end every token beside
them. -/
theorem Ledger.IsStandard.infix_replaceAll (h : l.IsStandard) {p : Pattern} {f : Match → Text}
    (hp : p.consumes = true) (havoids : p.avoids '_' = true)
    (hends : ∀ before u after, p.Reads before u after →
      ∃ o body c, u = o :: (body ++ [c]) ∧ EndsToken o ∧ EndsToken c)
    (htoken : l.format.token n <:+: t) : l.format.token n <:+: p.replaceAll f t := by
  refine Pattern.infix_replaceAll hp (TokenFormat.token_ne_nil _ _) ?_ htoken
  intro before u after hreads
  obtain ⟨o, body, c, hu, ho, hc⟩ := hends before u after hreads
  refine ⟨⟨o, body, c, hu, h.notMem_token ho, h.notMem_token hc⟩, fun hinside => ?_⟩
  exact hreads.notMem havoids (hinside.subset h.underscore_mem_token)

theorem endsToken_of_isGap {c : Char} (h : Grammar.isGap c = true) : EndsToken c := by
  have hgaps : EndsToken ' ' ∧ EndsToken '\n' := by decide
  rw [Grammar.isGap, Bool.or_eq_true, beq_iff_eq, beq_iff_eq] at h
  rcases h with rfl | rfl
  · exact hgaps.1
  · exact hgaps.2

/-- A text of two runs with something between them has a first and a last character. -/
theorem exists_ends {P : Char → Prop} {a b c : Text} (ha : a ≠ [] ∧ ∀ x ∈ a, P x)
    (hc : c ≠ [] ∧ ∀ x ∈ c, P x) :
    ∃ o body e, a ++ (b ++ c) = o :: (body ++ [e]) ∧ P o ∧ P e := by
  obtain ⟨o, a, rfl⟩ := List.exists_cons_of_ne_nil ha.1
  obtain ⟨c, e, rfl⟩ : ∃ v e, c = v ++ [e] := by
    rcases List.eq_nil_or_concat c with rfl | ⟨v, e, rfl⟩
    · exact absurd rfl hc.1
    · exact ⟨v, e, by simp⟩
  exact ⟨o, a ++ (b ++ c), e, by simp, ha.2 o (by simp), hc.2 e (by simp)⟩

theorem Ledger.IsStandard.infix_layOut (h : l.IsStandard) (htoken : l.format.token n <:+: t) :
    l.format.token n <:+: layOut t := by
  refine h.infix_replaceAll (by decide) (by decide) ?_ (h.infix_replaceAll (by decide) (by decide)
    ?_ htoken)
  · intro before u after hreads
    obtain ⟨v, rfl, hv⟩ := reads_spaceRun_iff.mp hreads
    have hspace : EndsToken ' ' := by decide
    refine exists_ends (a := [' ']) (b := []) (c := ' ' :: v) ⟨by simp, by simpa using hspace⟩
      ⟨by simp, fun x hx => ?_⟩
    rcases List.mem_cons.mp hx with rfl | hx
    · exact hspace
    · rw [hv x hx]
      exact hspace
  · intro before u after hreads
    obtain ⟨g, k, g', rfl, hg, -, hg'⟩ := reads_lineStart_iff.mp hreads
    exact exists_ends ⟨hg.1, fun c hc => endsToken_of_isGap (hg.2 c hc)⟩
      ⟨hg'.1, fun c hc => endsToken_of_isGap (hg'.2 c hc)⟩

/-- A bare entity token is a colon and a word without an underscore. -/
theorem Ledger.IsStandard.infix_entityToken (h : l.IsStandard) {f : Match → Text}
    (htoken : l.format.token n <:+: t) :
    l.format.token n <:+: Profile.standard.entityToken.replaceAll f t := by
  refine h.infix_replaceAll (by decide) (by decide) ?_ htoken
  intro before u after hreads
  obtain ⟨v, w, rfl, hword, hw⟩ := reads_chain_cons.mp hreads
  obtain ⟨rfl, -⟩ := (show w = [] ∧ _ from hw)
  have hletters := reads_word_iff.mp hword
  have hends : ∀ x ∈ ":d".toList, isPlainLetter x = true ∧ ∀ n < 128,
      (Char.ofNat n).toUpper = x.toUpper → decide (EndsToken (Char.ofNat n)) = true := by
    decide
  rw [show ":entityid".toList = [':', 'e', 'n', 't', 'i', 't', 'y', 'i', 'd'] from rfl] at hletters
  rcases hletters with _ | ⟨ho, _ | ⟨-, _ | ⟨-, _ | ⟨-, _ | ⟨-, _ | ⟨-, _ | ⟨-, _ | ⟨-, _ |
    ⟨hc, _ | _⟩⟩⟩⟩⟩⟩⟩⟩⟩
  refine ⟨_, [_, _, _, _, _, _, _], _, rfl, ?_, ?_⟩
  · exact of_decide_eq_true (forall_of_sameLetter (p := fun c => decide (EndsToken c))
      (hends ':' (by decide)).1 (hends ':' (by decide)).2 ho)
  · exact of_decide_eq_true (forall_of_sameLetter (p := fun c => decide (EndsToken c))
      (hends 'd' (by decide)).1 (hends 'd' (by decide)).2 hc)

/-- Tokens of subqueries lie between brackets and have no `T`. -/
theorem Held.IsStandard.infix_revert {q : Held} (hq : q.IsStandard)
    (htoken : q.literals.format.token n <:+: t) :
    q.literals.format.token n <:+: q.subqueries.revert t := by
  obtain ⟨k, hformat⟩ := hq.exists_isBracketed
  have hbrackets : EndsToken '(' ∧ EndsToken ')' := by decide
  have hlead : q.subqueries.format.lead ≠ [] := by
    rw [hformat]
    simp
  obtain ⟨segs, -, htext, hrevert⟩ :=
    Ledger.exists_places hlead q.subqueries.values.length t
  obtain ⟨x, y, hxy⟩ := htoken
  rw [← htext] at hxy
  have hspan : ∀ i ∈ Segment.spans segs, ∃ o body c,
      q.subqueries.format.token (i + 1) = o :: (body ++ [c]) ∧
        o ∉ q.literals.format.token n ∧ c ∉ q.literals.format.token n := by
    intro i _
    refine ⟨'(', "SUB_".toList ++ List.replicate k '_' ++ Text.ofNat (i + 1), ')', ?_,
      hq.literals.notMem_token hbrackets.1, hq.literals.notMem_token hbrackets.2⟩
    rw [hformat, TokenFormat.token]
    simp
  rcases Segment.split_join (TokenFormat.token_ne_nil _ _) hspan hxy.symm with
    ⟨A, B, rfl, -, -⟩ | ⟨A, i, B, o, u, v, c, -, hinside, -, -⟩
  · rw [hrevert q.subqueries ⟨rfl, rfl⟩, Segment.join_append, Segment.join_append,
      Segment.join_map_plain]
    exact List.infix_append _ _ _
  · -- a token of a literal has a letter that one of a subquery has not
    have hmem : 'T' ∈ q.subqueries.format.token (i + 1) := by
      rw [hinside]
      have hletter := hq.literals.letter_mem_lead
      simp [TokenFormat.mem_token, hletter]
    rw [TokenFormat.mem_token, hformat] at hmem
    rcases hmem with hmem | hmem | hmem
    · simp [List.mem_replicate] at hmem
    · exact absurd (Text.isDigit_of_mem_ofNat hmem) (by decide)
    · simp at hmem

end Outlast

/-! ## Queries that show the identifier -/

namespace Held

/-- Whether the injection finds a call in a query: its argument is the token of a literal or of the
identifier, which is numbered behind all literals. -/
def findsCall (q : Held) : Bool :=
  (Profile.standard.entityCall.findAll (dropWords q.text)).any fun m =>
    (m.part? .argument).any fun argument =>
      (List.range (q.literals.values.length + 1)).any fun i =>
        argument.text == q.literals.format.token (i + 1)

/-- Whether the injection finds something in a query: a call or a bare entity token. -/
def findsEntity (q : Held) : Bool :=
  q.findsCall || Profile.standard.entityToken.hasMatch (dropWords q.text)

/-- The text of a query right before its literals are put back, if nothing is injected. -/
def laidOut (q : Held) : Text := q.subqueries.revert (layOut (dropWords q.text))

/-- Whether a query shows the identifier: something is injected, or the text of a literal's token
and the digits behind it is the token of the identifier, which is numbered behind all literals. -/
def ShowsIdentifier (q : Held) : Prop :=
  q.findsEntity = true ∨ q.literals.format.token (q.literals.values.length + 1) <:+: q.laidOut

variable {q : Held}

theorem length_hold_le (l : Ledger) (value : Text) :
    (l.hold value).1.values.length ≤ l.values.length + 1 := by
  rw [Ledger.hold]
  split <;> simp

/-- What is written for a call: the call with the given token, if its argument is held. -/
def callOf (literals : Ledger) (token : Text) (m : Match) : Text :=
  match m.part? .argument with
  | some argument =>
    if literals.holds argument.text then entityCallText Profile.standard token else m.text
  | none => m.text

theorem injectIdentifier_eq (literals : Ledger) (token t : Text) :
    injectIdentifier Profile.standard literals token t =
      Profile.standard.entityToken.replaceAll
        (fun _ => entityCallText Profile.standard token)
        (Profile.standard.entityCall.replaceAll (callOf literals token) t) := rfl

theorem findsCall_of_holds {m : Match} {argument : Capture} {value : Text}
    (hm : m ∈ Profile.standard.entityCall.findAll (dropWords q.text))
    (hargument : m.part? .argument = some argument)
    (hholds : (q.literals.hold value).1.holds argument.text = true) : q.findsCall = true := by
  obtain ⟨i, hi, htext⟩ := Ledger.holds_iff.mp hholds
  rw [(Ledger.hold_spec q.literals value).continues.format] at htext
  rw [findsCall, List.any_eq_true]
  refine ⟨m, hm, ?_⟩
  simp only [hargument, Option.any_some, List.any_eq_true, List.mem_range, beq_iff_eq]
  exact ⟨i, lt_of_lt_of_le hi (length_hold_le _ _), htext⟩

theorem replaceAll_callOf_eq_self (h : q.findsCall = false) (value : Text) :
    Profile.standard.entityCall.replaceAll
      (callOf (q.literals.hold value).1 (q.literals.hold value).2) (dropWords q.text) =
        dropWords q.text := by
  rw [replaceAll, Segment.join_congr (g := Match.text), join_segments (by decide)]
  intro m hm
  rw [callOf]
  split
  · rename_i argument hargument
    rw [if_neg]
    intro hholds
    rw [findsCall_of_holds hm hargument hholds] at h
    simp at h
  · rfl

/-- Where the injection finds nothing, it changes nothing. -/
theorem injectIdentifier_eq_self (h : q.findsEntity = false) (value : Text) :
    injectIdentifier Profile.standard (q.literals.hold value).1 (q.literals.hold value).2
      (dropWords q.text) = dropWords q.text := by
  rw [findsEntity, Bool.or_eq_false_iff] at h
  rw [injectIdentifier_eq, replaceAll_callOf_eq_self h.1, replaceAll_eq_self (by decide) h.2]

/-- A query that does not show the identifier has the same preview for all identifiers. -/
theorem revert_tidy_of_not_shows (hq : q.IsStandard) (h : ¬ q.ShowsIdentifier)
    (identifier : Text) :
    (tidy Profile.standard identifier q).revert = q.literals.revert q.laidOut := by
  rw [ShowsIdentifier, not_or, Bool.not_eq_true] at h
  rw [revert_tidy_eq, injectIdentifier_eq_self h.1]
  exact Ledger.revert_hold hq.literals.lead_ne_nil h.2

/-- An injected call carries the token of the identifier. -/
theorem infix_injectIdentifier (hq : q.IsStandard) (h : q.findsEntity = true) {value : Text}
    (hfresh : value ∉ q.literals.values) :
    q.literals.format.token (q.literals.values.length + 1) <:+:
      injectIdentifier Profile.standard (q.literals.hold value).1 (q.literals.hold value).2
        (dropWords q.text) := by
  have hhold := Ledger.hold_of_notMem hfresh
  have hcall : q.literals.format.token (q.literals.values.length + 1) <:+:
      entityCallText Profile.standard (q.literals.hold value).2 := by
    rw [hhold]
    exact ⟨"toentityid(".toList, [')'], rfl⟩
  rw [injectIdentifier_eq]
  cases hcalls : q.findsCall with
  | true =>
    refine hq.literals.infix_entityToken ?_
    rw [findsCall, List.any_eq_true] at hcalls
    obtain ⟨m, hm, hargument⟩ := hcalls
    cases hpart : m.part? .argument with
    | none => simp [hpart] at hargument
    | some argument =>
      simp only [hpart, Option.any_some, List.any_eq_true, List.mem_range, beq_iff_eq] at hargument
      obtain ⟨i, hi, htext⟩ := hargument
      have hholds : (q.literals.hold value).1.holds argument.text = true := by
        rw [hhold]
        exact Ledger.holds_iff.mpr ⟨i, by simpa using hi, htext⟩
      have hwritten : callOf (q.literals.hold value).1 (q.literals.hold value).2 m =
          entityCallText Profile.standard (q.literals.hold value).2 := by
        simp only [callOf, hpart, hholds, if_true]
      rw [← hwritten] at hcall
      exact hcall.trans (Segment.infix_join _ hm)
  | false =>
    rw [findsEntity, hcalls, Bool.false_or] at h
    rw [replaceAll_callOf_eq_self hcalls]
    obtain ⟨m, hm⟩ := exists_mem_spans (by decide) h
    exact hcall.trans (Segment.infix_join (fun _ => entityCallText Profile.standard _) hm)

/-- Reversion writes the last of the held values where its token stands. -/
theorem infix_revert_last {l : Ledger} (hl : l.IsStandard) (values : List Text) {value t : Text}
    (hvalues : l.values = values ++ [value]) (h : l.format.token (values.length + 1) <:+: t) :
    value <:+: l.revert t := by
  obtain ⟨k, hformat⟩ := hl.exists_format
  obtain ⟨x, y, rfl⟩ := h
  have hlead : l.format.lead = 'S' :: ("TR_".toList ++ List.replicate k '_') := by
    rw [hformat]
    rfl
  have hfirst : l.format.token (values.length + 1) ++ y =
      'S' :: ("TR_".toList ++ List.replicate k '_' ++ (Text.ofNat (values.length + 1) ++ y)) := by
    simp [TokenFormat.token, hformat]
  -- no greater number is held that its own goes on to
  have hlast : ¬ l.Overread values.length y := by
    rintro ⟨ds, j, hds, -, -, hj, hnumber⟩
    obtain ⟨d, ds, rfl⟩ := List.exists_cons_of_ne_nil hds
    have hle := Text.le_of_ofNat_eq_append hnumber
    rw [hvalues, List.length_append, List.length_singleton] at hj
    omega
  have htoken : l.revert (l.format.token (values.length + 1) ++ y) = value ++ l.revert y := by
    rw [Ledger.revert_eq_substitute hl.lead_ne_nil, Ledger.revert_eq_substitute hl.lead_ne_nil]
    exact Ledger.substitute_token (by simp [hvalues]) hlast
  have hcut := Ledger.revert_append_lead hlead (by simp [List.mem_replicate]) (by decide)
    (by simp [hl.trail_eq]) x
    ("TR_".toList ++ List.replicate k '_' ++ (Text.ofNat (values.length + 1) ++ y))
  rw [← hfirst, htoken] at hcut
  rw [List.append_assoc, hcut]
  exact ⟨l.revert x, l.revert y, by simp⟩

/-- A query that shows the identifier has the quoted identifier in its preview, unless it is one of
the literals. -/
theorem infix_revert_tidy (hq : q.IsStandard) (h : q.ShowsIdentifier) {identifier : Text}
    (hfresh : quoteLiteral identifier ∉ q.literals.values) :
    quoteLiteral identifier <:+: (tidy Profile.standard identifier q).revert := by
  have htoken : q.literals.format.token (q.literals.values.length + 1) <:+:
      q.subqueries.revert (layOut (injectIdentifier Profile.standard
        (q.literals.hold (quoteLiteral identifier)).1
        (q.literals.hold (quoteLiteral identifier)).2 (dropWords q.text))) := by
    cases hfinds : q.findsEntity with
    | true =>
      exact hq.infix_revert (hq.literals.infix_layOut (infix_injectIdentifier hq hfinds hfresh))
    | false =>
      rw [injectIdentifier_eq_self hfinds]
      exact h.resolve_left (by simp [hfinds])
  rw [revert_tidy_eq]
  have hheld := (hq.holdLiteral (quoteLiteral identifier)).literals
  simp only [holdLiteral] at hheld
  have hhold := Ledger.hold_of_notMem hfresh
  refine infix_revert_last hheld q.literals.values (by rw [hhold]) ?_
  rw [(Ledger.hold_spec q.literals (quoteLiteral identifier)).continues.format]
  exact htoken

end Held

/-! ## Identifiers -/

theorem upperChar_ne_nil (c : Char) : upperChar c ≠ [] := by
  have htable : ∀ entry ∈ CaseRun.expanded, entry.2 ≠ [] := by decide
  rw [upperChar]
  split
  · simp
  · split
    · rename_i codes hcodes
      obtain ⟨before, after, hsplit, -⟩ := List.lookup_eq_some_iff.mp hcodes
      have hne := htable (c.toNat, codes) (by simp [hsplit])
      simpa using hne
    · simp

/-- An identifier that is not blank has a normal form that is not empty. -/
theorem upper_trimBlank_ne_nil {t : Text} (h : Text.isBlank t = false) :
    Text.upper (Text.trimBlank t) ≠ [] := by
  obtain ⟨d, hd, hblank⟩ := Text.isBlank_eq_false_iff.mp h
  obtain ⟨front, back, hsplit, hfront, hback⟩ := Text.exists_eq_trim isBlank t
  have hmem : d ∈ Text.trimBlank t := by
    rw [hsplit] at hd
    simp only [List.mem_append] at hd
    rcases hd with (hd | hd) | hd
    · simp [hfront d hd] at hblank
    · exact hd
    · simp [hback d hd] at hblank
  intro hnil
  rw [Text.upper, List.flatMap_eq_nil_iff] at hnil
  exact upperChar_ne_nil d (hnil d hmem)

theorem upper_trimBlank_replicate (n : Nat) :
    Text.upper (Text.trimBlank (List.replicate n 'A')) = List.replicate n 'A' := by
  have hblank : ∀ c ∈ List.replicate n 'A', isBlank c = false := by
    intro c hc
    rw [List.eq_of_mem_replicate hc]
    decide
  rw [Text.trimBlank, Text.trim_eq_self hblank, Text.upper]
  induction n with
  | zero => rfl
  | succ n ih =>
    rw [List.replicate_succ, List.flatMap_cons, ih fun c hc => hblank c (by simp_all)]
    rfl

theorem isBlank_replicate (n : Nat) : Text.isBlank (List.replicate (n + 1) 'A') = false :=
  Text.isBlank_eq_false_iff.mpr ⟨'A', by simp, by decide⟩

theorem length_le_quoteLiteral (value : Text) : value.length ≤ (quoteLiteral value).length := by
  have hreplace : value.length ≤ (Text.replace "'".toList "''".toList value).length := by
    induction value with
    | nil => simp
    | cons c value ih =>
      have hfirst : 1 ≤ (if c = '\'' then "''".toList else [c]).length := by split <;> simp
      rw [replace_quote_cons, List.length_append, List.length_cons]
      omega
  simp only [quoteLiteral, List.cons_append, List.length_cons, List.length_append]
  omega

/-- A query that shows the identifier has previews that are as long as one likes. -/
theorem Held.exists_longer_preview {query : Held} (hstandard : query.IsStandard)
    (h : query.ShowsIdentifier) (n : Nat) :
    ∃ k, n < (tidy Profile.standard (List.replicate (k + 1) 'A') query).revert.length := by
  -- an identifier that is longer than every literal is not held
  refine ⟨query.literals.values.flatten.length + n, ?_⟩
  generalize hlong : List.replicate (query.literals.values.flatten.length + n + 1) 'A' = long
  have hlength : long.length = query.literals.values.flatten.length + n + 1 := by
    rw [← hlong, List.length_replicate]
  have hquoted := length_le_quoteLiteral long
  have hfresh : quoteLiteral long ∉ query.literals.values := by
    intro hmem
    have hle := (List.sublist_flatten_of_mem hmem).length_le
    omega
  have hle := (Held.infix_revert_tidy hstandard h hfresh).length_le
  omega

namespace Job

/-- The preconditions of a batch look at an identifier only to see whether it is blank. -/
theorem missed?_congr {batch a b : Text} (ha : Text.isBlank a = false)
    (hb : Text.isBlank b = false) :
    (Job.standard batch a).missed? = (Job.standard batch b).missed? := by
  have hempty : ∀ {t : Text}, Text.isBlank t = false →
      (Job.standard batch t).identifier.isEmpty = false := by
    intro t ht
    rw [List.isEmpty_eq_false_iff]
    exact upper_trimBlank_ne_nil ht
  rw [missed?, missed?, hempty ha, hempty hb]
  rfl

/-- A batch with a statement has a terminator and is not blank. -/
theorem missed?_eq_none_of_mem {batch a : Text} (ha : Text.isBlank a = false)
    (hquote : '’' ∉ batch) {s : Statement} (hs : s ∈ statementsOf ';' batch) :
    (Job.standard batch a).missed? = none := by
  obtain ⟨piece, hpiece, -⟩ := List.mem_filterMap.mp hs
  obtain ⟨⟨u, rfl⟩, -⟩ := cutBatch_single (by decide) hpiece
  have hmem : ';' ∈ batch := by
    rw [← whole_cutFrom (x := ';') false batch]
    refine List.mem_append_left _ (List.mem_flatten.mpr ⟨_, hpiece, by simp⟩)
  refine missed?_eq_none_iff.mpr ⟨?_, upper_trimBlank_ne_nil ha, ?_, hmem⟩
  · exact Text.isBlank_eq_false_iff.mpr ⟨';', hmem, by decide⟩
  · intro c hc hdisallowed
    obtain rfl : c = '’' := by simpa [Job.standard, Job.ofInput, Profile.standard] using hdisallowed
    exact hquote hc

/-- Batches with the same records have the same record for each statement. -/
theorem record_eq_of_records_eq {batch a b : Text}
    (ha : (Job.standard batch a).missed? = none) (hb : (Job.standard batch b).missed? = none)
    (h : (Job.standard batch a).records = (Job.standard batch b).records) {s : Statement}
    (hs : s ∈ statementsOf ';' batch) :
    (Job.standard batch a).record s = (Job.standard batch b).record s := by
  have hmap : (statementsOf ';' batch).map (Job.standard batch a).record =
      (statementsOf ';' batch).map (Job.standard batch b).record := by
    rw [records, records, ha, hb] at h
    exact Except.ok.inj h
  exact List.map_inj_left.mp hmap s hs

theorem isStandard_of_query {s : Statement} {query : Held}
    (h : s.query Profile.standard = .ok query) : query.IsStandard := by
  obtain ⟨m, report, hconverts⟩ := converts_of_query (Job.standard [] []) h
  exact hconverts.isStandard

/-- If the records are the same for short and long identifiers, no query shows the identifier. -/
theorem not_showsIdentifier_of_records_eq {batch : Text} (hquote : '’' ∉ batch)
    (hsame : ∀ m n, (Job.standard batch (List.replicate (m + 1) 'A')).records =
      (Job.standard batch (List.replicate (n + 1) 'A')).records)
    {s : Statement} (hs : s ∈ statementsOf ';' batch) {query : Held}
    (hquery : s.query Profile.standard = .ok query) : ¬ query.ShowsIdentifier := by
  intro hshows
  obtain ⟨n, hlonger⟩ := Held.exists_longer_preview (isStandard_of_query hquery) hshows
    (tidy Profile.standard (List.replicate (0 + 1) 'A') query).revert.length
  have hidentifier : ∀ n, (Job.standard batch (List.replicate (n + 1) 'A')).identifier =
      List.replicate (n + 1) 'A' := fun n => upper_trimBlank_replicate (n + 1)
  have hrecord := record_eq_of_records_eq (missed?_eq_none_of_mem (isBlank_replicate n) hquote hs)
    (missed?_eq_none_of_mem (isBlank_replicate 0) hquote hs) (hsame n 0) hs
  have hsql := congrArg Record.sql hrecord
  rw [record_of_query (Job.standard _ _) hquery, record_of_query (Job.standard _ _) hquery,
    finish_sql, finish_sql, hidentifier, hidentifier] at hsql
  exact absurd (congrArg List.length hsql) (Nat.ne_of_gt hlonger)

/-- If no query shows the identifier, the records are the same for all identifiers. -/
theorem records_eq_of_not_showsIdentifier {batch a b : Text} (ha : Text.isBlank a = false)
    (hb : Text.isBlank b = false)
    (h : '’' ∉ batch → ∀ s ∈ statementsOf ';' batch, ∀ query,
      s.query Profile.standard = .ok query → ¬ query.ShowsIdentifier) :
    (Job.standard batch a).records = (Job.standard batch b).records := by
  rw [records, records, missed?_congr ha hb]
  cases hmissed : (Job.standard batch b).missed? with
  | some cause => rfl
  | none =>
    have hquote : '’' ∉ batch := by
      intro hmem
      exact (missed?_eq_none_iff.mp hmissed).2.2.1 '’' hmem
        (show '’' ∈ Profile.standard.disallowedQuotes by decide)
    refine congrArg Except.ok (List.map_congr_left fun s hs => ?_)
    cases hquery : s.query Profile.standard with
    | error failure =>
      rw [record_of_failure (Job.standard _ _) hquery, record_of_failure (Job.standard _ _) hquery]
      rfl
    | ok query =>
      have hsame := Held.revert_tidy_of_not_shows (isStandard_of_query hquery)
        (h hquote s hs query hquery)
      rw [record_of_query (Job.standard _ _) hquery, record_of_query (Job.standard _ _) hquery]
      exact congrArg (finish _ s) ((hsame _).trans (hsame _).symm)

end Job

theorem convert_eq_convert_iff {batch a b : String} :
    convert batch a = convert batch b ↔
      (Job.standard batch.toList a.toList).records = (Job.standard batch.toList b.toList).records := by
  rw [convert_eq, convert_eq]
  cases (Job.standard batch.toList a.toList).records <;>
    cases (Job.standard batch.toList b.toList).records <;> simp

/-- The result of a batch is the same for all identifiers exactly when none of its queries shows the
identifier, unless the batch is refused. -/
theorem convert_eq_iff_not_showsIdentifier (batch : String) :
    (∀ a b : String, Text.isBlank a.toList = false → Text.isBlank b.toList = false →
      convert batch a = convert batch b) ↔
    '’' ∈ batch.toList ∨ ∀ s ∈ statementsOf ';' batch.toList, ∀ query,
      s.query Profile.standard = .ok query → ¬ query.ShowsIdentifier := by
  simp only [convert_eq_convert_iff]
  constructor
  · intro hsame
    refine or_iff_not_imp_left.mpr fun hquote s hs query hquery => ?_
    refine Job.not_showsIdentifier_of_records_eq hquote (fun m n => ?_) hs hquery
    have hboth := hsame (String.ofList (List.replicate (m + 1) 'A'))
      (String.ofList (List.replicate (n + 1) 'A'))
    simp only [String.toList_ofList] at hboth
    exact hboth (isBlank_replicate m) (isBlank_replicate n)
  · intro h a b ha hb
    exact Job.records_eq_of_not_showsIdentifier ha hb h.resolve_left

/-- The first of nine literals with a zero behind it is read as the identifier, in a batch without
entity expressions. -/
theorem identifier_shows_behind_literal :
    let batch := "delete from s.t where x = 'a'0 and y in ('b','c','d','e','f','g','h','i');"
    Profile.standard.entityCall.hasMatch batch.toList = false ∧
      Profile.standard.entityToken.hasMatch batch.toList = false ∧
      convert batch "abc" ≠ convert batch "xyz" := by
  decide +kernel

end MutationPreview
