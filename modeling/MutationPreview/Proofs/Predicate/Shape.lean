import MutationPreview.Predicate
import MutationPreview.Proofs.Pattern.Spelling

/-!
# What a predicate of each form looks like

The pattern of a form has many readings, but whether a text has the form comes down to a few
landmarks in it: a comparison sign, the words of a null test, the head and the end of a call. What
stands between two landmarks is free. Each form is described by its landmarks here, one statement
for the three forms of a call (`PredicateForm.hasMatch_call_iff`) and one for each other form.
-/

namespace MutationPreview

namespace PredicateForm

open Pattern

/-! ## Landmarks -/

/-- The signs that end a comparison operator. -/
def isSign (c : Char) : Bool := c == '=' || c == '<' || c == '>'

/-- The words of a null test. -/
def nullWords : Pattern := chain [
  blanks1, word "is".toList, optionalNot, blanks1, word "null".toList]

/-- The word `like`, up to the quote. -/
def likeWord : Pattern := chain [
  blanks1, word "like".toList, blanks1, optional (seq (just '(') blanks)]

/-- The word `in`, up to the list. -/
def inWord : Pattern := chain [blanks1, word "in".toList, blanks1, just '(']

/-- The comma before a quoted argument. -/
def comma : Pattern := chain [just ',', blanks]

/-! ## Forms bound to the start of the text -/

theorem spells_something {u : Text} : something.Spells u ↔ u ≠ [] := by
  rw [something, spells_many1]
  simp

/-- A text with a character that is not blank goes on with blanks and such a character. -/
theorem exists_blanks_append {y : Text} (h : ∃ d ∈ y, isBlank d = false) :
    ∃ b d rest, y = b ++ d :: rest ∧ (∀ c ∈ b, isBlank c = true) ∧ isBlank d = false := by
  induction y with
  | nil => simp at h
  | cons e y ih =>
    by_cases he : isBlank e = true
    · obtain ⟨d, hd, hblank⟩ := h
      have hdy : d ∈ y := by
        rcases List.mem_cons.mp hd with rfl | hdy
        · rw [he] at hblank
          simp at hblank
        · exact hdy
      obtain ⟨b, d, rest, rfl, hb, hd⟩ := ih ⟨d, hdy, hblank⟩
      exact ⟨e :: b, d, rest, rfl, by simpa [he] using hb, hd⟩
    · exact ⟨[], e, y, rfl, by simp, by simpa using he⟩

theorem accepts_comparison_iff {t : Text} :
    comparison.accepts t = true ↔
      ∃ x c y, t = x ++ [c] ++ y ∧ x ≠ [] ∧ isSign c = true ∧ ∃ d ∈ y, isBlank d = false := by
  rw [accepts, pattern, hasMatch_textStart_few1]
  constructor
  · rintro ⟨x, w, y, rfl, hx, h⟩
    have h := h.spells rfl
    obtain ⟨v, w, rfl, hv, hw⟩ := (spells_chain_cons rfl rfl).mp h
    obtain ⟨b, z, rfl, -, hz⟩ := (spells_chain_cons rfl rfl).mp hw
    obtain ⟨hzne, hzblank⟩ := spells_many1.mp hz
    obtain ⟨d, z, rfl⟩ := List.exists_cons_of_ne_nil hzne
    -- every operator ends with a sign
    have hop : ∃ o c, v = o ++ [c] ∧ isSign c = true := by
      obtain ⟨p, hp, hpv⟩ := reads_firstOf.mp hv
      simp only [List.mem_cons, List.not_mem_nil, or_false] at hp
      rcases hp with rfl | rfl | rfl | rfl
      · obtain ⟨o, e, rfl, -, he⟩ := (spells_seq rfl rfl).mp hpv
        exact ⟨o, '=', by rw [spells_just.mp he], rfl⟩
      · obtain ⟨o, e, rfl, -, he⟩ := (spells_seq rfl rfl).mp hpv
        exact ⟨o, '=', by rw [spells_just.mp he], rfl⟩
      · exact ⟨[], '>', spells_just.mp hpv, rfl⟩
      · exact ⟨[], '<', spells_just.mp hpv, rfl⟩
    obtain ⟨o, c, rfl, hc⟩ := hop
    refine ⟨x ++ o, c, b ++ (d :: z) ++ y, by simp, by simp [hx], hc, d, by simp, ?_⟩
    simpa using hzblank d (by simp)
  · rintro ⟨x, c, y, rfl, hx, hc, hy⟩
    obtain ⟨b, d, rest, rfl, hb, hd⟩ := exists_blanks_append hy
    refine ⟨x, [c] ++ (b ++ [d]), rest, by simp, hx, ?_⟩
    refine Spells.reads rfl ?_ _ _
    refine (spells_chain_cons rfl rfl).mpr ⟨[c], b ++ [d], rfl, ?_, ?_⟩
    · rw [isSign, Bool.or_eq_true, Bool.or_eq_true] at hc
      rcases hc with (hc | hc) | hc
      · have hc : c = '=' := by simpa using hc
        exact reads_firstOf.mpr ⟨_, List.mem_cons_self,
          (spells_seq rfl rfl).mpr ⟨[], [c], rfl, Or.inr rfl, spells_just.mpr (by rw [hc])⟩⟩
      · have hc : c = '<' := by simpa using hc
        exact reads_firstOf.mpr ⟨just '<', by simp, spells_just.mpr (by rw [hc])⟩
      · have hc : c = '>' := by simpa using hc
        exact reads_firstOf.mpr ⟨just '>', by simp, spells_just.mpr (by rw [hc])⟩
    · refine (spells_chain_cons rfl rfl).mpr ⟨b, [d], rfl, hb, ?_⟩
      exact spells_many1.mpr ⟨by simp, by simpa using hd⟩

theorem accepts_nullTest_iff {t : Text} :
    nullTest.accepts t = true ↔ ∃ x w y, t = x ++ w ++ y ∧ x ≠ [] ∧ nullWords.Spells w := by
  rw [accepts, pattern, hasMatch_textStart_few1]
  constructor
  · rintro ⟨x, w, y, rfl, hx, h⟩
    exact ⟨x, w, y, rfl, hx, h.spells rfl⟩
  · rintro ⟨x, w, y, rfl, hx, h⟩
    exact ⟨x, w, y, rfl, hx, h.reads rfl _ _⟩

/-- A form that goes on behind any first characters and an optional `not`. -/
theorem hasMatch_optionalNot (ps qs : List Pattern) (hps : (chain ps).edgeFree = true)
    (hqs : (chain qs).edgeFree = true) {t : Text} :
    (chain (textStart :: few1 :: optionalNot :: (ps ++ qs))).hasMatch t = true ↔
      ∃ x w v y, t = x ++ w ++ (v ++ y) ∧ x ≠ [] ∧ (chain ps).Spells w ∧ (chain qs).Spells v := by
  rw [hasMatch_textStart_few1]
  constructor
  · rintro ⟨x, u, y, rfl, hx, h⟩
    obtain ⟨n, u, rfl, -, h⟩ := reads_chain_cons.mp h
    obtain ⟨w, v, rfl, hw, hv⟩ := reads_chain_append.mp h
    exact ⟨x ++ n, w, v, y, by simp, by simp [hx], hw.spells hps, hv.spells hqs⟩
  · rintro ⟨x, w, v, y, rfl, hx, hw, hv⟩
    refine ⟨x, w ++ v, y, by simp, hx, ?_⟩
    refine reads_chain_cons.mpr ⟨[], w ++ v, rfl, Or.inr rfl, ?_⟩
    exact reads_chain_append.mpr ⟨w, v, rfl, hw.reads hps _ _, hv.reads hqs _ _⟩

theorem accepts_like_iff {t : Text} :
    like.accepts t = true ↔
      ∃ x w c y, t = x ++ w ++ '\'' :: c :: y ∧ x ≠ [] ∧ likeWord.Spells w ∧ '\'' ∈ y := by
  have hlike := hasMatch_optionalNot
    [blanks1, word "like".toList, blanks1, optional (seq (just '(') blanks)]
    [just '\'', optional (just '%'), something, optional (just '%'), just '\'',
      optional (chain [blanks, just ')', blanks])] rfl rfl (t := t)
  rw [accepts]
  refine hlike.trans ?_
  constructor
  · rintro ⟨x, w, v, y, rfl, hx, hw, hv⟩
    obtain ⟨q, v, rfl, hq, hv⟩ := (spells_chain_cons rfl rfl).mp hv
    obtain ⟨a, v, rfl, -, hv⟩ := (spells_chain_cons rfl rfl).mp hv
    obtain ⟨s, v, rfl, hs, hv⟩ := (spells_chain_cons rfl rfl).mp hv
    obtain ⟨b, v, rfl, -, hv⟩ := (spells_chain_cons rfl rfl).mp hv
    obtain ⟨q', v, rfl, hq', -⟩ := (spells_chain_cons rfl rfl).mp hv
    rw [spells_just.mp hq, spells_just.mp hq']
    have hne : a ++ s ≠ [] := by simp [spells_something.mp hs]
    obtain ⟨c, rest, hrest⟩ := List.exists_cons_of_ne_nil hne
    refine ⟨x, w, c, rest ++ (b ++ (['\''] ++ v) ++ y), ?_, hx, hw, by simp⟩
    have hcut : a ++ (s ++ (b ++ (['\''] ++ v))) ++ y = c :: (rest ++ (b ++ (['\''] ++ v) ++ y)) := by
      rw [← List.append_assoc a, hrest]
      simp
    rw [List.append_assoc ['\''], hcut]
    rfl
  · rintro ⟨x, w, c, y, rfl, hx, hw, hy⟩
    obtain ⟨s, z, rfl⟩ := List.append_of_mem hy
    refine ⟨x, w, '\'' :: ((c :: s) ++ ['\'']), z, by simp, hx, hw, ?_⟩
    refine (spells_chain_cons rfl rfl).mpr ⟨['\''], _, rfl, by simp, ?_⟩
    refine (spells_chain_cons rfl rfl).mpr ⟨[], _, rfl, Or.inr rfl, ?_⟩
    refine (spells_chain_cons rfl rfl).mpr ⟨c :: s, ['\''], rfl, spells_something.mpr (by simp), ?_⟩
    refine (spells_chain_cons rfl rfl).mpr ⟨[], _, rfl, Or.inr rfl, ?_⟩
    exact (spells_chain_cons rfl rfl).mpr ⟨['\''], [], rfl, by simp, Or.inr rfl⟩

theorem accepts_inList_iff {t : Text} :
    inList.accepts t = true ↔
      ∃ x w a y, t = x ++ w ++ (a ++ [')'] ++ y) ∧ x ≠ [] ∧ inWord.Spells w ∧ a ≠ [] := by
  have hin := hasMatch_optionalNot
    [blanks1, word "in".toList, blanks1, just '(']
    [blanks, something, blanks, just ')'] rfl rfl (t := t)
  rw [accepts]
  refine hin.trans ?_
  constructor
  · rintro ⟨x, w, v, y, rfl, hx, hw, hv⟩
    obtain ⟨a, v, rfl, -, hv⟩ := (spells_chain_cons rfl rfl).mp hv
    obtain ⟨s, v, rfl, hs, hv⟩ := (spells_chain_cons rfl rfl).mp hv
    obtain ⟨b, v, rfl, -, hv⟩ := (spells_chain_cons rfl rfl).mp hv
    have hv : v = [')'] := spells_just.mp hv
    have hs := spells_something.mp hs
    exact ⟨x, w, a ++ s ++ b, y, by simp [hv], hx, hw, by simp [hs]⟩
  · rintro ⟨x, w, s, y, rfl, hx, hw, hs⟩
    refine ⟨x, w, s ++ [')'], y, rfl, hx, hw, ?_⟩
    refine (spells_chain_cons rfl rfl).mpr ⟨[], _, rfl, by simp, ?_⟩
    refine (spells_chain_cons rfl rfl).mpr ⟨s, [')'], rfl, spells_something.mpr hs, ?_⟩
    refine (spells_chain_cons rfl rfl).mpr ⟨[], [')'], rfl, by simp, ?_⟩
    exact spells_just.mpr rfl

/-! ## Calls -/

/-- The opening of a call and its quoted pattern. -/
theorem spells_callStart {u : Text} :
    callStart.Spells u ↔ ∃ b e s p, u = b ++ '(' :: (e ++ s ++ '\'' :: (p ++ ['\''])) ∧
      blanks.Spells b ∧ e ≠ [] ∧ comma.Spells s ∧ p ≠ [] := by
  constructor
  · intro h
    obtain ⟨b, u, rfl, hb, h⟩ := (spells_chain_cons rfl rfl).mp h
    obtain ⟨o, u, rfl, ho, h⟩ := (spells_chain_cons rfl rfl).mp h
    obtain ⟨e, u, rfl, he, h⟩ := (spells_chain_cons rfl rfl).mp h
    obtain ⟨s, u, rfl, hs, h⟩ := (spells_chain_append [just ',', blanks] rfl rfl).mp h
    obtain ⟨q, u, rfl, hq, h⟩ := (spells_chain_cons rfl rfl).mp h
    obtain ⟨p, q', rfl, hp, hq'⟩ := (spells_chain_cons rfl rfl).mp h
    refine ⟨b, e, s, p, ?_, hb, spells_few1.mp he, hs, spells_few1.mp hp⟩
    rw [spells_just.mp ho, spells_just.mp hq, spells_just.mp hq']
    simp
  · rintro ⟨b, e, s, p, rfl, hb, he, hs, hp⟩
    refine (spells_chain_cons rfl rfl).mpr ⟨b, _, rfl, hb, ?_⟩
    refine (spells_chain_cons rfl rfl).mpr ⟨['('], _, rfl, by simp, ?_⟩
    refine (spells_chain_cons rfl rfl).mpr
      ⟨e, s ++ '\'' :: (p ++ ['\'']), by simp, by simpa using he, ?_⟩
    refine (spells_chain_append [just ',', blanks] rfl rfl).mpr ⟨s, _, rfl, hs, ?_⟩
    refine (spells_chain_cons rfl rfl).mpr ⟨['\''], _, rfl, by simp, ?_⟩
    exact (spells_chain_cons rfl rfl).mpr ⟨p, ['\''], rfl, by simpa using hp, by simp [chain]⟩

/-- A flag argument is a comma and more, and ends with a quote and blanks. -/
theorem spells_furtherFlag {u : Text} (h : (furtherArgument flag).Spells u) :
    u = [] ∨ ∃ v b, u = v ++ '\'' :: b ∧ blanks.Spells b := by
  rcases h with h | h
  · obtain ⟨c, u, rfl, -, h⟩ := (spells_chain_cons rfl rfl).mp h
    obtain ⟨b, u, rfl, -, h⟩ := (spells_chain_cons rfl rfl).mp h
    obtain ⟨f, b', rfl, hf, hb'⟩ := (spells_chain_cons rfl rfl).mp h
    obtain ⟨q, f, rfl, -, hf⟩ := (spells_chain_cons rfl rfl).mp hf
    obtain ⟨x, q', rfl, -, hq'⟩ := (spells_chain_cons rfl rfl).mp hf
    refine Or.inr ⟨c ++ b ++ q ++ x, b', ?_, hb'⟩
    rw [spells_just.mp hq']
    simp
  · exact Or.inl h

theorem spells_callEnd {u : Text} :
    callEnd.Spells u ↔ ∃ b, u = b ++ [')'] ∧ blanks.Spells b := by
  constructor
  · intro h
    obtain ⟨b, c, rfl, hb, hc⟩ := (spells_chain_cons rfl rfl).mp h
    exact ⟨b, by rw [spells_just.mp hc], hb⟩
  · rintro ⟨b, rfl, hb⟩
    exact (spells_chain_cons rfl rfl).mpr ⟨b, [')'], rfl, hb, by simp [chain]⟩

/-- The arguments of a call. A flag needs no place of its own: its quotes are as good as those of
the pattern before it, so the flag and all between can be read as part of the pattern. -/
theorem spells_call {args : List Pattern} (hargs : (chain args).edgeFree = true) (hnone : (chain args).Spells [])
    {u : Text} :
    (chain (callStart :: (args ++ [furtherArgument flag, callEnd]))).Spells u ↔
      ∃ b e s p r, u = b ++ '(' :: (e ++ s ++ '\'' :: (p ++ '\'' :: r)) ∧ blanks.Spells b ∧
        e ≠ [] ∧ comma.Spells s ∧ p ≠ [] ∧ (chain (args ++ [callEnd])).Spells r := by
  have hrest : (chain (args ++ [furtherArgument flag, callEnd])).edgeFree = true := by
    rw [edgeFree_chain_append, hargs]
    rfl
  constructor
  · intro h
    obtain ⟨o, u, rfl, ho, h⟩ := (spells_chain_cons rfl hrest).mp h
    obtain ⟨a, u, rfl, ha, h⟩ := (spells_chain_append args hargs rfl).mp h
    obtain ⟨f, c, rfl, hf, hc⟩ := (spells_chain_cons rfl rfl).mp h
    obtain ⟨b, e, s, p, rfl, hb, he, hs, hp⟩ := spells_callStart.mp ho
    rcases spells_furtherFlag hf with rfl | ⟨v, b', rfl, hb'⟩
    · refine ⟨b, e, s, p, a ++ c, by simp, hb, he, hs, hp, ?_⟩
      exact (spells_chain_append args hargs rfl).mpr ⟨a, c, rfl, ha, hc⟩
    · refine ⟨b, e, s, p ++ '\'' :: (a ++ v), b' ++ c, by simp, hb, he, hs, by simp [hp], ?_⟩
      refine (spells_chain_append args hargs rfl).mpr ⟨[], b' ++ c, rfl, hnone, ?_⟩
      obtain ⟨d, rfl, hd⟩ := spells_callEnd.mp hc
      refine spells_callEnd.mpr ⟨b' ++ d, by simp, ?_⟩
      intro c hc
      rcases List.mem_append.mp hc with hc | hc
      · exact hb' c hc
      · exact hd c hc
  · rintro ⟨b, e, s, p, r, rfl, hb, he, hs, hp, hr⟩
    obtain ⟨a, c, rfl, ha, hc⟩ := (spells_chain_append args hargs rfl).mp hr
    refine (spells_chain_cons rfl hrest).mpr
      ⟨b ++ '(' :: (e ++ s ++ '\'' :: (p ++ ['\''])), a ++ c, by simp, ?_, ?_⟩
    · exact spells_callStart.mpr ⟨b, e, s, p, rfl, hb, he, hs, hp⟩
    · refine (spells_chain_append args hargs rfl).mpr ⟨a, c, rfl, ha, ?_⟩
      exact (spells_chain_cons rfl rfl).mpr ⟨[], c, rfl, Or.inr rfl, hc⟩

/-- A text with a call in it, up to what follows the call. -/
def HasCall (name args more : List Pattern) (t : Text) : Prop :=
  ∃ x w e s p r m y,
    t = x ++ w ++ (e ++ s ++ ('\'' :: (p ++ ['\'']) ++ r ++ (m ++ y))) ∧
      (chain (name ++ [blanks, just '('])).Spells w ∧ e ≠ [] ∧ comma.Spells s ∧ p ≠ [] ∧
      (chain (args ++ [callEnd])).Spells r ∧ (chain more).Spells m

/-- The pattern of a call finds a call, whatever may stand before its name. -/
theorem hasMatch_call_iff (first name args more : List Pattern)
    (hfirst : (chain first).edgeFree = true)
    (hskip : (chain first).Spells []) (hname : (chain name).edgeFree = true)
    (hargs : (chain args).edgeFree = true) (hnone : (chain args).Spells [])
    (hmore : (chain more).edgeFree = true) {t : Text} :
    (chain (first ++ (name ++ ((callStart :: (args ++ [furtherArgument flag, callEnd])) ++
      more)))).hasMatch t = true ↔ HasCall name args more t := by
  have hcall : (chain (callStart :: (args ++ [furtherArgument flag, callEnd]))).edgeFree = true := by
    rw [edgeFree_chain_cons, edgeFree_chain_append, hargs]
    rfl
  have hrest := edgeFree_chain_append (callStart :: (args ++ [furtherArgument flag, callEnd])) more
  rw [hcall, hmore] at hrest
  have hall := edgeFree_chain_append name
    ((callStart :: (args ++ [furtherArgument flag, callEnd])) ++ more)
  rw [hname, hrest] at hall
  have hwhole := edgeFree_chain_append first
    (name ++ ((callStart :: (args ++ [furtherArgument flag, callEnd])) ++ more))
  rw [hfirst, hall] at hwhole
  rw [hasMatch_iff_spells hwhole]
  constructor
  · rintro ⟨x, u, y, rfl, h⟩
    obtain ⟨f, u, rfl, -, h⟩ := (spells_chain_append first hfirst hall).mp h
    obtain ⟨n, u, rfl, hn, h⟩ := (spells_chain_append name hname hrest).mp h
    obtain ⟨c, m, rfl, hc, hm⟩ := (spells_chain_append _ hcall hmore).mp h
    obtain ⟨b, e, s, p, r, rfl, hb, he, hs, hp, hr⟩ := (spells_call hargs hnone).mp hc
    refine ⟨x ++ f, n ++ (b ++ ['(']), e, s, p, r, m, y, by simp, ?_, he, hs, hp, hr, hm⟩
    refine (spells_chain_append name hname rfl).mpr ⟨n, b ++ ['('], rfl, hn, ?_⟩
    exact (spells_chain_cons rfl rfl).mpr ⟨b, ['('], rfl, hb, by simp [chain]⟩
  · rintro ⟨x, w, e, s, p, r, m, y, rfl, hw, he, hs, hp, hr, hm⟩
    obtain ⟨n, o, rfl, hn, ho⟩ := (spells_chain_append name hname rfl).mp hw
    obtain ⟨b, o, rfl, hb, ho⟩ := (spells_chain_cons rfl rfl).mp ho
    have ho : o = ['('] := spells_just.mp ho
    refine ⟨x, n ++ ((b ++ '(' :: (e ++ s ++ '\'' :: (p ++ '\'' :: r))) ++ m), y, ?_, ?_⟩
    · rw [ho]
      simp
    · refine (spells_chain_append first hfirst hall).mpr ⟨[], _, rfl, hskip, ?_⟩
      refine (spells_chain_append name hname hrest).mpr ⟨n, _, rfl, hn, ?_⟩
      refine (spells_chain_append _ hcall hmore).mpr ⟨_, m, rfl, ?_, hm⟩
      exact (spells_call hargs hnone).mpr ⟨b, e, s, p, r, rfl, hb, he, hs, hp, hr⟩

/-! ## The forms of a call -/

/-- The name of the function that a form calls. -/
def callName : PredicateForm → List Pattern
  | regexpLike => [word "regexp_like".toList]
  | regexpExtract => [word "regexp_".toList, alt (word "substr".toList) (word "replace".toList)]
  | _ => [word "regexp_instr".toList]

/-- The further arguments of the function that a form calls, flags apart. -/
def callArguments : PredicateForm → List Pattern
  | regexpLike => []
  | regexpExtract => [furtherArgument (char isDigit), furtherArgument (many1 isDigit)]
  | _ => [furtherArgument (char isDigit), furtherArgument (many1 isDigit),
      furtherArgument (many1 isDigit)]

theorem accepts_regexpLike_iff {t : Text} :
    regexpLike.accepts t = true ↔ HasCall regexpLike.callName regexpLike.callArguments [] t := by
  have hskip : (chain [blanks, optional (seq (word "not".toList) blanks1)]).Spells [] :=
    (spells_chain_cons rfl rfl).mpr ⟨[], [], rfl, by simp, Or.inr rfl⟩
  exact hasMatch_call_iff _ regexpLike.callName regexpLike.callArguments [] rfl hskip rfl rfl rfl rfl

theorem accepts_regexpExtract_iff {t : Text} :
    regexpExtract.accepts t = true ↔
      HasCall regexpExtract.callName regexpExtract.callArguments [compared] t := by
  have hnone : (chain regexpExtract.callArguments).Spells [] :=
    (spells_chain_cons rfl rfl).mpr ⟨[], [], rfl, Or.inr rfl, Or.inr rfl⟩
  exact hasMatch_call_iff [blanks] regexpExtract.callName regexpExtract.callArguments [compared] rfl
    (by simp [chain]) rfl rfl hnone rfl

theorem accepts_regexpPosition_iff {t : Text} :
    regexpPosition.accepts t = true ↔
      HasCall regexpPosition.callName regexpPosition.callArguments [compared] t := by
  have hnone : (chain regexpPosition.callArguments).Spells [] :=
    (spells_chain_cons rfl rfl).mpr ⟨[], [], rfl, Or.inr rfl,
      (spells_chain_cons rfl rfl).mpr ⟨[], [], rfl, Or.inr rfl, Or.inr rfl⟩⟩
  exact hasMatch_call_iff [blanks] regexpPosition.callName regexpPosition.callArguments [compared]
    rfl (by simp [chain]) rfl rfl hnone rfl

/-- What follows a call is compared with one value, or with a list of at least two. -/
theorem exists_compared_iff {z : Text} :
    (∃ m y, z = m ++ y ∧ (chain [compared]).Spells m) ↔
      (∃ w y, z = w ++ y ∧ (chain [blanks, just '=']).Spells w ∧ y ≠ []) ∨
        ∃ w a b y, z = w ++ (a ++ [','] ++ (b ++ [')'] ++ y)) ∧
          (chain [blanks, word "in".toList, blanks, just '(']).Spells w ∧ a ≠ [] ∧ b ≠ [] := by
  constructor
  · rintro ⟨m, y, rfl, hm⟩
    obtain ⟨b, m, rfl, hb, hm⟩ := (spells_seq rfl rfl).mp hm
    rcases hm with hm | hm
    · obtain ⟨e, m, rfl, he, hm⟩ := (spells_chain_cons rfl rfl).mp hm
      obtain ⟨b', m, rfl, -, hm⟩ := (spells_chain_cons rfl rfl).mp hm
      obtain ⟨o, m, rfl, -, hm⟩ := (spells_chain_cons rfl rfl).mp hm
      obtain ⟨s, c, rfl, hs, -⟩ := (spells_chain_cons rfl rfl).mp hm
      have hs := spells_something.mp hs
      refine Or.inl ⟨b ++ e, b' ++ (o ++ (s ++ c)) ++ y, by simp, ?_, by simp [hs]⟩
      exact (spells_chain_cons rfl rfl).mpr ⟨b, e, rfl, hb, he⟩
    · obtain ⟨w, m, rfl, hw, hm⟩ :=
        (spells_chain_append [word "in".toList, blanks, just '('] rfl rfl).mp hm
      obtain ⟨s, m, rfl, hs, hm⟩ := (spells_chain_cons rfl rfl).mp hm
      obtain ⟨c, m, rfl, hc, hm⟩ := (spells_chain_cons rfl rfl).mp hm
      obtain ⟨s', d, rfl, hs', hd⟩ := (spells_chain_cons rfl rfl).mp hm
      refine Or.inr ⟨b ++ w, s, s', y, ?_, ?_, spells_something.mp hs, spells_something.mp hs'⟩
      · rw [spells_just.mp hc, spells_just.mp hd]
        simp
      · exact (spells_chain_cons rfl rfl).mpr ⟨b, w, rfl, hb, hw⟩
  · rintro (⟨w, y, rfl, hw, hy⟩ | ⟨w, a, b, y, rfl, hw, ha, hb⟩)
    · obtain ⟨c, e, rfl, hc, he⟩ := (spells_chain_cons rfl rfl).mp hw
      -- blanks and brackets around the value are optional: all that stands behind the sign is one
      refine ⟨c ++ (e ++ y), [], by simp, (spells_seq rfl rfl).mpr ⟨c, e ++ y, rfl, hc, Or.inl ?_⟩⟩
      refine (spells_chain_cons rfl rfl).mpr ⟨e, y, rfl, he, ?_⟩
      refine (spells_chain_cons rfl rfl).mpr ⟨[], y, rfl, by simp, ?_⟩
      refine (spells_chain_cons rfl rfl).mpr ⟨[], y, rfl, Or.inr rfl, ?_⟩
      exact (spells_chain_cons rfl rfl).mpr
        ⟨y, [], by simp, spells_something.mpr hy, Or.inr rfl⟩
    · obtain ⟨c, i, rfl, hc, hi⟩ := (spells_chain_cons rfl rfl).mp hw
      refine ⟨c ++ (i ++ (a ++ ([','] ++ (b ++ [')'])))), y, by simp, ?_⟩
      refine (spells_seq rfl rfl).mpr ⟨c, _, rfl, hc, Or.inr ?_⟩
      refine (spells_chain_append [word "in".toList, blanks, just '('] rfl rfl).mpr
        ⟨i, _, rfl, hi, ?_⟩
      refine (spells_chain_cons rfl rfl).mpr ⟨a, _, rfl, spells_something.mpr ha, ?_⟩
      refine (spells_chain_cons rfl rfl).mpr ⟨[','], _, rfl, by simp, ?_⟩
      exact (spells_chain_cons rfl rfl).mpr ⟨b, [')'], rfl, spells_something.mpr hb, by simp [chain]⟩

end PredicateForm

end MutationPreview
