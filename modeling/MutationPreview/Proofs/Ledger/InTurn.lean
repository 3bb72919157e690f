import MutationPreview.Proofs.Ledger.Cut

/-!
# Reverting in one pass and token by token

Reversion is one pass that puts back the longest token at each place. It can also be done token by
token: replace every occurrence of the first token by its value, then every occurrence of the second
one in what came out, and so on, in descending order of the tokens, so that `STR_12` comes before
`STR_1`. The second way looks at values that were put back before, and at tokens that are starts of
other tokens.

Main statement: both ways give the same text if the tokens stay apart from the values
(`Ledger.revert_eq_inTurn`). The one pass fixes the places of the tokens once
(`Ledger.exists_readsAs`); one replacement fills the places of its token and no other
(`Ledger.replace_join`); and the run of all replacements fills them all (`Ledger.inTurn_join`).
-/

namespace MutationPreview

/-- A proper start of a text comes before it in the order of texts. -/
theorem Text.lt_of_prefix {u v : Text} (h : u <+: v) (hne : u ≠ v) : u < v := by
  by_contra hnot
  exact hne (List.le_antisymm h.le (List.not_lt.mp hnot))

namespace Ledger

/-! ## Replacing token by token -/

/-- Replaces tokens by their values, one entry after the other. -/
def replaceInTurn (entries : List (Text × Text)) (t : Text) : Text :=
  entries.foldl (fun t entry => Text.replace entry.1 entry.2 t) t

/-- The entries in descending order of their tokens. -/
def descending (l : Ledger) : List (Text × Text) := l.sortedEntries.reverse

theorem mem_entries {l : Ledger} {entry : Text × Text} :
    entry ∈ l.entries ↔
      ∃ i, i < l.values.length ∧ entry = (l.format.token (i + 1), l.valueAt i) := by
  rw [entries, List.mem_mapIdx]
  constructor
  · rintro ⟨i, hi, rfl⟩
    exact ⟨i, hi, by simp [valueAt, hi]⟩
  · rintro ⟨i, hi, rfl⟩
    exact ⟨i, hi, by simp [valueAt, hi]⟩

theorem mem_descending {l : Ledger} {entry : Text × Text} :
    entry ∈ l.descending ↔ entry ∈ l.entries := by
  rw [descending, List.mem_reverse]
  exact (List.mergeSort_perm _ _).mem_iff

/-- The tokens of a ledger differ. -/
theorem nodup_tokens (l : Ledger) : (l.entries.map Prod.fst).Nodup := by
  rw [List.nodup_iff_pairwise_ne, List.pairwise_iff_getElem]
  intro i j hi hj hij heq
  simp only [entries, List.getElem_map, List.getElem_mapIdx] at heq
  have hsame := TokenFormat.token_injective heq
  omega

/-- The listing in descending order is strictly so. -/
theorem pairwise_descending (l : Ledger) : l.descending.Pairwise fun a b => b.1 < a.1 := by
  have hsorted : l.sortedEntries.Pairwise fun a b => ¬ b.1 < a.1 := by
    have htrans : ∀ a b c : Text × Text, (!decide (b.1 < a.1)) = true →
        (!decide (c.1 < b.1)) = true → (!decide (c.1 < a.1)) = true := by
      intro a b c hab hbc
      simp only [Bool.not_eq_true', decide_eq_false_iff_not, List.not_lt] at hab hbc ⊢
      exact List.le_trans hab hbc
    have htotal : ∀ a b : Text × Text, (!decide (b.1 < a.1) || !decide (a.1 < b.1)) = true := by
      intro a b
      simp only [Bool.or_eq_true, Bool.not_eq_true', decide_eq_false_iff_not, List.not_lt]
      exact List.le_total a.1 b.1
    refine (List.pairwise_mergeSort htrans htotal l.entries).imp ?_
    intro a b hab
    simpa using hab
  have hdistinct : l.sortedEntries.Pairwise fun a b => a.1 ≠ b.1 := by
    have hnodup : (l.sortedEntries.map Prod.fst).Nodup :=
      ((List.mergeSort_perm l.entries _).map Prod.fst).nodup_iff.mpr l.nodup_tokens
    exact List.pairwise_map.mp hnodup
  rw [descending, List.pairwise_reverse]
  refine (hsorted.and hdistinct).imp ?_
  rintro a b ⟨hle, hne⟩
  by_contra hnot
  exact hne (List.le_antisymm (List.not_lt.mp hle) (List.not_lt.mp hnot))

/-! ## Tokens that stay apart from values -/

/-- Whether tokens stay apart from each other and from the values: two occurrences of tokens overlap
only if they start at one place, a token neither runs into a value nor out of it, and no value holds
the lead. -/
structure Apart (l : Ledger) : Prop where
  first : ∃ o lead, l.format.lead = o :: lead ∧ ∀ n, o ∉ (l.format.token n).tail
  starts : ∀ v ∈ l.values, ∃ c u, v = c :: u ∧ ∀ n, c ∉ (l.format.token n).tail
  ends : ∀ v ∈ l.values, ∃ u c, v = u ++ [c] ∧ ∀ n, c ∉ (l.format.token n).dropLast
  absent : ∀ v ∈ l.values, ¬ l.format.lead <:+: v

theorem lead_prefix_token (f : TokenFormat) (n : Nat) : f.lead <+: f.token n := by
  rw [TokenFormat.token, List.append_assoc]
  exact List.prefix_append _ _

/-- A token starts with the first character of the lead, which comes nowhere else in a token. -/
theorem Apart.exists_first {l : Ledger} (h : l.Apart) :
    ∃ o, (∀ n, ∃ u, l.format.token n = o :: u) ∧ ∀ n, o ∉ (l.format.token n).tail := by
  obtain ⟨o, lead, hlead, ho⟩ := h.first
  refine ⟨o, ?_, ho⟩
  intro n
  exact ⟨lead ++ Text.ofNat n ++ l.format.trail, by simp [TokenFormat.token, hlead]⟩

theorem Apart.lead_ne_nil {l : Ledger} (h : l.Apart) : l.format.lead ≠ [] := by
  obtain ⟨o, lead, hlead, -⟩ := h.first
  rw [hlead]
  exact List.cons_ne_nil o lead

/-- No token starts inside a token. -/
theorem Apart.not_prefix_inside {l : Ledger} (h : l.Apart) {m n : Nat} {x z : Text} (hx : x ≠ [])
    (hz : z ≠ []) (hsplit : l.format.token m = x ++ z) (rest : Text) :
    ¬ l.format.token n <+: z ++ rest := by
  obtain ⟨o, hstart, ho⟩ := h.exists_first
  obtain ⟨u, hu⟩ := hstart n
  obtain ⟨d, x, rfl⟩ := List.exists_cons_of_ne_nil hx
  obtain ⟨e, z, rfl⟩ := List.exists_cons_of_ne_nil hz
  rw [hu, List.cons_append]
  intro hpre
  have hoe : o = e := (List.cons_prefix_cons.mp hpre).1
  apply ho m
  rw [hsplit, hoe]
  simp

/-- No token starts inside a value. -/
theorem Apart.not_prefix_value {l : Ledger} (h : l.Apart) {n : Nat} {v x z : Text}
    (hv : v ∈ l.values) (hz : z ≠ []) (hsplit : v = x ++ z) (rest : Text) :
    ¬ l.format.token n <+: z ++ rest := by
  intro hpre
  rcases Text.prefix_append_cases hpre with hwithin | ⟨more, hgoes, -, hmore⟩
  · -- the token would lie in the value, and with it the lead
    apply h.absent v hv
    have hlead : l.format.lead <+: z := (lead_prefix_token _ n).trans hwithin
    rw [hsplit]
    exact hlead.isInfix.trans (List.suffix_append x z).isInfix
  · -- the token would go on behind the last character of the value
    obtain ⟨u, c, hend, hc⟩ := h.ends v hv
    obtain ⟨w, rfl⟩ : ∃ w, z = w ++ [c] := by
      rcases List.eq_nil_or_concat z with hnil | ⟨w, d, rfl⟩
      · exact absurd hnil hz
      · have heq : (x ++ w) ++ [d] = u ++ [c] := by rw [← hend, hsplit, List.append_assoc]; simp
        rw [← (List.append_inj' heq rfl).2]
        exact ⟨w, List.concat_eq_append⟩
    apply hc n
    rw [hmore, List.dropLast_append_of_ne_nil hgoes]
    simp

/-! ## The places of the tokens -/

/-- What stands in the text at the place of a value. -/
def written (l : Ledger) (i : Nat) : Text := l.format.token (i + 1)

/-- Whether the places of a text are those that the one pass reads: no token stands at a character
that is copied, and none that is longer than the one that is read. -/
def Placed (l : Ledger) : List (Segment Nat) → Prop
  | [] => True
  | .plain c :: segs =>
    (∀ j, j < l.values.length → ¬ l.written j <+: c :: Segment.join l.written segs) ∧ Placed l segs
  | .span i :: segs =>
    (i < l.values.length ∧ ∀ j, j < l.values.length →
      l.written j <+: l.written i ++ Segment.join l.written segs →
      (l.written j).length ≤ (l.written i).length) ∧ Placed l segs

theorem Placed.lt_of_mem {l : Ledger} {segs : List (Segment Nat)} (h : l.Placed segs) {i : Nat}
    (hi : i ∈ Segment.spans segs) : i < l.values.length := by
  induction segs with
  | nil => simp at hi
  | cons s segs ih =>
    cases s with
    | plain c => exact ih h.2 hi
    | span k =>
      rcases List.mem_cons.mp hi with rfl | hi
      · exact h.1.1
      · exact ih h.2 hi

/-- Characters that no token starts with are copied. -/
theorem Placed.append_plain {l : Ledger} {o : Char} {lead u : Text} {segs : List (Segment Nat)}
    (hlead : l.format.lead = o :: lead) (hu : o ∉ u) (h : l.Placed segs) :
    l.Placed (u.map .plain ++ segs) := by
  induction u with
  | nil => exact h
  | cons c u ih =>
    refine ⟨?_, ih fun hmem => hu (List.mem_cons_of_mem c hmem)⟩
    intro j _ hpre
    rw [written, TokenFormat.token, hlead] at hpre
    have hoc : o = c := (List.cons_prefix_cons.mp hpre).1
    exact hu (by rw [hoc]; exact List.mem_cons_self)

/-- Whether `segs` are the places of the tokens that the one pass reads in `t`, which puts the values
there. -/
structure ReadsAs (l : Ledger) (t : Text) (segs : List (Segment Nat)) : Prop where
  placed : l.Placed segs
  text_eq : Segment.join l.written segs = t
  pass_eq : Text.substitute l.revertRule t = Segment.join l.valueAt segs

/-- The one pass steps over a token that it reads. -/
theorem ReadsAs.token {l : Ledger} {i : Nat} {value rest : Text} {segs : List (Segment Nat)}
    (hi : l.values[i]? = some value)
    (hat : l.tokenAt? (l.written i ++ rest) = some (l.written i, value))
    (h : l.ReadsAs rest segs) : l.ReadsAs (l.written i ++ rest) (.span i :: segs) where
  placed := by
    obtain ⟨-, -, hlongest⟩ := tokenAt?_eq_some_iff.mp hat
    refine ⟨⟨(List.getElem?_eq_some_iff.mp hi).1, ?_⟩, h.placed⟩
    rw [h.text_eq]
    exact hlongest
  text_eq := by rw [Segment.join_span, h.text_eq]
  pass_eq := by
    have hne : l.written i ≠ [] := TokenFormat.token_ne_nil l.format (i + 1)
    have hvalue : l.valueAt i = value := by simp [valueAt, hi]
    rw [substitute_of_tokenAt? hne hat, h.pass_eq, Segment.join_span, hvalue]

/-- The one pass copies a lead without a token behind it as a whole. -/
theorem ReadsAs.lead {l : Ledger} {o : Char} {lead rest : Text} {segs : List (Segment Nat)}
    (hlead : l.format.lead = o :: lead) (ho : o ∉ lead)
    (hat : l.tokenAt? (o :: (lead ++ rest)) = none) (h : l.ReadsAs rest segs) :
    l.ReadsAs (o :: (lead ++ rest)) (.plain o :: (lead.map .plain ++ segs)) := by
  have htext : Segment.join l.written (lead.map .plain ++ segs) = lead ++ rest := by
    rw [Segment.join_append, Segment.join_map_plain, h.text_eq]
  have hrule : l.revertRule (o :: (lead ++ rest)) = some (lead.length, o :: lead) := by
    rw [revertRule, hat, hlead]
    simp
  constructor
  · refine ⟨?_, h.placed.append_plain hlead ho⟩
    rw [htext]
    exact tokenAt?_eq_none_iff.mp hat
  · rw [Segment.join_plain, htext]
  · rw [Text.substitute_of_some hrule, h.pass_eq, Segment.join_plain, Segment.join_append,
      Segment.join_map_plain, List.cons_append]

/-- The one pass copies a character that starts no lead. -/
theorem ReadsAs.char {l : Ledger} {c : Char} {t : Text} {segs : List (Segment Nat)}
    (hlead : ¬ l.format.lead <+: c :: t) (h : l.ReadsAs t segs) :
    l.ReadsAs (c :: t) (.plain c :: segs) where
  placed := by
    refine ⟨?_, h.placed⟩
    rw [h.text_eq]
    exact tokenAt?_eq_none_iff.mp (tokenAt?_eq_none hlead)
  text_eq := by rw [Segment.join_plain, h.text_eq]
  pass_eq := by
    rw [Text.substitute_of_none (revertRule_eq_none hlead), h.pass_eq, Segment.join_plain]

/-- The one pass reads every text as tokens at their places. -/
theorem exists_readsAs {l : Ledger} (h : l.Apart) (t : Text) : ∃ segs, l.ReadsAs t segs := by
  obtain ⟨o, lead, hlead, ho⟩ := h.first
  -- each step of the pass shortens the text
  induction hn : t.length using Nat.strongRecOn generalizing t with
  | ind n ih =>
    cases t with
    | nil => exact ⟨[], trivial, rfl, rfl⟩
    | cons c t =>
      cases hat : l.tokenAt? (c :: t) with
      | some found =>
        obtain ⟨token, value⟩ := found
        obtain ⟨hget, ⟨rest, hrest⟩, -⟩ := tokenAt?_eq_some_iff.mp hat
        obtain ⟨i, hi, rfl⟩ := get?_eq_some_iff.mp hget
        have hshort : rest.length < n := by
          have hlen := congrArg List.length hrest
          have hpos := List.length_pos_iff.mpr (TokenFormat.token_ne_nil l.format (i + 1))
          rw [List.length_append, hn] at hlen
          omega
        obtain ⟨segs, hreads⟩ := ih rest.length hshort rest rfl
        rw [← hrest] at hat ⊢
        exact ⟨_, hreads.token hi hat⟩
      | none =>
        by_cases hpre : l.format.lead <+: c :: t
        · obtain ⟨rest, hrest⟩ := hpre
          rw [hlead, List.cons_append, List.cons.injEq] at hrest
          obtain ⟨rfl, rfl⟩ := hrest
          have hshort : rest.length < n := by
            rw [← hn, List.length_cons, List.length_append]
            omega
          obtain ⟨segs, hreads⟩ := ih rest.length hshort rest rfl
          have honce : o ∉ lead := fun hmem => ho 0 (by simp [TokenFormat.token, hlead, hmem])
          exact ⟨_, hreads.lead hlead honce hat⟩
        · have hshort : t.length < n := by
            rw [← hn, List.length_cons]
            omega
          obtain ⟨segs, hreads⟩ := ih t.length hshort t rfl
          exact ⟨_, hreads.char hpre⟩

/-! ## One replacement -/

/-- What stands at the place of a value once the tokens in `done` have been replaced. -/
def current (l : Ledger) (done : List Text) (i : Nat) : Text :=
  if l.written i ∈ done then l.valueAt i else l.written i

theorem Apart.exists_current {l : Ledger} (h : l.Apart) (done : List Text) {i : Nat}
    (hi : i < l.values.length) :
    ∃ c u, l.current done i = c :: u ∧ ∀ n, c ∉ (l.format.token n).tail := by
  rw [current]
  split
  · exact h.starts _ (valueAt_mem hi)
  · obtain ⟨o, hstart, ho⟩ := h.exists_first
    obtain ⟨u, hu⟩ := hstart (i + 1)
    exact ⟨o, u, hu, ho⟩

/-- Behind its first character, what a token needs lies between two places, where no replacement
changes anything. -/
theorem Apart.prefix_written {l : Ledger} (h : l.Apart) {done : List Text} {n : Nat} {u : Text}
    {segs : List (Segment Nat)} (hplaced : l.Placed segs) (hu : ∀ c ∈ u, c ∈ (l.format.token n).tail)
    (hpre : u <+: Segment.join (l.current done) segs) : u <+: Segment.join l.written segs := by
  obtain ⟨y, hy⟩ := hpre
  have hspan : ∀ i ∈ Segment.spans segs, ∃ c v, l.current done i = c :: v ∧ c ∉ u := by
    intro i hi
    obtain ⟨c, v, hcv, hc⟩ := h.exists_current done (hplaced.lt_of_mem hi)
    exact ⟨c, v, hcv, fun hmem => hc n (hu c hmem)⟩
  obtain ⟨tail, rfl, -⟩ := Segment.split_join_start hspan hy.symm
  rw [Segment.join_append, Segment.join_map_plain]
  exact List.prefix_append _ _

/-- No token starts at a character that the one pass copies. -/
theorem Apart.not_prefix_plain {l : Ledger} (h : l.Apart) (done : List Text) {j : Nat}
    (hj : j < l.values.length) {c : Char} {segs : List (Segment Nat)}
    (hplaced : l.Placed (.plain c :: segs)) :
    ¬ l.written j <+: c :: Segment.join (l.current done) segs := by
  obtain ⟨o, hstart, -⟩ := h.exists_first
  obtain ⟨u, hu⟩ := hstart (j + 1)
  have htail : (l.format.token (j + 1)).tail = u := congrArg List.tail hu
  intro hpre
  rw [written, hu] at hpre
  obtain ⟨hoc, hbehind⟩ := List.cons_prefix_cons.mp hpre
  apply hplaced.1 j hj
  rw [written, hu]
  refine List.cons_prefix_cons.mpr ⟨hoc, h.prefix_written (n := j + 1) hplaced.2 ?_ hbehind⟩
  intro d hd
  rw [htail]
  exact hd

/-- No other token starts within a token that the one pass reads, if none starts with it. -/
theorem Apart.not_prefix_token {l : Ledger} (h : l.Apart) (done : List Text) {i j : Nat}
    (hj : j < l.values.length) {segs : List (Segment Nat)} (hplaced : l.Placed (.span i :: segs))
    (hnot : ¬ l.written j <+: l.written i) {x z : Text} (hz : z ≠ [])
    (hsplit : l.written i = x ++ z) :
    ¬ l.written j <+: z ++ Segment.join (l.current done) segs := by
  cases x with
  | cons d x => exact h.not_prefix_inside (List.cons_ne_nil d x) hz hsplit _
  | nil =>
    rw [List.nil_append] at hsplit
    rw [← hsplit]
    intro hpre
    obtain ⟨more, hgoes, hrest, hmore⟩ := (Text.prefix_append_cases hpre).resolve_left hnot
    -- the longer token stands in the text itself, where the one pass would have read it
    have hbehind : more <+: Segment.join l.written segs := by
      obtain ⟨o, hstart, -⟩ := h.exists_first
      obtain ⟨u, hu⟩ := hstart (i + 1)
      have htail : (l.format.token (j + 1)).tail = u ++ more := by
        rw [show l.format.token (j + 1) = l.format.token (i + 1) ++ more from hmore, hu]
        rfl
      refine h.prefix_written (n := j + 1) hplaced.2 ?_ hrest
      intro d hd
      rw [htail]
      exact List.mem_append_right u hd
    have hle := hplaced.1.2 j hj (by
      rw [hmore]
      exact (List.prefix_append_right_inj _).mpr hbehind)
    have hpos := List.length_pos_iff.mpr hgoes
    rw [hmore, List.length_append] at hle
    omega

/-- One replacement fills the places of its token and leaves everything else, if the longer tokens
that start with it have been replaced before. -/
theorem replace_join {l : Ledger} (h : l.Apart) {done : List Text} {j : Nat}
    (hj : j < l.values.length) {segs : List (Segment Nat)} (hplaced : l.Placed segs)
    (hlonger : ∀ i ∈ Segment.spans segs, l.written i ∉ done → l.written j <+: l.written i → i = j) :
    Text.replace (l.written j) (l.valueAt j) (Segment.join (l.current done) segs) =
      Segment.join (l.current (l.written j :: done)) segs := by
  induction segs with
  | nil => rfl
  | cons s segs ih =>
    cases s with
    | plain c =>
      rw [Segment.join_plain, Segment.join_plain, ← ih hplaced.2 hlonger]
      exact Text.replace_cons (h.not_prefix_plain done hj hplaced)
    | span i =>
      have hrest := ih hplaced.2 fun i hi => hlonger i (List.mem_cons_of_mem _ hi)
      rw [Segment.join_span, Segment.join_span, ← hrest]
      by_cases hdone : l.written i ∈ done
      · -- a value is in its place already
        rw [current, if_pos hdone, current, if_pos (List.mem_cons_of_mem _ hdone)]
        apply Text.replace_copy
        intro x z hsplit hz
        exact h.not_prefix_value (valueAt_mem hplaced.1.1) hz hsplit _
      · by_cases hij : i = j
        · subst hij
          rw [current, if_neg hdone, current, if_pos List.mem_cons_self]
          exact Text.replace_append (TokenFormat.token_ne_nil _ _) _ _
        · have hfresh : l.written i ∉ l.written j :: done := by
            intro hmem
            rcases List.mem_cons.mp hmem with heq | hmem
            · have hsame := TokenFormat.token_injective heq
              omega
            · exact hdone hmem
          rw [current, if_neg hdone, current, if_neg hfresh]
          apply Text.replace_copy
          intro x z hsplit hz
          exact h.not_prefix_token done hj hplaced
            (fun hpre => hij (hlonger i (by simp) hdone hpre)) hz hsplit

/-! ## The run of all replacements -/

/-- Replacing the rest of the tokens, longer ones first, fills the rest of the places. -/
theorem inTurn_join {l : Ledger} (h : l.Apart) {segs : List (Segment Nat)} (hplaced : l.Placed segs)
    {entries : List (Text × Text)} (hentries : ∀ entry ∈ entries, entry ∈ l.entries)
    (horder : entries.Pairwise fun a b => b.1 < a.1) {done : List Text}
    (hrest : ∀ i ∈ Segment.spans segs, l.written i ∉ done →
      (l.written i, l.valueAt i) ∈ entries) :
    replaceInTurn entries (Segment.join (l.current done) segs) = Segment.join l.valueAt segs := by
  induction entries generalizing done with
  | nil =>
    apply Segment.join_congr
    intro i hi
    rw [current, if_pos]
    by_contra hdone
    simpa using hrest i hi hdone
  | cons entry entries ih =>
    obtain ⟨j, hj, rfl⟩ := mem_entries.mp (hentries entry List.mem_cons_self)
    obtain ⟨hfirst, horder⟩ := List.pairwise_cons.mp horder
    have hlonger : ∀ i ∈ Segment.spans segs, l.written i ∉ done → l.written j <+: l.written i →
        i = j := by
      intro i hi hdone hpre
      rcases List.mem_cons.mp (hrest i hi hdone) with heq | hlater
      · have htoken : l.written i = l.written j := congrArg Prod.fst heq
        have hsame := TokenFormat.token_injective htoken
        omega
      · -- a longer token is greater, and so it comes before
        by_contra hij
        have hne : l.written j ≠ l.written i := by
          intro htoken
          have hsame := TokenFormat.token_injective htoken
          omega
        have hless : l.written i < l.written j := hfirst _ hlater
        exact List.lt_irrefl _ (List.lt_trans hless (Text.lt_of_prefix hpre hne))
    rw [replaceInTurn, List.foldl_cons]
    have hstep := replace_join h hj hplaced hlonger
    rw [written] at hstep
    rw [hstep]
    refine ih (fun entry hentry => hentries entry (List.mem_cons_of_mem _ hentry)) horder ?_
    intro i hi hdone
    rw [List.mem_cons, not_or] at hdone
    rcases List.mem_cons.mp (hrest i hi hdone.2) with heq | hlater
    · exact absurd (congrArg Prod.fst heq) hdone.1
    · exact hlater

/-- Reversion in one pass is replacement token by token, in descending order of the tokens. -/
theorem revert_eq_inTurn {l : Ledger} (h : l.Apart) (t : Text) :
    l.revert t = replaceInTurn l.descending t := by
  obtain ⟨segs, hplaced, hjoin, hpass⟩ := exists_readsAs h t
  have hnone : Segment.join (l.current []) segs = t := by
    rw [← hjoin]
    apply Segment.join_congr
    intro i _
    simp [current]
  rw [revert_eq_substitute h.lead_ne_nil, hpass, ← hnone]
  symm
  refine inTurn_join h hplaced (fun entry => mem_descending.mp) l.pairwise_descending ?_
  intro i hi _
  exact mem_descending.mpr (mem_entries.mpr ⟨i, hplaced.lt_of_mem hi, rfl⟩)

end Ledger

end MutationPreview
