import Mathlib.Data.List.Induction
import MutationPreview.Proofs.Held.Beside
import MutationPreview.Proofs.Mutation.Identifier
import MutationPreview.Proofs.Tidy.Respace

/-!
# Entity expressions in held text

A call of the entity function has one pair of brackets, and so has what is written in its place. So
a call in a text after replacing was written there, or stands where it stood before, untouched by any
match (`Pattern.call_cases`).
-/

namespace MutationPreview

open Pattern

/-! ## Brackets -/

/-- A text with one pair of brackets, the closing one at its end. -/
def OneBracket (t : Text) : Prop :=
  ∃ p q, t = p ++ '(' :: (q ++ [')']) ∧ ('(' ∉ p ∧ ')' ∉ p) ∧ '(' ∉ q ∧ ')' ∉ q

/-- A text is cut at the first occurrence of a character in one way. -/
theorem Text.cut_unique {a b x y : Text} {c : Char} (ha : c ∉ a) (hb : c ∉ b)
    (h : a ++ c :: x = b ++ c :: y) : a = b ∧ x = y := by
  have hne : ∀ {u : Text}, c ∉ u → ∀ d ∈ u, (d != c) = true := by
    rintro u hu d hd
    have hdc : d ≠ c := by
      rintro rfl
      exact hu hd
    simpa using hdc
  obtain ⟨hab, hxy⟩ := Text.run_unique (hne ha) (hne hb) (by simp) (by simp) h
  exact ⟨hab, (List.cons.inj hxy).2⟩

namespace Segment

variable {α : Type} {cover : α → Text} {x y w s : Text} {c : Char}

/-- A stretch at the end of the text, if no span ends with one of its characters. -/
theorem split_join_end {segs : List (Segment α)}
    (hspan : ∀ a ∈ spans segs, ∃ v c, cover a = v ++ [c] ∧ c ∉ w) (h : join cover segs = x ++ w) :
    ∃ A, segs = A ++ w.map plain ∧ x = join cover A := by
  induction w using List.reverseRecOn generalizing segs with
  | nil => exact ⟨segs, by simp, by simpa using h.symm⟩
  | append_singleton w d ih =>
    rcases List.eq_nil_or_concat' segs with rfl | ⟨segs, s, rfl⟩
    · simp at h
    · rw [join_append, ← List.append_assoc] at h
      cases s with
      | plain c =>
        obtain ⟨hjoin, hlast⟩ := List.append_inj' h rfl
        obtain rfl : c = d := by simpa using hlast
        have hspan' : ∀ a ∈ spans segs, ∃ v c, cover a = v ++ [c] ∧ c ∉ w := by
          intro a ha
          obtain ⟨v, c, hcover, hc⟩ := hspan a (by simp [ha])
          exact ⟨v, c, hcover, fun hmem => hc (by simp [hmem])⟩
        obtain ⟨A, rfl, rfl⟩ := ih hspan' hjoin
        exact ⟨A, by simp, rfl⟩
      | span a =>
        obtain ⟨v, c, hcover, hc⟩ := hspan a (by simp)
        rw [join_span, join_nil, List.append_nil, hcover, ← List.append_assoc] at h
        obtain ⟨-, hlast⟩ := List.append_inj' h rfl
        exact absurd (by simpa using hlast) (fun heq : c = d => hc (by simp [heq]))

/-- A stretch without brackets up to a closing one, at the start of the text: a span would open a
bracket before it closes one. -/
theorem split_join_closing {segs : List (Segment α)} (hspan : ∀ a ∈ spans segs, OneBracket (cover a))
    (hs : '(' ∉ s) (h : join cover segs = s ++ ')' :: y) :
    ∃ B, segs = (s ++ [')']).map plain ++ B ∧ y = join cover B := by
  have hopen : ∀ {a : α} {rest z : Text}, OneBracket (cover a) → '(' ∉ z →
      cover a ++ rest ≠ z ++ ')' :: y := by
    rintro a rest z ⟨p, q, hcover, hp, -⟩ hz heq
    rw [hcover, List.append_assoc, List.cons_append] at heq
    obtain ⟨v, rfl, hv⟩ := Segment.prefix_of_notMem hp.2 heq
    cases v with
    | nil => simp at hv
    | cons d v =>
      rw [List.cons_append, List.cons.injEq] at hv
      exact hz (by simp [← hv.1])
  induction s generalizing segs with
  | nil =>
    cases segs with
    | nil => simp at h
    | cons g segs =>
      cases g with
      | plain c =>
        obtain ⟨rfl, rfl⟩ := List.cons.inj h
        exact ⟨segs, rfl, rfl⟩
      | span a => exact absurd h (hopen (hspan a (by simp)) hs)
  | cons d s ih =>
    cases segs with
    | nil => simp at h
    | cons g segs =>
      cases g with
      | plain c =>
        obtain ⟨rfl, hrest⟩ := List.cons.inj h
        obtain ⟨B, rfl, hy⟩ :=
          ih (fun a ha => hspan a (by simpa using ha)) (fun hmem => hs (by simp [hmem])) hrest
        exact ⟨B, by simp, hy⟩
      | span a => exact absurd h (hopen (hspan a (by simp)) hs)

/-- A word at the start of the text, if every span starts with a longer one. -/
theorem split_join_word {segs : List (Segment α)} (hw : ∀ c ∈ w, isWord c = true)
    (hspan : ∀ a ∈ spans segs, ∃ v c rest, cover a = v ++ c :: rest ∧ (∀ d ∈ v, isWord d = true) ∧
      isWord c = false ∧ w.length < v.length)
    (hy : y.head?.any isWord = false) (h : join cover segs = w ++ y) :
    ∃ B, segs = w.map plain ++ B ∧ y = join cover B := by
  induction w generalizing segs with
  | nil => exact ⟨segs, rfl, h.symm⟩
  | cons d w ih =>
    cases segs with
    | nil => simp at h
    | cons s segs =>
      cases s with
      | plain c =>
        obtain ⟨rfl, hrest⟩ := List.cons.inj h
        have hspan' : ∀ a ∈ spans segs, ∃ v c rest, cover a = v ++ c :: rest ∧
            (∀ d ∈ v, isWord d = true) ∧ isWord c = false ∧ w.length < v.length := by
          intro a ha
          obtain ⟨v, e, rest, hcover, hv, he, hlength⟩ := hspan a (by simpa using ha)
          exact ⟨v, e, rest, hcover, hv, he, Nat.lt_of_succ_lt hlength⟩
        obtain ⟨B, rfl, hB⟩ := ih (fun e he => hw e (by simp [he])) hspan' hrest
        exact ⟨B, rfl, hB⟩
      | span a =>
        obtain ⟨v, c, rest, hcover, hv, hc, hlength⟩ := hspan a (by simp)
        rw [join_span, hcover, List.append_assoc] at h
        obtain ⟨rfl, -⟩ := Text.run_unique hv hw (by simpa using hc) hy h
        exact absurd hlength (Nat.lt_irrefl _)

/-- A pair of brackets and what stands right before it and in it: between the spans, or a span ends
with it. -/
theorem bracket_cases {segs : List (Segment α)} {r : Text}
    (hspan : ∀ a ∈ spans segs, OneBracket (cover a)) (hr : ')' ∉ r) (hs : '(' ∉ s ∧ ')' ∉ s)
    (h : join cover segs = x ++ (r ++ '(' :: (s ++ ')' :: y))) :
    (∃ A B, segs = A ++ ((r ++ '(' :: (s ++ [')'])).map plain ++ B) ∧ x = join cover A ∧
        y = join cover B) ∨
      ∃ a ∈ spans segs, ∃ p, '(' ∉ p ∧ cover a = p ++ '(' :: (s ++ [')']) := by
  rw [← List.append_assoc] at h
  rcases split_join_at h with ⟨A, B, rfl, hA, hB⟩ | ⟨A, a, B, p, q, rfl, ha, -, hq⟩
  · left
    have hends : ∀ a ∈ spans A, ∃ v c, cover a = v ++ [c] ∧ c ∉ r := by
      intro a ha
      obtain ⟨p, q, hcover, -⟩ := hspan a (by simp [ha])
      exact ⟨p ++ '(' :: q, ')', by simp [hcover], hr⟩
    obtain ⟨A, rfl, rfl⟩ := split_join_end hends hA.symm
    obtain ⟨B, rfl, rfl⟩ := split_join_closing (fun a ha => hspan a (by simp [ha])) hs.1 hB.symm
    exact ⟨A, B, by simp, rfl, rfl⟩
  · right
    obtain ⟨p', q', hcover, ⟨hp', -⟩, hq', hclose⟩ := hspan a (by simp)
    -- the span has no other brackets, so it goes on as the text does
    rw [ha] at hcover
    have hp : '(' ∉ p := by
      intro hmem
      have hcount := congrArg (List.count '(') hcover
      have hpos := List.count_pos_iff.mpr hmem
      simp [List.count_eq_zero.mpr hp', List.count_eq_zero.mpr hq'] at hcount
      omega
    obtain ⟨rfl, rfl⟩ := Text.cut_unique hp hp' hcover
    rw [List.append_assoc] at hq
    obtain ⟨rfl, -⟩ := Text.cut_unique hs.2 hclose hq
    exact ⟨a, by simp, p, hp, ha⟩

end Segment

/-! ## Calls -/

/-- The letters and brackets of a call in a text: what stands before them, the argument, and what
stands behind them. -/
def CallAt (t x arg y : Text) : Prop :=
  ∃ w a b c, t = x ++ (w ++ a ++ '(' :: (b ++ arg ++ c ++ ')' :: y)) ∧
    (word "toentityid".toList).Spells w ∧ blanks.Spells a ∧ blanks.Spells b ∧ blanks.Spells c

/-- A call of the entity function in a text: what stands before it, its argument, and what stands
behind it. -/
def IsCall (t x arg y : Text) : Prop := x.getLast?.any isWord = false ∧ CallAt t x arg y

/-- A call in a text as it is once literals are put back, where it may stand right behind one. -/
def Ledger.IsShownCall (l : Ledger) (t x arg y : Text) : Prop :=
  (x.getLast?.any isWord = false ∨ ∃ i < l.values.length, l.format.token (i + 1) <:+ x) ∧
    CallAt t x arg y

/-- The characters that the argument of a call may have. -/
def isArgument (c : Char) : Bool := !(c == '(' || c == ')' || isBlank c)

theorem function_letters : "toentityid".toList ≠ [] ∧
    ∀ x ∈ "toentityid".toList, isWordLetter x = true := by
  decide

theorem notMem_of_blanks {a : Text} (h : blanks.Spells a) {c : Char} (hc : isBlank c = false) :
    c ∉ a := by
  intro hmem
  rw [spells_blanks.mp h c hmem] at hc
  cases hc

theorem startsWord_entityCall : Profile.standard.entityCall.StartsWord :=
  show (chain (wordEdge :: word ('t' :: "oentityid".toList) :: _)).StartsWord from
    startsWord_of_edge_word (by decide)

theorem Pattern.StartsWord.before_eq {p : Pattern} (hp : p.StartsWord) {before u after : Text}
    (h : p.Reads before u after) : before.head?.any isWord = false := by
  obtain ⟨⟨c, v, rfl, hc⟩, hedge⟩ := hp _ _ _ h
  cases hbefore : before.head?.any isWord with
  | false => rfl
  | true =>
    rw [not_atWordEdge hbefore (by simpa using hc)] at hedge
    cases hedge

/-- A call is read where it stands. -/
theorem IsCall.matchAt?_ne_none {x v arg y : Text} (h : IsCall (x ++ v) x arg y) (hne : arg ≠ [])
    (harg : ∀ c ∈ arg, isArgument c = true) :
    Profile.standard.entityCall.matchAt? ⟨x.reverse, v⟩ ≠ none := by
  obtain ⟨hx, w, a, b, c, hv, hw, ha, hb, hc⟩ := h
  rw [List.append_cancel_left_eq] at hv
  intro hnone
  refine matchAt?_eq_none_iff.mp hnone (w ++ (a ++ ('(' :: (b ++ (arg ++ (c ++ [')'])))))) y
    (by simp [hv]) ?_
  have hedge := atWordEdge_before (isWord_of_spells_word function_letters hw) x.reverse
    (a ++ ('(' :: (b ++ (arg ++ (c ++ [')'])))) ++ y)
  rw [List.head?_reverse, hx] at hedge
  refine reads_chain_cons.mpr ⟨[], _, rfl, ⟨rfl, by simpa using hedge⟩, ?_⟩
  refine reads_chain_cons.mpr ⟨w, _, rfl, hw.reads (edgeFree_word _) _ _, ?_⟩
  refine reads_chain_cons.mpr ⟨a, _, rfl, ha.reads (by decide) _ _, ?_⟩
  refine reads_chain_cons.mpr ⟨['('], _, rfl, ⟨'(', rfl, rfl⟩, ?_⟩
  refine reads_chain_cons.mpr ⟨b, _, rfl, hb.reads (by decide) _ _, ?_⟩
  refine reads_chain_cons.mpr ⟨arg, _, rfl, ?_, ?_⟩
  · exact (spells_many1.mpr ⟨hne, harg⟩).reads (by decide) _ _
  · exact reads_chain_cons.mpr ⟨c, [')'], rfl, hc.reads (by decide) _ _, ⟨')', rfl, rfl⟩⟩

/-- The pieces of a call that is found. -/
theorem exists_of_entityCall {before after : Text} {m : Match}
    (h : Profile.standard.entityCall.matchAt? ⟨before, after⟩ = some m) :
    ∃ w a b arg c, m.text = w ++ a ++ '(' :: (b ++ arg ++ c ++ [')']) ∧
      (word "toentityid".toList).Spells w ∧ blanks.Spells a ∧ blanks.Spells b ∧ blanks.Spells c ∧
      arg ≠ [] ∧ (∀ d ∈ arg, isArgument d = true) ∧
      ∃ argument, m.part? .argument = some argument ∧ argument.text = arg := by
  have hchain : (chain ([wordEdge, word "toentityid".toList, blanks, just '(', blanks] ++
      part .argument (many1 isArgument) :: [blanks, just ')'])).matchAt? ⟨before, after⟩ =
      some m := h
  obtain ⟨v, arg, z, rest, -, htext, hv, harg, hz, hpart⟩ :=
    exists_part_of_matchAt? hchain (by simp [chain, partsIn, blanks, just])
  obtain ⟨e, v, rfl, ⟨rfl, -⟩, hv⟩ := reads_chain_cons.mp hv
  obtain ⟨w, v, rfl, hw, hv⟩ := reads_chain_cons.mp hv
  obtain ⟨a, v, rfl, ha, hv⟩ := reads_chain_cons.mp hv
  obtain ⟨o, b, rfl, ho, hb⟩ := reads_chain_cons.mp hv
  obtain ⟨c, d, rfl, hc, hd⟩ := reads_chain_cons.mp hz
  obtain rfl : o = ['('] := spells_just.mp (ho.spells (by decide))
  obtain rfl : d = [')'] := spells_just.mp (Reads.spells (by decide) hd)
  obtain ⟨hne, hall⟩ := spells_many1.mp (harg.spells (by decide))
  exact ⟨w, a, b, arg, c, by simp [htext], hw.spells (edgeFree_word _), ha.spells (by decide),
    Reads.spells (by decide) hb, hc.spells (by decide), hne, hall, hpart⟩

/-- Between blanks, an argument is the one thing that is not blank. -/
theorem argument_unique {b arg c b' arg' c' : Text} (hb : blanks.Spells b) (hc : blanks.Spells c)
    (hb' : blanks.Spells b') (hc' : blanks.Spells c') (harg : ∀ d ∈ arg, isBlank d = false)
    (harg' : ∀ d ∈ arg', isBlank d = false) (h : b ++ arg ++ c = b' ++ arg' ++ c') : arg = arg' := by
  have hnil : ∀ {a : Text}, blanks.Spells a → a.filter (fun d => !MutationPreview.isBlank d) = [] :=
    fun ha => List.filter_eq_nil_iff.mpr fun d hd => by simp [spells_blanks.mp ha d hd]
  have hfilter : ∀ {b arg c : Text}, blanks.Spells b → blanks.Spells c →
      (∀ d ∈ arg, isBlank d = false) →
      (b ++ arg ++ c).filter (fun d => !MutationPreview.isBlank d) = arg := by
    intro b arg c hb hc harg
    have hself : arg.filter (fun d => !MutationPreview.isBlank d) = arg :=
      List.filter_eq_self.mpr fun d hd => by simp [harg d hd]
    rw [List.filter_append, List.filter_append, hnil hb, hnil hc, hself]
    simp
  rw [← hfilter hb hc harg, h, hfilter hb' hc' harg']

theorem notMem_of_isArgument {arg : Text} (h : ∀ c ∈ arg, isArgument c = true) :
    '(' ∉ arg ∧ ')' ∉ arg :=
  ⟨fun hmem => absurd (h _ hmem) (by decide), fun hmem => absurd (h _ hmem) (by decide)⟩

/-- A call has no brackets but its own. -/
theorem brackets_of_call {w a b arg c : Text} (hw : (word "toentityid".toList).Spells w)
    (ha : blanks.Spells a) (hb : blanks.Spells b) (hc : blanks.Spells c)
    (harg : ∀ d ∈ arg, isArgument d = true) :
    ('(' ∉ w ++ a ∧ ')' ∉ w ++ a) ∧ '(' ∉ b ++ arg ++ c ∧ ')' ∉ b ++ arg ++ c := by
  have hbrackets := notMem_of_isArgument harg
  simp only [List.mem_append, not_or]
  exact ⟨⟨⟨hw.notMem (by decide), notMem_of_blanks ha (by decide)⟩,
      hw.notMem (by decide), notMem_of_blanks ha (by decide)⟩,
    ⟨⟨notMem_of_blanks hb (by decide), hbrackets.1⟩, notMem_of_blanks hc (by decide)⟩,
    ⟨notMem_of_blanks hb (by decide), hbrackets.2⟩, notMem_of_blanks hc (by decide)⟩

theorem oneBracket_of_entityCall {before after : Text} {m : Match}
    (h : Profile.standard.entityCall.matchAt? ⟨before, after⟩ = some m) : OneBracket m.text := by
  obtain ⟨w, a, b, arg, c, htext, hw, ha, hb, hc, -, harg, -⟩ := exists_of_entityCall h
  exact ⟨w ++ a, b ++ arg ++ c, by simp [htext], brackets_of_call hw ha hb hc harg⟩

/-! ## Injecting -/

section Inject

variable {l : Ledger} {k : Nat} {is : List Nat} {t x y : Text}

theorem Ledger.IsStandard.isArgument_token (hl : l.IsStandard) :
    ∀ c ∈ l.format.token (k + 1), isArgument c = true := by
  intro c hc
  have hword := hl.isWord_of_mem (Or.inr ⟨k, rfl⟩) hc
  have hblank : isBlank c = false := by
    rw [Bool.eq_false_iff]
    intro hblank
    rw [isWord_of_isBlank hblank] at hword
    cases hword
  have hopen : c ≠ '(' := by
    rintro rfl
    exact absurd hword (by decide)
  have hclose : c ≠ ')' := by
    rintro rfl
    exact absurd hword (by decide)
  simp [isArgument, hblank, hopen, hclose]

theorem isBlank_of_isArgument {c : Char} (h : isArgument c = true) : isBlank c = false := by
  simp only [isArgument, Bool.not_eq_true', Bool.or_eq_false_iff] at h
  exact h.2

theorem entityCallText_eq (token : Text) : entityCallText Profile.standard token =
    "toentityid".toList ++ '(' :: (token ++ [')']) := by
  rw [entityCallText, List.append_assoc]
  rfl

theorem Ledger.IsStandard.isArgument_tokenRun (hl : l.IsStandard) :
    ∀ c ∈ l.tokenRun is, isArgument c = true :=
  forall_mem_tokenRun fun _ => hl.isArgument_token

theorem oneBracket_call (hl : l.IsStandard) :
    OneBracket (entityCallText Profile.standard (l.format.token (k + 1))) :=
  ⟨"toentityid".toList, l.format.token (k + 1), entityCallText_eq _, by decide,
    notMem_of_isArgument hl.isArgument_token⟩

/-- A call that is found is written with the token given, or stays if its argument is not held. -/
theorem callOf_cases {before after : Text} {m : Match}
    (h : Profile.standard.entityCall.matchAt? ⟨before, after⟩ = some m) (token : Text) :
    Held.callOf l token m = entityCallText Profile.standard token ∨
      Held.callOf l token m = m.text ∧ ∃ w a b arg c,
        m.text = w ++ a ++ '(' :: (b ++ arg ++ c ++ [')']) ∧
        (word "toentityid".toList).Spells w ∧ blanks.Spells a ∧ blanks.Spells b ∧
        blanks.Spells c ∧ (∀ d ∈ arg, isArgument d = true) ∧ l.holds arg = false := by
  obtain ⟨w, a, b, arg, c, htext, hw, ha, hb, hc, -, harg, argument, hpart, rfl⟩ :=
    exists_of_entityCall h
  rw [Held.callOf, hpart]
  cases hholds : l.holds argument.text with
  | true => exact Or.inl (by simp [hholds])
  | false =>
    exact Or.inr ⟨by simp [hholds], w, a, b, _, c, htext, hw, ha, hb, hc, harg, hholds⟩

/-- The argument of a call is what stands between its brackets. -/
theorem argument_eq (hl : l.IsStandard) {b arg c p : Text} (hb : blanks.Spells b)
    (hc : blanks.Spells c) (harg : ∀ d ∈ arg, isArgument d = true) (hp : '(' ∉ p)
    (h : entityCallText Profile.standard (l.format.token (k + 1)) =
      p ++ '(' :: (b ++ arg ++ c ++ [')'])) : arg = l.format.token (k + 1) := by
  rw [entityCallText_eq] at h
  obtain ⟨-, hinside⟩ := Text.cut_unique (by decide) hp h
  have hnil : blanks.Spells [] := spells_blanks.mpr (by simp)
  refine argument_unique hb hc hnil hnil (fun d hd => isBlank_of_isArgument (harg d hd))
    (fun d hd => isBlank_of_isArgument (hl.isArgument_token d hd)) ?_
  simpa using (List.append_cancel_right hinside).symm

/-- The texts of two kinds of spans end alike, and so do the joined texts. -/
theorem Segment.getLast?_join_congr {α : Type} {f g : α → Text} {segs : List (Segment α)}
    (h : ∀ a ∈ Segment.spans segs, ∃ v w c, f a = v ++ [c] ∧ g a = w ++ [c]) :
    (Segment.join f segs).getLast? = (Segment.join g segs).getLast? := by
  rcases List.eq_nil_or_concat' segs with rfl | ⟨segs, s, rfl⟩
  · rfl
  · rw [Segment.join_append, Segment.join_append]
    cases s with
    | plain c => simp
    | span a =>
      obtain ⟨v, w, c, hf, hg⟩ := h a (by simp)
      simp [hf, hg, ← List.append_assoc]

/-- A token at the end of a text stands behind all spans, if these end with a bracket. -/
theorem Segment.exists_token_end {α : Type} {f : α → Text} {segs : List (Segment α)} {i : Nat}
    (hl : l.IsStandard) (hspan : ∀ a ∈ Segment.spans segs, OneBracket (f a))
    (h : l.format.token (i + 1) <:+ Segment.join f segs) :
    ∃ A, segs = A ++ (l.format.token (i + 1)).map .plain := by
  obtain ⟨x, hx⟩ := h
  refine (Segment.split_join_end (fun a ha => ?_) hx.symm).imp fun A hA => hA.1
  obtain ⟨p, q, hcover, -⟩ := hspan a ha
  exact ⟨p ++ '(' :: q, ')', by simp [hcover], (notMem_of_isArgument hl.isArgument_token).2⟩

/-- Where literals keep apart, no call with literals stands right behind one. -/
theorem Ledger.IsShownCall.isCall (hapart : l.KeepsApart t) (hne : is ≠ [])
    (h : l.IsShownCall t x (l.tokenRun is) y) : IsCall t x (l.tokenRun is) y := by
  obtain ⟨hx | ⟨i, hi, x, rfl⟩, hcall⟩ := h
  · exact ⟨hx, hcall⟩
  · exfalso
    obtain ⟨w, a, b, c, rfl, hw, ha, hb, -⟩ := hcall
    obtain ⟨rest, hrest⟩ := lead_prefix_tokenRun (l := l) hne
    have hfound := hasMatch_of_spells (edgeFree_callAtLiteral (l.format.token (i + 1)) l.format.lead)
      (spells_callAtLiteral (spells_callOpening hw ha hb)) x (rest ++ (c ++ ')' :: y))
    have hnone := hapart.no_call i hi
    simp only [← hrest, List.append_assoc, List.cons_append] at hfound hnone
    rw [hnone] at hfound
    cases hfound

/-- Where literals keep apart, a call with literals has one. -/
theorem IsCall.holds (hl : l.IsStandard) (hapart : l.KeepsApart t) (hne : is ≠ [])
    (hi : ∀ i ∈ is, i < l.values.length) (h : IsCall t x (l.tokenRun is) y) :
    l.holds (l.tokenRun is) = true := by
  obtain ⟨hx, w, a, b, c, rfl, hw, ha, hb, -⟩ := h
  match is, hne with
  | [i], _ =>
    rw [Ledger.tokenRun, List.flatMap_singleton]
    exact Ledger.holds_iff.mpr ⟨i, hi i (by simp), rfl⟩
  | i :: j :: is, _ =>
    exfalso
    have hedge := atWordEdge_before (isWord_of_spells_word function_letters hw) x.reverse
      (a ++ '(' :: b ++ (l.format.token (i + 1) ++ l.format.lead) ++
        (Text.ofNat (j + 1) ++ (l.tokenRun is ++ (c ++ ')' :: y))))
    rw [List.head?_reverse, hx] at hedge
    have hreads := reads_callOfLiterals (by simpa using hedge) (spells_callOpening hw ha hb)
    have hfound := hasMatch_iff.mpr ⟨x, _, _, rfl, hreads⟩
    have hnone := hapart.no_several i (hi i (by simp))
    simp only [Ledger.tokenRun, List.flatMap_cons, hl.token_eq, List.append_assoc,
      List.cons_append] at hfound hnone
    rw [hnone] at hfound
    cases hfound

/-- A call ends as it did when it is replaced. -/
theorem exists_last_callOf {before after : Text} {m : Match}
    (hsome : Profile.standard.entityCall.matchAt? ⟨before, after⟩ = some m) :
    ∃ v v' d, Held.callOf l (l.format.token (k + 1)) m = v ++ [d] ∧ m.text = v' ++ [d] := by
  obtain ⟨p, q, htext, -⟩ := oneBracket_of_entityCall hsome
  rcases callOf_cases (l := l) hsome (l.format.token (k + 1)) with hcall | ⟨hcall, -⟩
  · exact ⟨"toentityid".toList ++ '(' :: l.format.token (k + 1), p ++ '(' :: q, ')',
      by rw [hcall, entityCallText_eq]; simp, by rw [htext]; simp⟩
  · exact ⟨p ++ '(' :: q, p ++ '(' :: q, ')', by rw [hcall, htext]; simp, by rw [htext]; simp⟩

theorem oneBracket_callOf (hl : l.IsStandard) {before after : Text} {m : Match}
    (hsome : Profile.standard.entityCall.matchAt? ⟨before, after⟩ = some m) :
    OneBracket (Held.callOf l (l.format.token (k + 1)) m) := by
  rcases callOf_cases (l := l) hsome (l.format.token (k + 1)) with hcall | ⟨hcall, -⟩
  · exact hcall ▸ oneBracket_call hl
  · exact hcall ▸ oneBracket_of_entityCall hsome

/-- Replacing calls changes neither whether a text ends with a word nor the token it ends with. -/
theorem end_of_replaced (hl : l.IsStandard) {A B : List (Segment Match)}
    (hsegs : Segmented Profile.standard.entityCall [] t (A ++ B))
    (h : (Segment.join (Held.callOf l (l.format.token (k + 1))) A).getLast?.any isWord = false ∨
      ∃ i < l.values.length, l.format.token (i + 1) <:+
        Segment.join (Held.callOf l (l.format.token (k + 1))) A) :
    (Segment.join Match.text A).getLast?.any isWord = false ∨
      ∃ i < l.values.length, l.format.token (i + 1) <:+ Segment.join Match.text A := by
  have hsome : ∀ m ∈ Segment.spans A, ∃ before rest,
      Profile.standard.entityCall.matchAt? ⟨before, m.text ++ rest⟩ = some m := by
    intro m hm
    obtain ⟨before, rest, hsome, -⟩ := hsegs.reads_of_mem (m := m) (by simp [hm])
    exact ⟨before, rest, hsome⟩
  rcases h with h | ⟨i, hlt, hend⟩
  · left
    rw [← h, Segment.getLast?_join_congr]
    intro m hm
    obtain ⟨before, rest, hsome⟩ := hsome m hm
    obtain ⟨v, v', d, hcall, htext⟩ := exists_last_callOf (l := l) (k := k) hsome
    exact ⟨v', v, d, htext, hcall⟩
  · right
    have hspan : ∀ m ∈ Segment.spans A,
        OneBracket (Held.callOf l (l.format.token (k + 1)) m) := by
      intro m hm
      obtain ⟨before, rest, hsome⟩ := hsome m hm
      exact oneBracket_callOf hl hsome
    obtain ⟨A, rfl⟩ := Segment.exists_token_end hl hspan hend
    exact ⟨i, hlt, Segment.join Match.text A, by simp [Segment.join_append]⟩

/-- A call with held literals is found, so the pass over the calls does not copy it. -/
theorem not_plain_of_call (hl : l.IsStandard) (hapart : l.KeepsApart t) (hne : is ≠ [])
    {w a b c : Text} {A B : List (Segment Match)}
    (hx : (Segment.join Match.text A).getLast?.any isWord = false ∨
      ∃ i < l.values.length, l.format.token (i + 1) <:+ Segment.join Match.text A)
    (hw : (word "toentityid".toList).Spells w) (ha : blanks.Spells a) (hb : blanks.Spells b)
    (hc : blanks.Spells c) :
    ¬ Segmented Profile.standard.entityCall [] t
      (A ++ ((w ++ a ++ '(' :: (b ++ l.tokenRun is ++ c ++ [')'])).map .plain ++ B)) := by
  intro hsegs
  obtain ⟨v, rfl, hbehind⟩ := hsegs.exists_behind
  have hv := hbehind.join_eq
  rw [Segment.join_append, Segment.join_map_plain] at hv
  have hcall : IsCall (Segment.join Match.text A ++ v) (Segment.join Match.text A)
      (l.tokenRun is) (Segment.join Match.text B) :=
    Ledger.IsShownCall.isCall hapart hne
      ⟨hx, w, a, b, c, by rw [← hv]; simp, hw, ha, hb, hc⟩
  have hsome := hcall.matchAt?_ne_none (Ledger.tokenRun_ne_nil hne) hl.isArgument_tokenRun
  obtain ⟨d, w, rfl⟩ := List.exists_cons_of_ne_nil (isWord_of_spells_word function_letters hw).1
  cases hbehind with
  | plain hnone _ => exact hsome (by simpa using hnone)

/-- A call that is found and has held literals is written with the token given. -/
theorem eq_singleton_of_callOf (hl : l.IsStandard) (hapart : l.KeepsApart t) (hne : is ≠ [])
    (hi : ∀ i ∈ is, i < l.values.length) {segs : List (Segment Match)}
    (hsegs : Segmented Profile.standard.entityCall [] t segs) {m : Match}
    (hm : m ∈ Segment.spans segs) {b c p : Text} (hb : blanks.Spells b) (hc : blanks.Spells c)
    (hp : '(' ∉ p) (hcall : Held.callOf l (l.format.token (k + 1)) m =
      p ++ '(' :: (b ++ l.tokenRun is ++ c ++ [')'])) : is = [k] := by
  obtain ⟨A, B, rfl⟩ := List.append_of_mem (Segment.mem_spans.mp hm)
  obtain ⟨v, rfl, hbehind⟩ := hsegs.exists_behind
  cases hbehind with
  | @span _ rest _ _ hsome _ _ =>
    rcases callOf_cases (l := l) hsome (l.format.token (k + 1)) with
      hwritten | ⟨hkept, w', a', b', arg, c', htext, hw', ha', hb', hc', harg, hholds⟩
    · exact hl.eq_singleton
        (argument_eq hl hb hc hl.isArgument_tokenRun hp (hwritten.symm.trans hcall))
    · -- it was not kept, because its argument is held
      exfalso
      rw [hcall, htext] at hkept
      obtain ⟨⟨hopen, -⟩, -⟩ := brackets_of_call hw' ha' hb' hc' harg
      obtain ⟨-, hbetween⟩ := Text.cut_unique hp hopen hkept
      obtain rfl := argument_unique hb hc hb' hc'
        (fun d hd => isBlank_of_isArgument (hl.isArgument_tokenRun d hd))
        (fun d hd => isBlank_of_isArgument (harg d hd)) (List.append_cancel_right hbetween)
      obtain ⟨rest', -, -, -, hreads⟩ := matchAt?_some hsome
      have hedge := startsWord_entityCall.before_eq hreads
      rw [List.append_nil, List.head?_reverse] at hedge
      have hfound : IsCall (Segment.join Match.text A ++ (m.text ++ rest))
          (Segment.join Match.text A) (l.tokenRun is) rest :=
        ⟨hedge, w', a', b', c', by rw [htext]; simp, hw', ha', hb', hc'⟩
      rw [hfound.holds hl hapart hne hi] at hholds
      cases hholds

/-- Once calls are replaced, every call with held literals has the token given. -/
theorem call_of_replaced (hl : l.IsStandard) (hapart : l.KeepsApart t) (hne : is ≠ [])
    (hi : ∀ i ∈ is, i < l.values.length) (h : l.IsShownCall (Profile.standard.entityCall.replaceAll
      (Held.callOf l (l.format.token (k + 1))) t) x (l.tokenRun is) y) : is = [k] := by
  obtain ⟨hx, w, a, b, c, hjoin, hw, ha, hb, hc⟩ := h
  have hsegs := segmented_segments (p := Profile.standard.entityCall) (by decide) t
  rw [replaceAll] at hjoin
  generalize Profile.standard.entityCall.segments t = segs at hsegs hjoin
  have hspan : ∀ m ∈ Segment.spans segs,
      OneBracket (Held.callOf l (l.format.token (k + 1)) m) := by
    intro m hm
    obtain ⟨before, rest, hsome, -⟩ := hsegs.reads_of_mem hm
    exact oneBracket_callOf hl hsome
  obtain ⟨⟨-, hclose⟩, hinside⟩ := brackets_of_call hw ha hb hc hl.isArgument_tokenRun
  rcases Segment.bracket_cases hspan hclose hinside hjoin with
    ⟨A, B, rfl, rfl, -⟩ | ⟨m, hm, p, hp, hcall⟩
  · exact absurd hsegs (not_plain_of_call hl hapart hne (end_of_replaced hl hsegs hx) hw ha hb hc)
  · exact eq_singleton_of_callOf hl hapart hne hi hsegs hm hb hc hp hcall

/-! ## Entity tokens -/

theorem token_letters : "entityid".toList ≠ [] ∧
    ∀ x ∈ "entityid".toList, isWordLetter x = true := by
  decide

/-- An entity token is a colon and a word. -/
theorem exists_of_spells_token {u : Text} (h : (word ":entityid".toList).Spells u) :
    ∃ e, u = ':' :: e ∧ (word "entityid".toList).Spells e := by
  have hletters := reads_word_iff.mp h
  rw [show ":entityid".toList = ':' :: "entityid".toList from rfl] at hletters
  cases hletters with
  | @cons _ c _ e hc he =>
    have hcolon : (c == ':') = true :=
      forall_of_sameLetter (p := fun c => c == ':') (x := ':') (by decide) (by decide) hc
    exact ⟨e, by rw [beq_iff_eq.mp hcolon], reads_word_iff.mpr he⟩

theorem reads_entityToken_iff {before u after : Text} :
    Profile.standard.entityToken.Reads before u after ↔
      (word ":entityid".toList).Spells u ∧ after.head?.any isWord = false := by
  -- the word behind the colon decides whether there is an edge
  have hedge : ∀ {u : Text}, (word ":entityid".toList).Spells u →
      Cursor.atWordEdge ⟨u.reverse ++ before, after⟩ = !after.head?.any isWord := by
    intro u hu
    obtain ⟨e, rfl, he⟩ := exists_of_spells_token hu
    have hbehind := atWordEdge_behind (isWord_of_spells_word token_letters he) (':' :: before) after
    simpa using hbehind
  rw [show Profile.standard.entityToken = chain [word ":entityid".toList, wordEdge] from rfl,
    reads_chain_cons]
  constructor
  · rintro ⟨v, w, rfl, hv, hw⟩
    obtain ⟨rfl, hat⟩ := (show w = [] ∧ _ from hw)
    have hspells := hv.spells (edgeFree_word _)
    rw [hedge hspells] at hat
    exact ⟨by simpa using hspells, by simpa using hat⟩
  · rintro ⟨hu, hafter⟩
    refine ⟨u, [], by simp, hu.reads (edgeFree_word _) _ _, rfl, ?_⟩
    rw [hedge hu, hafter]
    rfl

/-- No entity token is left once they are replaced: where one is written or cut off, the word of the
call written there is longer. -/
theorem hasMatch_replaced_token (hl : l.IsStandard) : Profile.standard.entityToken.hasMatch
    (Profile.standard.entityToken.replaceAll
      (fun _ => entityCallText Profile.standard (l.format.token (k + 1))) t) = false := by
  rw [Bool.eq_false_iff]
  intro hmatch
  obtain ⟨x, u, y, hjoin, hreads⟩ := hasMatch_iff.mp hmatch
  obtain ⟨hu, hy⟩ := reads_entityToken_iff.mp hreads
  obtain ⟨e, rfl, he⟩ := exists_of_spells_token hu
  have hcolon : ':' ∉ entityCallText Profile.standard (l.format.token (k + 1)) := by
    rw [entityCallText_eq]
    have htoken : ':' ∉ l.format.token (k + 1) := fun hmem =>
      absurd (hl.isWord_of_mem (Or.inr ⟨k, rfl⟩) hmem) (by decide)
    simp [htoken]
  have hsegs := segmented_segments (p := Profile.standard.entityToken) (by decide) t
  rw [replaceAll, List.append_assoc, List.cons_append] at hjoin
  obtain ⟨A, B, hsplit, -, hB⟩ := Segment.split_join_char (fun _ _ => hcolon) hjoin
  rw [hsplit] at hsegs
  obtain ⟨v, -, hbehind⟩ := hsegs.exists_behind
  have hword := isWord_of_spells_word token_letters he
  -- the letters behind the colon lie between the matches
  have hlength : e.length = 8 := (reads_word_iff.mp he).length_eq.symm
  obtain ⟨B, rfl, hyB⟩ := Segment.split_join_word (y := y) hword.2 (fun _ _ =>
    ⟨"toentityid".toList, '(', l.format.token (k + 1) ++ [')'], entityCallText_eq _, by decide,
      by decide, by rw [hlength]; decide⟩) hy hB.symm
  -- so the token was there before, and would have been found
  have hv := hbehind.join_eq
  cases hbehind with
  | @plain _ rest _ _ hnone hrest =>
    have hrest_eq := hrest.join_eq
    rw [Segment.join_append, Segment.join_map_plain] at hrest_eq
    refine matchAt?_eq_none_iff.mp hnone (':' :: e) (Segment.join Match.text B) ?_ ?_
    · rw [← hrest_eq]
      rfl
    · refine reads_entityToken_iff.mpr ⟨hu, ?_⟩
      cases B with
      | nil => rfl
      | cons s B =>
        cases s with
        | plain c => simpa [hyB] using hy
        | span m =>
          rw [hyB, Segment.join_span, entityCallText_eq] at hy
          exact absurd hy (by simp; decide)

/-- Replacing entity tokens leaves calls as they are and writes calls with the token given. -/
theorem call_of_replaced_token (hl : l.IsStandard)
    (hcalls : ∀ x y, l.IsShownCall t x (l.tokenRun is) y → is = [k])
    (h : l.IsShownCall (Profile.standard.entityToken.replaceAll
      (fun _ => entityCallText Profile.standard (l.format.token (k + 1))) t) x (l.tokenRun is) y) :
    is = [k] := by
  obtain ⟨hx, w, a, b, c, hjoin, hw, ha, hb, hc⟩ := h
  have hsegs := segmented_segments (p := Profile.standard.entityToken) (by decide) t
  rw [replaceAll] at hjoin
  generalize Profile.standard.entityToken.segments t = segs at hsegs hjoin
  obtain ⟨⟨-, hclose⟩, hinside⟩ := brackets_of_call hw ha hb hc hl.isArgument_tokenRun
  rcases Segment.bracket_cases (fun _ _ => oneBracket_call hl) hclose hinside hjoin with
    ⟨A, B, rfl, rfl, -⟩ | ⟨m, -, p, hp, hcall⟩
  · obtain ⟨hne, hword⟩ := isWord_of_spells_word function_letters hw
    refine hcalls (Segment.join Match.text A) (Segment.join Match.text B) ⟨?_, w, a, b, c, ?_, hw, ha,
      hb, hc⟩
    · rcases hx with hx | ⟨i, hlt, hend⟩
      · rcases List.eq_nil_or_concat' A with rfl | ⟨A, s, rfl⟩
        · exact Or.inl rfl
        · cases s with
          | plain d => exact Or.inl (by simpa [Segment.join_append] using hx)
          | span m =>
            -- behind an entity token no word starts
            exfalso
            rw [List.append_assoc] at hsegs
            obtain ⟨v, -, hbehind⟩ := hsegs.exists_behind
            cases hbehind with
            | @span _ rest _ _ hsome _ hrest =>
              have hreads := reads_of_matchAt? hsome
              have hafter := (reads_entityToken_iff.mp hreads).2
              obtain ⟨d, w, rfl⟩ := List.exists_cons_of_ne_nil hne
              have hjoined := hrest.join_eq
              rw [← hjoined] at hafter
              simp [hword d] at hafter
      · obtain ⟨A, rfl⟩ := Segment.exists_token_end hl (fun _ _ => oneBracket_call hl) hend
        exact Or.inr ⟨i, hlt, Segment.join Match.text A, by simp [Segment.join_append]⟩
    · have hjoined := hsegs.join_eq
      rw [← hjoined, Segment.join_append, Segment.join_append, Segment.join_map_plain]
      simp
  · exact hl.eq_singleton (argument_eq hl hb hc hl.isArgument_tokenRun hp hcall)

end Inject

end MutationPreview
