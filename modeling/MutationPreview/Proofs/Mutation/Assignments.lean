import Mathlib.Data.List.Basic
import MutationPreview.Mutation.Select
import MutationPreview.Proofs.Clause.Plain

/-!
# Lists of assignments

A list of assignments is divided at the commas outside brackets. Each piece assigns to what stands
before its first equals sign: one target, or several in brackets with commas between them. A target
names a field, maybe with an alias before it; what does not have this form names none.

Main statements: a division at the commas outside brackets is unique (`splitCommas_eq_iff`), the field
of a target is the one that it names (`fieldOf?_eq_some_iff`), and the fields of a list are those of
its pieces in order (`assignedFields_eq`).
-/

namespace MutationPreview

open Pattern

/-! ## Commas outside brackets -/

/-- How many brackets are open behind a character. A closing bracket too many is ignored. -/
def bracketStep (depth : Nat) (c : Char) : Nat :=
  if c = '(' then depth + 1 else if c = ')' then depth - 1 else depth

/-- How many brackets are open behind a text, with `depth` open before it. -/
def depthBehind (depth : Nat) (t : Text) : Nat := t.foldl bracketStep depth

/-- Whether every comma of a text stands in brackets, with `depth` open before it. -/
def CommasInside (depth : Nat) (t : Text) : Prop :=
  ∀ u v, t = u ++ ',' :: v → 0 < depthBehind depth u

/-- A text divided at the commas outside brackets. -/
inductive Divided : Text → List Text → Prop where
  | last {p : Text} (hp : CommasInside 0 p) : Divided p [p]
  | cons {p rest : Text} {pieces : List Text} (hp : CommasInside 0 p)
      (hclosed : depthBehind 0 p = 0) (hrest : Divided rest pieces) :
      Divided (p ++ ',' :: rest) (p :: pieces)

section Commas

variable {depth : Nat} {c : Char} {a b p t : Text}

@[simp] theorem depthBehind_nil : depthBehind depth [] = depth := rfl

@[simp] theorem depthBehind_cons :
    depthBehind depth (c :: t) = depthBehind (bracketStep depth c) t := rfl

@[simp] theorem depthBehind_append :
    depthBehind depth (a ++ b) = depthBehind (depthBehind depth a) b := List.foldl_append

theorem depthBehind_of_notMem (hopen : '(' ∉ t) (hclose : ')' ∉ t) : depthBehind depth t = depth := by
  induction t with
  | nil => rfl
  | cons c t ih =>
    rw [List.mem_cons, not_or] at hopen hclose
    rw [depthBehind_cons, bracketStep, if_neg (Ne.symm hopen.1), if_neg (Ne.symm hclose.1)]
    exact ih hopen.2 hclose.2

@[simp] theorem commasInside_nil : CommasInside depth [] := by
  intro u v hsplit
  simp at hsplit

theorem commasInside_of_notMem (h : ',' ∉ t) : CommasInside depth t := by
  rintro u v rfl
  simp at h

theorem commasInside_cons : CommasInside depth (c :: t) ↔
    (c = ',' → 0 < depth) ∧ CommasInside (bracketStep depth c) t := by
  constructor
  · intro h
    exact ⟨fun hc => h [] t (by rw [hc]; rfl), fun u v ht => h (c :: u) v (by rw [ht]; rfl)⟩
  · rintro ⟨hc, ht⟩ u v hsplit
    cases u with
    | nil =>
      obtain ⟨rfl, -⟩ := List.cons.inj hsplit
      exact hc rfl
    | cons d u =>
      obtain ⟨rfl, hrest⟩ := List.cons.inj hsplit
      exact ht u v hrest

theorem commasInside_append : CommasInside depth (a ++ b) ↔
    CommasInside depth a ∧ CommasInside (depthBehind depth a) b := by
  induction a generalizing depth with
  | nil => simp
  | cons c a ih => rw [List.cons_append, commasInside_cons, commasInside_cons, ih, and_assoc]; rfl

theorem splitCommas_ne_nil (depth : Nat) (t : Text) : splitCommas depth t ≠ [] := by
  cases t with
  | nil => simp [splitCommas]
  | cons c t =>
    rw [splitCommas]
    split
    · simp
    · dsimp only
      split <;> simp

/-- A text without a comma outside brackets goes to the first piece. -/
theorem splitCommas_append (hp : CommasInside depth p) (t : Text) :
    ∃ first more, splitCommas (depthBehind depth p) t = first :: more ∧
      splitCommas depth (p ++ t) = (p ++ first) :: more := by
  induction p generalizing depth with
  | nil =>
    obtain ⟨first, more, hsplit⟩ := List.exists_cons_of_ne_nil (splitCommas_ne_nil depth t)
    exact ⟨first, more, hsplit, hsplit⟩
  | cons c p ih =>
    obtain ⟨hc, hp⟩ := commasInside_cons.mp hp
    obtain ⟨first, more, hbehind, hsplit⟩ := ih hp
    refine ⟨first, more, hbehind, ?_⟩
    have hinside : ¬ (c = ',' ∧ depth = 0) := fun h => absurd (hc h.1) (by omega)
    rw [bracketStep] at hsplit
    simp only [List.cons_append, splitCommas, if_neg hinside, hsplit]

/-- A text has a first comma outside brackets, or none. -/
theorem commasInside_or_exists (depth : Nat) (t : Text) : CommasInside depth t ∨
    ∃ p rest, t = p ++ ',' :: rest ∧ CommasInside depth p ∧ depthBehind depth p = 0 := by
  induction t generalizing depth with
  | nil => exact Or.inl commasInside_nil
  | cons c t ih =>
    by_cases hc : c = ',' ∧ depth = 0
    · obtain ⟨rfl, rfl⟩ := hc
      exact Or.inr ⟨[], t, rfl, commasInside_nil, rfl⟩
    have hinside : c = ',' → 0 < depth := fun h => Nat.pos_of_ne_zero fun h0 => hc ⟨h, h0⟩
    rcases ih (bracketStep depth c) with ht | ⟨p, rest, rfl, hp, hclosed⟩
    · exact Or.inl (commasInside_cons.mpr ⟨hinside, ht⟩)
    · exact Or.inr ⟨c :: p, rest, rfl, commasInside_cons.mpr ⟨hinside, hp⟩, hclosed⟩

theorem Divided.splitCommas_eq {pieces : List Text} (h : Divided t pieces) :
    splitCommas 0 t = pieces := by
  induction h with
  | @last p hp =>
    obtain ⟨first, more, hbehind, hsplit⟩ := splitCommas_append hp []
    obtain ⟨rfl, rfl⟩ : [] = first ∧ [] = more := by simpa [splitCommas] using hbehind
    simpa using hsplit
  | @cons p rest pieces hp hclosed _ ih =>
    obtain ⟨first, more, hbehind, hsplit⟩ := splitCommas_append hp (',' :: rest)
    rw [hclosed, splitCommas, if_pos ⟨rfl, rfl⟩, ih] at hbehind
    obtain ⟨rfl, rfl⟩ := List.cons.inj hbehind
    simpa using hsplit

theorem divided_splitCommas (t : Text) : Divided t (splitCommas 0 t) := by
  induction hn : t.length using Nat.strong_induction_on generalizing t with
  | _ n ih =>
    subst hn
    rcases commasInside_or_exists 0 t with ht | ⟨p, rest, rfl, hp, hclosed⟩
    · have hone := Divided.last ht
      rwa [hone.splitCommas_eq]
    · have hmore := Divided.cons hp hclosed (ih rest.length (by simp; omega) rest rfl)
      rwa [hmore.splitCommas_eq]

/-- What stands behind a divided text goes to its last piece, if it has no comma. -/
theorem Divided.append_last {pieces : List Text} {back : Text} (h : Divided t pieces)
    (hback : ',' ∉ back) :
    ∃ init p, pieces = init ++ [p] ∧ Divided (t ++ back) (init ++ [p ++ back]) := by
  induction h with
  | @last p hp =>
    exact ⟨[], p, rfl, .last (commasInside_append.mpr ⟨hp, commasInside_of_notMem hback⟩)⟩
  | @cons p rest pieces hp hclosed _ ih =>
    obtain ⟨init, q, rfl, hq⟩ := ih
    refine ⟨p :: init, q, rfl, ?_⟩
    simpa using Divided.cons hp hclosed hq

/-- A list of assignments is divided at the commas outside brackets, in one way. -/
theorem splitCommas_eq_iff {pieces : List Text} : splitCommas 0 t = pieces ↔ Divided t pieces :=
  ⟨fun h => h ▸ divided_splitCommas t, Divided.splitCommas_eq⟩

end Commas

/-! ## Pieces whose brackets are closed -/

/-- A text that is one piece of a list: its commas stand in its brackets, and these are closed. -/
structure Sealed (p : Text) : Prop where
  inside : CommasInside 0 p
  closed : depthBehind 0 p = 0

namespace Sealed

variable {a b p : Text}

theorem append (ha : Sealed a) (hb : Sealed b) : Sealed (a ++ b) := by
  refine ⟨commasInside_append.mpr ⟨ha.inside, ?_⟩, ?_⟩
  · rw [ha.closed]
    exact hb.inside
  · rw [depthBehind_append, ha.closed, hb.closed]

theorem of_notMem (hcomma : ',' ∉ p) (hopen : '(' ∉ p) (hclose : ')' ∉ p) : Sealed p :=
  ⟨commasInside_of_notMem hcomma, depthBehind_of_notMem hopen hclose⟩

/-- What stands in brackets may have commas. -/
theorem cover (hopen : '(' ∉ p) (hclose : ')' ∉ p) : Sealed (Subquery.cover p) := by
  have hdepth : ∀ u, u <+: p → depthBehind 1 u = 1 := by
    rintro u ⟨v, rfl⟩
    rw [List.mem_append, not_or] at hopen hclose
    exact depthBehind_of_notMem hopen.1 hclose.1
  refine ⟨?_, ?_⟩
  · refine commasInside_cons.mpr ⟨fun h => absurd h (by decide), ?_⟩
    refine commasInside_append.mpr ⟨fun u v hsplit => ?_, commasInside_of_notMem (by decide)⟩
    have hu : u <+: p := ⟨',' :: v, hsplit.symm⟩
    exact (hdepth u hu).symm ▸ Nat.one_pos
  · have hp := hdepth p (List.prefix_refl p)
    simp [Subquery.cover, bracketStep, hp]

theorem divided_intercalate {pieces : List Text} (hne : pieces ≠ []) (h : ∀ p ∈ pieces, Sealed p) :
    Divided (List.intercalate [','] pieces) pieces := by
  induction pieces with
  | nil => exact absurd rfl hne
  | cons p pieces ih =>
    rw [List.forall_mem_cons] at h
    cases pieces with
    | nil => simpa using Divided.last h.1.inside
    | cons q pieces =>
      rw [List.intercalate_cons_cons, List.append_assoc]
      exact .cons h.1.inside h.1.closed (ih (by simp) h.2)

end Sealed

/-- If no prefix closes more brackets than it opens, the depth is the difference. -/
theorem depthBehind_add_count {depth : Nat} {t : Text}
    (h : ∀ u, u <+: t → u.count ')' ≤ depth + u.count '(') :
    depthBehind depth t + t.count ')' = depth + t.count '(' := by
  induction t generalizing depth with
  | nil => simp
  | cons c t ih =>
    have hstep : ∀ u, u <+: t → (c :: u).count ')' ≤ depth + (c :: u).count '(' := fun u hu =>
      h (c :: u) (List.cons_prefix_cons.mpr ⟨rfl, hu⟩)
    rw [depthBehind_cons, bracketStep]
    by_cases hopen : c = '('
    · subst hopen
      have hrest := @ih (depth + 1) fun u hu => by
        have hle := hstep u hu
        simp at hle
        omega
      simp
      omega
    by_cases hclose : c = ')'
    · subst hclose
      have hpos := hstep [] List.nil_prefix
      simp at hpos
      have hrest := @ih (depth - 1) fun u hu => by
        have hle := hstep u hu
        simp at hle
        omega
      simp
      omega
    · have hrest := @ih depth fun u hu => by simpa [hopen, hclose] using hstep u hu
      simpa [hopen, hclose] using hrest

/-! ## Targets -/

/-- A text that names a field, with an alias or without, maybe with a bracket on either side. -/
def NamesField (target field : Text) : Prop :=
  ∃ front nick back, target = front ++ (nick ++ (field ++ back)) ∧
    (chain [blanks, optional (just '('), blanks]).Spells front ∧
    (optional (chain [name, just '.'])).Spells nick ∧ name.Spells field ∧
    (chain [blanks, optional (just ')'), blanks]).Spells back

/-- The last word of a text is told from what stands around it. -/
theorem Text.lastWord_unique {x y x' y' w w' : Text} (hw : name.Spells w) (hw' : name.Spells w')
    (hx : x.getLast?.any isWord = false) (hx' : x'.getLast?.any isWord = false)
    (hy : ∀ c ∈ y, isWord c = false) (hy' : ∀ c ∈ y', isWord c = false)
    (h : x ++ (w ++ y) = x' ++ (w' ++ y')) : w = w' := by
  have hhead : ∀ {w : Text} (x : Text), name.Spells w →
      (w.reverse ++ x.reverse).head?.any (fun c => !isWord c) = false := by
    intro w x hw
    obtain ⟨hne, hall⟩ := spells_many1.mp hw
    rw [List.head?_append_of_ne_nil _ (by simpa using hne)]
    simp [List.getLast?_eq_some_getLast hne, hall _ (List.getLast_mem hne)]
  have hback : y.reverse ++ (w.reverse ++ x.reverse) = y'.reverse ++ (w'.reverse ++ x'.reverse) := by
    simpa using congrArg List.reverse h
  obtain ⟨-, hfront⟩ := Text.run_unique (p := fun c => !isWord c) (by simpa using hy)
    (by simpa using hy') (hhead x hw) (hhead x' hw') hback
  have hword : ∀ {w : Text}, name.Spells w → ∀ c ∈ w.reverse, isWord c = true := by
    intro w hw c hc
    exact (spells_many1.mp hw).2 c (List.mem_reverse.mp hc)
  obtain ⟨heq, -⟩ := Text.run_unique (hword hw) (hword hw') (by simpa using hx) (by simpa using hx')
    hfront
  exact List.reverse_injective heq

namespace NamesField

variable {target field field' : Text}

/-- The field is the last word of its target. -/
theorem exists_lastWord (h : NamesField target field) : ∃ x y, target = x ++ (field ++ y) ∧
    name.Spells field ∧ x.getLast?.any isWord = false ∧ ∀ c ∈ y, isWord c = false := by
  obtain ⟨front, nick, back, rfl, hfront, hnick, hfield, hback⟩ := h
  have hmarks : isWord '(' = false ∧ isWord ')' = false ∧ isWord '.' = false := by decide
  have houtside : ∀ (mark : Char) {u : Text}, isWord mark = false →
      (chain [blanks, optional (just mark), blanks]).Spells u → ∀ c ∈ u, isWord c = false := by
    intro mark u hmark hu c hc
    rw [Bool.eq_false_iff]
    intro hword
    refine hu.notMem (c := c) ?_ hc
    have hne : c ≠ mark := by
      rintro rfl
      rw [hword] at hmark
      cases hmark
    simp [avoids, chain, blanks, Pattern.optional, just, isBlank_of_isWord hword, hne]
  refine ⟨front ++ nick, back, by simp, hfield, ?_, houtside ')' hmarks.2.1 hback⟩
  rcases hnick with hnick | rfl
  · obtain ⟨v, w, rfl, -, hdot⟩ := (spells_seq (by decide) (by decide)).mp hnick
    obtain rfl := spells_just.mp hdot
    simp [hmarks.2.2]
  · rw [List.append_nil, Option.any_eq_false_iff_get]
    intro hsome
    exact houtside '(' hmarks.1 hfront _ (List.mem_of_getLast? (Option.some_get hsome).symm)

theorem unique (h : NamesField target field) (h' : NamesField target field') : field = field' := by
  obtain ⟨x, y, rfl, hfield, hx, hy⟩ := h.exists_lastWord
  obtain ⟨x', y', heq, hfield', hx', hy'⟩ := h'.exists_lastWord
  exact Text.lastWord_unique hfield hfield' hx hx' hy hy' heq

end NamesField

/-- The pattern of targets is read on a text that names a field. -/
theorem reads_assignmentTarget {target field : Text} (h : NamesField target field) :
    Grammar.assignmentTarget.Reads [] target [] := by
  obtain ⟨front, nick, back, rfl, hfront, hnick, hfield, hback⟩ := h
  have hshape : (chain ([textStart] ++ ([blanks, optional (just '('), blanks] ++
      (optional (chain [name, just '.']) :: part .field name ::
        ([blanks, optional (just ')'), blanks] ++ [textEnd]))))).Reads []
      (front ++ (nick ++ (field ++ back))) [] := by
    refine reads_chain_append.mpr ⟨[], _, rfl, ⟨rfl, rfl⟩, ?_⟩
    refine reads_chain_append.mpr ⟨front, _, rfl, hfront.reads (by decide) _ _, ?_⟩
    refine reads_chain_cons.mpr ⟨nick, _, rfl, hnick.reads (by decide) _ _, ?_⟩
    refine reads_chain_cons.mpr ⟨field, _, rfl, hfield.reads (by decide) _ _, ?_⟩
    exact reads_chain_append.mpr ⟨back, [], by simp, hback.reads (by decide) _ _, rfl, rfl⟩
  exact hshape

/-- A match of the pattern of targets covers the whole text and singles out the field. -/
theorem exists_field_of_find? {target : Text} {m : Match}
    (h : Grammar.assignmentTarget.find? target = some m) :
    ∃ c, m.part? .field = some c ∧ NamesField target c.text := by
  obtain ⟨x, y, rfl, hmatch, -⟩ := findFrom?_some h
  have hother : ∀ q, (Part.field, q) ∉ (chain [blanks, optional (just ')'), blanks, textEnd]).partsIn := by
    intro q hq
    have hparts : (chain [blanks, optional (just ')'), blanks, textEnd]).partsIn = [] := rfl
    rw [hparts] at hq
    cases hq
  have hmatch : (chain ([textStart, blanks, optional (just '('), blanks,
      optional (chain [name, just '.'])] ++ part .field name ::
        [blanks, optional (just ')'), blanks, textEnd])).matchAt? _ = some m := hmatch
  obtain ⟨v, field, w, rest, rfl, -, hv, hfield, hw, c, hc, rfl⟩ :=
    exists_part_of_matchAt? hmatch hother
  obtain ⟨e, v, rfl, ⟨hx, rfl⟩, hv⟩ := reads_chain_cons.mp hv
  have hv : (chain ([blanks, optional (just '('), blanks] ++
      [optional (chain [name, just '.'])])).Reads _ v _ := hv
  have hw : (chain ([blanks, optional (just ')'), blanks] ++ [textEnd])).Reads _ w rest := hw
  obtain ⟨front, nick, rfl, hfront, hnick⟩ := reads_chain_append.mp hv
  obtain ⟨back, e, rfl, hback, ⟨rfl, rfl⟩⟩ := reads_chain_append.mp hw
  obtain rfl : x = [] := by simpa using hx
  exact ⟨c, hc, front, nick, back, by simp, hfront.spells (by decide),
    Reads.spells (by decide) hnick, hfield.spells (by decide), hback.spells (by decide)⟩

/-- The field of a target is the one that it names. -/
theorem fieldOf?_eq_some_iff {target field : Text} :
    fieldOf? target = some field ↔ NamesField target field := by
  have hsome : ∀ {m}, Grammar.assignmentTarget.find? target = some m →
      ∃ found, fieldOf? target = some found ∧ NamesField target found := by
    intro m hm
    obtain ⟨c, hc, hnames⟩ := exists_field_of_find? hm
    exact ⟨c.text, by simp [fieldOf?, hm, hc], hnames⟩
  constructor
  · intro h
    cases hm : Grammar.assignmentTarget.find? target with
    | none => simp [fieldOf?, hm] at h
    | some m =>
      obtain ⟨found, hfound, hnames⟩ := hsome hm
      obtain rfl := Option.some.inj (hfound.symm.trans h)
      exact hnames
  · intro h
    have hmatch : Grammar.assignmentTarget.hasMatch target = true :=
      hasMatch_iff.mpr ⟨[], target, [], by simp, reads_assignmentTarget h⟩
    obtain ⟨m, hm⟩ := Option.isSome_iff_exists.mp hmatch
    obtain ⟨found, hfound, hnames⟩ := hsome hm
    rw [hfound, hnames.unique h]

/-! ## Assignments -/

theorem Text.splitOn_eq (separator : Char) (t : Text) :
    Text.splitOn separator t = List.splitOn separator t := by
  induction t with
  | nil => rfl
  | cons c t ih =>
    rw [Text.splitOn, List.splitOn_cons_eq_if_modifyHead, ih]
    by_cases hc : c = separator
    · simp [hc]
    · obtain ⟨first, more, hsplit⟩ := List.exists_cons_of_ne_nil (List.splitOn_ne_nil separator t)
      simp [hc, hsplit]

theorem Text.cut?_eq_some_iff {mark : Char} {t a b : Text} :
    Text.cut? [mark] t = some (a, b) ↔ t = a ++ mark :: b ∧ mark ∉ a := by
  induction t generalizing a with
  | nil => simp [Text.cut?, Text.after?]
  | cons c t ih =>
    by_cases hc : mark = c
    · subst hc
      cases a with
      | nil => simp [Text.cut?, Text.after?, eq_comm]
      | cons d a =>
        simp only [Text.cut?, Text.after?, List.cons_append, List.cons.injEq, List.mem_cons, if_true,
          Option.some.injEq, Prod.mk.injEq]
        grind
    · cases a with
      | nil => simp [Text.cut?, Text.after?, hc, Ne.symm hc]
      | cons d a =>
        simp only [Text.cut?, Text.after?, if_neg hc, Option.map_eq_some_iff, Prod.exists]
        grind

/-- The left side of an assignment ends before its first equals sign. -/
theorem leftSide?_eq_some_iff {p side : Text} :
    leftSide? p = some side ↔ ∃ value, p = side ++ '=' :: value ∧ '=' ∉ side := by
  simp [leftSide?, Text.cut?_eq_some_iff]

namespace Assignment

/-- The targets of an assignment: what stands between the commas of its left side, without the
brackets around it. -/
def targets (p : Text) : List Text :=
  match leftSide? p with
  | none => []
  | some side => Text.splitOn ',' (stripBrackets side)

/-- The fields that an assignment assigns, in order. -/
def fields (p : Text) : List Text := (targets p).filterMap fieldOf?

variable {p side value : Text}

theorem fields_of_leftSide (h : leftSide? p = some side) : fields p = fieldsOfSide side := by
  rw [fields, targets, h, fieldsOfSide]

theorem fields_of_none (h : leftSide? p = none) : fields p = [] := by
  rw [fields, targets, h]
  rfl

/-- What stands behind an assignment does not change its fields, unless it brings the equals sign. -/
theorem fields_append {back : Text} (hback : '=' ∉ back) : fields (p ++ back) = fields p := by
  cases hside : leftSide? p with
  | some side =>
    obtain ⟨value, rfl, hfree⟩ := leftSide?_eq_some_iff.mp hside
    have hmore : leftSide? (side ++ '=' :: value ++ back) = some side :=
      leftSide?_eq_some_iff.mpr ⟨value ++ back, by simp, hfree⟩
    rw [fields_of_leftSide hside, fields_of_leftSide hmore]
  | none =>
    rw [fields_of_none hside, fields_of_none]
    rw [Option.eq_none_iff_forall_ne_some]
    intro side hmore
    obtain ⟨value, hsplit, hfree⟩ := leftSide?_eq_some_iff.mp hmore
    rcases Text.append_cases hsplit with ⟨v, -, rfl⟩ | ⟨c, v, rfl, hv⟩
    · simp at hback
    · obtain ⟨rfl, -⟩ := List.cons.inj hv
      have hhere := leftSide?_eq_some_iff.mpr ⟨v, rfl, hfree⟩
      rw [hside] at hhere
      cases hhere

/-- What stands behind a list of assignments does not change its fields either. -/
theorem flatMap_fields_append {t back : Text} (hcomma : ',' ∉ back) (hsign : '=' ∉ back) :
    (splitCommas 0 (t ++ back)).flatMap fields = (splitCommas 0 t).flatMap fields := by
  obtain ⟨init, p, hpieces, hdivided⟩ := (divided_splitCommas t).append_last hcomma
  rw [hdivided.splitCommas_eq, hpieces]
  simp [fields_append hsign]

/-- An assignment gives a field if one of its targets names one. -/
theorem fields_ne_nil_iff : fields p ≠ [] ↔ ∃ target ∈ targets p, ∃ field, NamesField target field := by
  simp only [fields, ne_eq, List.filterMap_eq_nil_iff, not_forall, exists_prop,
    ← fieldOf?_eq_some_iff, Option.ne_none_iff_exists']

/-- An assignment gives a field for each target if each names one. -/
theorem length_fields_iff :
    (fields p).length = (targets p).length ↔ ∀ target ∈ targets p, ∃ field, NamesField target field := by
  simp only [fields, List.filterMap_length_eq_length, Option.isSome_iff_exists, fieldOf?_eq_some_iff]

end Assignment

/-- The fields of a list are those of its pieces. -/
theorem assignedFields_eq {t : Text} {m : Match} {list : Capture} {pieces : List Text}
    (hm : Grammar.assignmentList.find? t = some m) (hlist : m.part? .assignments = some list)
    (hpieces : Divided list.text pieces) : assignedFields t = pieces.flatMap Assignment.fields := by
  have hflat : ∀ pieces : List Text,
      (pieces.filterMap leftSide?).flatMap fieldsOfSide = pieces.flatMap Assignment.fields := by
    intro pieces
    induction pieces with
    | nil => rfl
    | cons p pieces ih =>
      rw [List.flatMap_cons, ← ih]
      cases hside : leftSide? p with
      | none => rw [List.filterMap_cons_none hside, Assignment.fields_of_none hside, List.nil_append]
      | some side =>
        rw [List.filterMap_cons_some hside, Assignment.fields_of_leftSide hside, List.flatMap_cons]
  rw [assignedFields, hm, Option.bind_some, hlist]
  dsimp only
  rw [hpieces.splitCommas_eq, hflat]

end MutationPreview
