import MutationPreview.Proofs.Mutation.AssignmentList
import MutationPreview.Proofs.Mutation.Assignments
import MutationPreview.Proofs.Subquery

/-!
# Plain updates

A plain update assigns values to columns, one by one or several in brackets. Its values may hold
commas and equals signs: commas only in brackets, which are balanced. Whether a text is such a value
can be computed (`isExpression_spec`, `Expression.ofText`).

The list that is found is the list of the statement (`PlainUpdate.exists_found`). It falls into the
assignments (`PlainUpdate.divided_list`), each gives the names of its target (`Setting.fields_eq`), and
so the fields of a plain update are the names of its columns in order
(`PlainUpdate.assignedFields_text`).
-/

namespace MutationPreview

open Pattern

/-! ## Columns and values -/

/-- Whether a text is a word of ASCII letters, digits and underscores other than `set` and `where`. -/
def isColumnName (t : Text) : Bool :=
  !t.isEmpty && t.all isNameChar && !Text.sameAscii t "set".toList &&
    !Text.sameAscii t "where".toList

/-- A name of a schema, a table, an alias or a column in a plain update. -/
structure ColumnName where
  text : Text
  isColumnName : isColumnName text = true := by decide

/-- A column, with an alias or without. -/
structure Column where
  nick : Option ColumnName
  name : ColumnName

def Column.text (c : Column) : Text :=
  match c.nick with
  | none => c.name.text
  | some nick => nick.text ++ '.' :: c.name.text

/-- What is assigned to: a column, or several in brackets. -/
inductive Target where
  | one (c : Column)
  | several (cs : List Column)

namespace Target

def columns : Target → List Column
  | one c => [c]
  | several cs => cs

def text : Target → Text
  | one c => c.text
  | several cs => Subquery.cover (List.intercalate ", ".toList (cs.map Column.text))

/-- The names of the columns, without their aliases. -/
def names (t : Target) : List Text := t.columns.map fun c => c.name.text

end Target

/-- What is assigned: a text with balanced brackets, commas only in them, and no word `where`. -/
structure Expression where
  text : Text
  notBlank : Text.isBlank text = false
  bounded : ∀ u, u <+: text → u.count ')' ≤ u.count '('
  balanced : text.count ')' = text.count '('
  inside : ∀ u v, text = u ++ ',' :: v → u.count ')' < u.count '('
  free : EachWord (fun w => Text.sameAscii w "where".toList = false) text

/-- Whether the brackets of a text match and its commas stand in them, with `depth` open before. -/
def isNested (depth : Nat) : Text → Bool
  | [] => depth == 0
  | c :: t => (0 < depth || (c != ')' && c != ',')) && isNested (bracketStep depth c) t

/-- Whether a text is an expression. -/
def isExpression (t : Text) : Bool :=
  !Text.isBlank t && isNested 0 t &&
    (t.splitOnP fun c => !isWord c).all fun w => !Text.sameAscii w "where".toList

/-- A value and what it is assigned to. -/
structure Setting where
  target : Target
  value : Expression

def Setting.text (s : Setting) : Text := s.target.text ++ (" = ".toList ++ s.value.text)

/-- An update of one table. -/
structure PlainUpdate where
  schema : ColumnName
  table : ColumnName
  nick : Option ColumnName
  first : Setting
  more : List Setting

namespace PlainUpdate

variable (u : PlainUpdate)

def settings : List Setting := u.first :: u.more

/-- The alias with the space behind it, if there is one. -/
def nickText : Text :=
  match u.nick with
  | none => []
  | some nick => nick.text ++ [' ']

/-- The statement up to its `set`. -/
def front : Text :=
  "update".toList ++ ' ' :: (u.schema.text ++ '.' :: (u.table.text ++ ' ' :: u.nickText))

/-- The assignments. -/
def list : Text := List.intercalate ", ".toList (u.settings.map Setting.text)

/-- The statement, with anything behind its `where`. -/
def text (tail : Text) : Text :=
  u.front ++ ("set".toList ++ ' ' :: (u.list ++ (" where ".toList ++ tail)))

/-- The names of the columns that are assigned to. -/
def fields : List Text := u.settings.flatMap fun s => s.target.names

end PlainUpdate

/-! ## Names -/

theorem sameAscii_of_spells_where {w : Text} (h : (word "where".toList).Spells w) :
    Text.sameAscii w "where".toList = true := by
  refine sameAscii_of_spells (by decide) (fun c hc => ?_) h
  have hplain : ∀ x ∈ "where".toList, isPlainLetter x = true := by decide
  obtain ⟨x, hx, hxc⟩ := exists_letter (reads_word_iff.mp h) hc
  exact (toUpper_of_sameLetter (hplain x hx) hxc).1

namespace ColumnName

variable (n : ColumnName)

theorem spec : n.text ≠ [] ∧ (∀ c ∈ n.text, isNameChar c = true) ∧
    Text.sameAscii n.text "set".toList = false ∧ Text.sameAscii n.text "where".toList = false := by
  have h := n.isColumnName
  simp only [MutationPreview.isColumnName, Bool.and_eq_true, Bool.not_eq_true', List.all_eq_true,
    List.isEmpty_eq_false_iff] at h
  exact ⟨h.1.1.1, h.1.1.2, h.1.2, h.2⟩

theorem isWord_of_mem : ∀ c ∈ n.text, isWord c = true := fun c hc =>
  isWord_of_isNameChar (n.spec.2.1 c hc)

theorem spells : name.Spells n.text := spells_many1.mpr ⟨n.spec.1, n.isWord_of_mem⟩

theorem not_spells_set : ¬ (word "set".toList).Spells n.text := by
  intro hspells
  have hsame := sameAscii_of_spells (by decide)
    (fun c hc => toNat_of_isNameChar (n.spec.2.1 c hc)) hspells
  rw [n.spec.2.2.1] at hsame
  cases hsame

theorem not_spells_where : ¬ (word "where".toList).Spells n.text := by
  intro hspells
  have hsame := sameAscii_of_spells_where hspells
  rw [n.spec.2.2.2] at hsame
  cases hsame

end ColumnName

/-! ## Expressions -/

/-- What the brackets and commas of a nested text do, with `depth` open before it. -/
structure Nested (depth : Nat) (t : Text) : Prop where
  bounded : ∀ u, u <+: t → u.count ')' ≤ depth + u.count '('
  balanced : t.count ')' = depth + t.count '('
  inside : ∀ u v, t = u ++ ',' :: v → u.count ')' < depth + u.count '('

theorem bracketStep_add_count {depth : Nat} {c : Char} (h : 0 < depth ∨ c ≠ ')') (u : Text) :
    depth + (c :: u).count '(' + u.count ')' =
      bracketStep depth c + u.count '(' + (c :: u).count ')' := by
  rw [bracketStep, List.count_cons, List.count_cons]
  by_cases hopen : c = '('
  · subst hopen
    simp
    omega
  by_cases hclose : c = ')'
  · subst hclose
    have hpos := h.resolve_right (by simp)
    simp
    omega
  · simp [hopen, hclose]

theorem nested_of_isNested {depth : Nat} {t : Text} (h : isNested depth t = true) :
    Nested depth t := by
  induction t generalizing depth with
  | nil =>
    have hzero : depth = 0 := by simpa [isNested] using h
    subst hzero
    exact ⟨fun u hu => by simp [List.prefix_nil.mp hu], rfl, fun u v hsplit => by simp at hsplit⟩
  | cons c t ih =>
    rw [isNested, Bool.and_eq_true] at h
    obtain ⟨hc, hrest⟩ := h
    have hc : 0 < depth ∨ c ≠ ')' ∧ c ≠ ',' := by simpa using hc
    have hstep := bracketStep_add_count (hc.imp_right And.left)
    have hnested := ih hrest
    refine ⟨fun u hu => ?_, ?_, fun u v hsplit => ?_⟩
    · rcases List.prefix_cons_iff.mp hu with rfl | ⟨v, rfl, hv⟩
      · simp
      · have hle := hnested.bounded v hv
        have hsame := hstep v
        omega
    · have hbalanced := hnested.balanced
      have hsame := hstep t
      omega
    · cases u with
      | nil =>
        obtain ⟨rfl, -⟩ := List.cons.inj hsplit
        simpa using hc
      | cons d u =>
        obtain ⟨rfl, rfl⟩ := List.cons.inj hsplit
        have hlt := hnested.inside u v rfl
        have hsame := hstep u
        omega

theorem isExpression_spec {t : Text} (h : isExpression t = true) :
    Text.isBlank t = false ∧ Nested 0 t ∧
      EachWord (fun w => Text.sameAscii w "where".toList = false) t := by
  simp only [isExpression, Bool.and_eq_true, Bool.not_eq_true', List.all_eq_true] at h
  obtain ⟨⟨hblank, hnested⟩, hwords⟩ := h
  exact ⟨hblank, nested_of_isNested hnested, .of_splitOnP hwords⟩

/-- A text that is checked to be an expression. -/
def Expression.ofText (t : Text) (h : isExpression t = true := by decide) : Expression where
  text := t
  notBlank := (isExpression_spec h).1
  bounded := by simpa using (isExpression_spec h).2.1.bounded
  balanced := by simpa using (isExpression_spec h).2.1.balanced
  inside := by simpa using (isExpression_spec h).2.1.inside
  free := (isExpression_spec h).2.2

/-! ## Targets -/

namespace Column

variable (c : Column)

theorem isWord_of_mem {x : Char} (hx : x ∈ c.text) : isWord x = true ∨ x = '.' := by
  unfold text at hx
  cases hnick : c.nick with
  | none =>
    rw [hnick] at hx
    exact Or.inl (c.name.isWord_of_mem x hx)
  | some nick =>
    rw [hnick, List.mem_append, List.mem_cons] at hx
    rcases hx with hx | rfl | hx
    · exact Or.inl (nick.isWord_of_mem x hx)
    · exact Or.inr rfl
    · exact Or.inl (c.name.isWord_of_mem x hx)

theorem notMem {x : Char} (hx : isWord x = false) (hdot : x ≠ '.') : x ∉ c.text := by
  intro hmem
  rcases c.isWord_of_mem hmem with hword | heq
  · rw [hword] at hx
    cases hx
  · exact hdot heq

theorem isBlank_of_mem {x : Char} (hx : x ∈ c.text) : isBlank x = false := by
  rcases c.isWord_of_mem hx with hword | rfl
  · exact isBlank_of_isWord hword
  · decide

theorem ne_nil : c.text ≠ [] := by
  unfold text
  split
  · exact c.name.spec.1
  · simp

/-- A column, behind blanks or not, is a target that names it. -/
theorem namesField {gap : Text} (hgap : ∀ x ∈ gap, isBlank x = true) :
    NamesField (gap ++ c.text) c.name.text := by
  have hfront : (chain [blanks, optional (just '('), blanks]).Spells gap :=
    (spells_chain_cons (by decide) (by decide)).mpr
      ⟨gap, [], by simp, hgap, spells_of_readings (by decide)⟩
  have hback : (chain [blanks, optional (just ')'), blanks]).Spells [] :=
    spells_of_readings (by decide)
  unfold text
  cases c.nick with
  | none => exact ⟨gap, [], [], by simp, hfront, Or.inr rfl, c.name.spells, hback⟩
  | some nick =>
    refine ⟨gap, nick.text ++ ['.'], [], by simp, hfront, Or.inl ?_, c.name.spells, hback⟩
    exact (spells_seq (by decide) (by decide)).mpr ⟨_, _, rfl, nick.spells, spells_just.mpr rfl⟩

theorem eachWord {P : Text → Prop} (hP : ∀ n : ColumnName, P n.text) : EachWord P c.text := by
  have hdot : isWord '.' = false := by decide
  unfold text
  split
  · exact .of_word c.name.isWord_of_mem (hP _)
  · rename_i nick _
    exact .append_word nick.isWord_of_mem (hP _) hdot
      ((EachWord.of_word c.name.isWord_of_mem (hP _)).cons hdot)

end Column

/-- Texts with a comma and a space between them are texts with a comma between them, all but the first
behind a space. -/
theorem intercalate_comma_space (t : Text) (ts : List Text) :
    List.intercalate ", ".toList (t :: ts) = List.intercalate [','] (t :: ts.map (' ' :: ·)) := by
  induction ts generalizing t with
  | nil => simp
  | cons t' ts ih =>
    rw [List.intercalate_cons_cons, ih, List.map_cons, List.intercalate_cons_cons]
    cases ts <;> simp [List.intercalate_cons_cons]

theorem stripBrackets_around {front back : Text} (hfront : ∀ c ∈ front, isBlank c = true)
    (hback : ∀ c ∈ back, isBlank c = true) (t : Text) :
    stripBrackets (front ++ (t ++ back)) = stripBrackets t := by
  rw [stripBrackets, stripBrackets, Text.trimBlank, Text.trim_around hfront hback, ← Text.trimBlank]

namespace Column

theorem stripBrackets_text (c : Column) : stripBrackets c.text = c.text := by
  have htrim : Text.trimBlank c.text = c.text := Text.trim_eq_self fun x hx => c.isBlank_of_mem hx
  have hopen : '(' ∉ c.text := c.notMem (by decide) (by decide)
  rw [stripBrackets, htrim]
  split
  · rename_i rest heq
    simp [heq] at hopen
  · rfl

end Column

theorem notMem_columns (cs : List Column) {x : Char} (hx : isWord x = false)
    (hmark : x ∉ "., ".toList) : x ∉ List.intercalate ", ".toList (cs.map Column.text) := by
  have hmarks : x ≠ '.' ∧ x ∉ ", ".toList := by
    simpa [List.mem_cons, not_or] using hmark
  refine Text.notMem_intercalate hmarks.2 fun t ht => ?_
  obtain ⟨c, -, rfl⟩ := List.mem_map.mp ht
  exact c.notMem hx hmarks.1

/-- Columns with commas between them are told by the commas. -/
theorem filterMap_fieldOf? (cs : List Column) :
    (Text.splitOn ',' (List.intercalate ", ".toList (cs.map Column.text))).filterMap fieldOf? =
      cs.map fun c => c.name.text := by
  cases cs with
  | nil => rfl
  | cons c cs =>
    have hcomma : ∀ c : Column, ',' ∉ c.text := fun c => c.notMem (by decide) (by decide)
    have hnames : ∀ gap, (∀ x ∈ gap, isBlank x = true) → ∀ c : Column,
        fieldOf? (gap ++ c.text) = some c.name.text := fun gap hgap c =>
      fieldOf?_eq_some_iff.mpr (c.namesField hgap)
    have hmore : fieldOf? ∘ ((' ' :: ·) ∘ Column.text) = some ∘ fun c => c.name.text :=
      funext fun c => hnames [' '] (by decide) c
    rw [List.map_cons, intercalate_comma_space, Text.splitOn_eq, List.splitOn_intercalate]
    · have hfirst : fieldOf? c.text = some c.name.text := hnames [] (by simp) c
      rw [List.filterMap_cons_some hfirst, List.map_map, List.filterMap_map, hmore,
        List.filterMap_eq_map, List.map_cons]
    · simp only [List.map_map, List.forall_mem_cons, List.forall_mem_map]
      exact ⟨hcomma c, fun c' _ => by simpa using hcomma c'⟩
    · simp

namespace Target

variable (t : Target)

theorem fieldsOfSide_text {gap : Text} (hgap : ∀ x ∈ gap, isBlank x = true) :
    fieldsOfSide (gap ++ (t.text ++ [' '])) = t.names := by
  rw [fieldsOfSide, stripBrackets_around hgap (by decide)]
  cases t with
  | one c =>
    have hone := filterMap_fieldOf? [c]
    rw [List.map_singleton, List.intercalate_singleton] at hone
    rw [text, c.stripBrackets_text, hone]
    rfl
  | several cs =>
    rw [text, stripBrackets_cover]
    exact filterMap_fieldOf? cs

theorem eachWord {P : Text → Prop} (hP : ∀ n : ColumnName, P n.text) : EachWord P t.text := by
  cases t with
  | one c => exact c.eachWord hP
  | several cs =>
    have hcolumns : EachWord P (List.intercalate ", ".toList (cs.map Column.text)) := by
      refine .intercalate fun u hu => ?_
      obtain ⟨c, -, rfl⟩ := List.mem_map.mp hu
      exact c.eachWord hP
    exact (hcolumns.append (EachWord.nil.cons (by decide)) (Or.inr (by decide))).cons (by decide)

theorem notMem_sign : '=' ∉ t.text := by
  cases t with
  | one c => exact c.notMem (by decide) (by decide)
  | several cs =>
    have hcolumns := notMem_columns cs (x := '=') (by decide) (by decide)
    simpa [text, Subquery.cover] using hcolumns

theorem exists_cons : ∃ c rest, t.text = c :: rest ∧ isBlank c = false := by
  cases t with
  | one c =>
    obtain ⟨d, rest, hd⟩ := List.exists_cons_of_ne_nil c.ne_nil
    exact ⟨d, rest, hd, c.isBlank_of_mem (by simp [hd])⟩
  | several cs => exact ⟨'(', _, rfl, by decide⟩

end Target

/-! ## Assignments -/

namespace Expression

variable (e : Expression)

theorem sealed : Sealed e.text := by
  have hcount : ∀ u, u <+: e.text → depthBehind 0 u + u.count ')' = 0 + u.count '(' := by
    intro u hu
    refine depthBehind_add_count fun v hv => ?_
    rw [Nat.zero_add]
    exact e.bounded v (hv.trans hu)
  refine ⟨fun u v hsplit => ?_, ?_⟩
  · have hu := hcount u ⟨',' :: v, hsplit.symm⟩
    have hlt := e.inside u v hsplit
    omega
  · have hall := hcount e.text (List.prefix_refl _)
    have hbalanced := e.balanced
    omega

theorem eachWord : EachWord (fun w => ¬ (word "where".toList).Spells w) e.text := by
  intro x w y hsplit hne hw hx hy hspells
  have hsame := sameAscii_of_spells_where hspells
  rw [e.free x w y hsplit hne hw hx hy] at hsame
  cases hsame

end Expression

theorem Target.sealed (t : Target) : Sealed t.text := by
  cases t with
  | one c =>
    exact .of_notMem (c.notMem (by decide) (by decide)) (c.notMem (by decide) (by decide))
      (c.notMem (by decide) (by decide))
  | several cs =>
    exact .cover (notMem_columns cs (by decide) (by decide)) (notMem_columns cs (by decide) (by decide))

namespace Setting

variable (s : Setting)

theorem sealed : Sealed s.text :=
  s.target.sealed.append ((Sealed.of_notMem (by decide) (by decide) (by decide)).append s.value.sealed)

theorem eachWord : EachWord (fun w => ¬ (word "where".toList).Spells w) s.text :=
  (s.target.eachWord ColumnName.not_spells_where).append
    (.append_separators (by decide) s.value.eachWord) (Or.inr (show isWord ' ' = false by decide))

/-- The fields of an assignment are the names of its columns. -/
theorem fields_eq (gap : Text) (hgap : ∀ x ∈ gap, isBlank x = true) :
    Assignment.fields (gap ++ s.text) = s.target.names := by
  have hside : leftSide? (gap ++ s.text) = some (gap ++ (s.target.text ++ [' '])) := by
    refine leftSide?_eq_some_iff.mpr ⟨' ' :: s.value.text, by simp [text], ?_⟩
    have hsign : '=' ∉ gap := fun hmem => absurd (hgap _ hmem) (by decide)
    simp [hsign, s.target.notMem_sign]
  rw [Assignment.fields_of_leftSide hside, s.target.fieldsOfSide_text hgap]

end Setting

namespace PlainUpdate

variable (u : PlainUpdate)

/-- The pieces of the list are the assignments, all but the first behind a space. -/
theorem divided_list :
    Divided u.list (u.first.text :: u.more.map fun s => ' ' :: s.text) := by
  have hspace : Sealed [' '] := .of_notMem (by decide) (by decide) (by decide)
  rw [list, settings, List.map_cons, intercalate_comma_space, List.map_map]
  refine Sealed.divided_intercalate (by simp) ?_
  rw [List.forall_mem_cons, List.forall_mem_map]
  exact ⟨u.first.sealed, fun s _ => hspace.append s.sealed⟩

theorem flatMap_fields_list :
    (splitCommas 0 u.list).flatMap Assignment.fields = u.fields := by
  have hmore : (fun s : Setting => Assignment.fields (' ' :: s.text)) = fun s => s.target.names :=
    funext fun s => s.fields_eq [' '] (by decide)
  have hfirst : Assignment.fields u.first.text = u.first.target.names :=
    u.first.fields_eq [] (by simp)
  rw [u.divided_list.splitCommas_eq, List.flatMap_cons, List.flatMap_map, hmore, hfirst, fields, settings,
    List.flatMap_cons]

theorem eachWord_list : EachWord (fun w => ¬ (word "where".toList).Spells w) u.list := by
  refine .intercalate fun t ht => ?_
  obtain ⟨s, -, rfl⟩ := List.mem_map.mp ht
  exact s.eachWord

end PlainUpdate

/-! ## The fields -/

namespace PlainUpdate

variable (u : PlainUpdate)

/-- The head of the statement has no word `set`. -/
theorem eachWord_front : EachWord (fun w => ¬ (word "set".toList).Spells w) u.front := by
  have hspace : isWord ' ' = false := by decide
  have hdot : isWord '.' = false := by decide
  have hname : ∀ (n : ColumnName) {c : Char} {t : Text}, isWord c = false →
      EachWord (fun w => ¬ (word "set".toList).Spells w) t →
      EachWord (fun w => ¬ (word "set".toList).Spells w) (n.text ++ c :: t) := fun n _ _ hc h =>
    .append_word n.isWord_of_mem n.not_spells_set (by simpa using hc) (h.cons hc)
  have hnick : EachWord (fun w => ¬ (word "set".toList).Spells w) u.nickText := by
    unfold nickText
    split
    · exact .nil
    · exact hname _ hspace .nil
  have hupdate : ¬ (word "set".toList).Spells "update".toList := by
    intro hspells
    have hlength : "set".toList.length ≠ "update".toList.length := by decide
    exact hlength (reads_word_iff.mp hspells).length_eq
  unfold front
  exact .append_word (by decide) hupdate (by simpa using hspace)
    ((hname _ hdot (hname _ hspace hnick)).cons hspace)

/-- The head of the statement ends with a space. -/
theorem exists_front : ∃ t, u.front = t ++ [' '] := by
  unfold front nickText
  split
  · exact ⟨"update".toList ++ ' ' :: (u.schema.text ++ '.' :: u.table.text), by simp⟩
  · rename_i nick _
    exact ⟨"update".toList ++ ' ' :: (u.schema.text ++ '.' :: (u.table.text ++ ' ' :: nick.text)),
      by simp⟩

/-- No list of assignments starts in the head of the statement. -/
theorem matchAt?_front {x y : Text} {c : Char} (hsplit : u.front = x ++ c :: y) (rest : Text) :
    Grammar.assignmentList.matchAt? ⟨x.reverse ++ [], c :: (y ++ rest)⟩ = none := by
  rw [matchAt?_eq_none_iff, List.append_nil]
  intro w z hrest hreads
  obtain ⟨e, w, rfl, ⟨rfl, hbefore⟩, hreads⟩ := reads_chain_cons.mp hreads
  obtain ⟨k, w, rfl, hk, hreads⟩ := reads_chain_cons.mp hreads
  obtain ⟨e, w, rfl, ⟨rfl, hbehind⟩, -⟩ := reads_chain_cons.mp hreads
  have hspells := hk.spells (edgeFree_word _)
  have hword := isWord_of_mem_set hspells
  have hrest : (c :: y) ++ rest = k ++ (w ++ z) := by simpa using hrest
  rw [List.nil_append, List.append_assoc, atWordEdge_before hword, Bool.not_eq_true'] at hbefore
  rw [atWordEdge_behind hword, Bool.not_eq_true'] at hbehind
  rcases Text.append_cases hrest with ⟨v, rfl, -⟩ | ⟨d, v, hcy, hz⟩
  · -- the word would hold the space at the end of the head
    obtain ⟨t, ht⟩ := u.exists_front
    have hlast : (c :: y).getLast? = some ' ' := by
      have hfront := congrArg List.getLast? (hsplit.symm.trans ht)
      rwa [List.getLast?_append_of_ne_nil _ (by simp), List.getLast?_concat] at hfront
    have hspace := hword.2 ' ' (List.mem_append_left v (List.mem_of_getLast? hlast))
    exact absurd hspace (by decide)
  · rw [hz] at hbehind
    refine u.eachWord_front x k (d :: v) (by rw [hsplit, hcy]) hword.1 hword.2 ?_ hbehind hspells
    rwa [← List.head?_reverse]

/-- The first equals sign of the list is the one behind the first target, and something stands behind
it. -/
theorem exists_list_eq : ∃ text, u.list = (u.first.target.text ++ [' ']) ++ '=' :: text ∧
    Text.isBlank text = false := by
  obtain ⟨more, hmore⟩ : ∃ more, u.list = u.first.text ++ more := by
    rw [list, settings, List.map_cons]
    cases u.more with
    | nil => exact ⟨[], by simp⟩
    | cons s more => exact ⟨_, by rw [List.map_cons, List.intercalate_cons_cons, List.append_assoc]⟩
  refine ⟨' ' :: (u.first.value.text ++ more), ?_, ?_⟩
  · rw [hmore, Setting.text]
    simp
  · have hvalue := u.first.value.notBlank
    rw [Text.isBlank, List.all_eq_false] at hvalue ⊢
    obtain ⟨d, hd, hblank⟩ := hvalue
    exact ⟨d, by simp [hd], hblank⟩

/-- The list that is found is the list of the statement, but for blanks at its end. -/
theorem exists_found (tail : Text) : ∃ m found back,
    Grammar.assignmentList.find? (u.text tail) = some m ∧ m.part? .assignments = some found ∧
      u.list = found.text ++ back ∧ ∀ x ∈ back, isBlank x = true := by
  obtain ⟨text, hlist, hsome⟩ := u.exists_list_eq
  obtain ⟨c, side, hside, hc⟩ := u.first.target.exists_cons
  obtain ⟨t, ht⟩ := u.exists_front
  have hspace : isWord ' ' = false := by decide
  have hfree := u.eachWord_list
  rw [hlist] at hfree
  have hsign : '=' ∉ u.first.target.text ++ [' '] := by simp [u.first.target.notMem_sign]
  have hbefore : (u.front.reverse ++ []).head?.any isWord = false := by simp [ht, hspace]
  have hset : (word "set".toList).Spells "set".toList := spells_of_readings (by decide)
  have hgap : blanks1.Spells [' '] := spells_of_readings (by decide)
  obtain ⟨m, found, back, hm, hfound, htext, hback⟩ := exists_assignments hbefore hset hgap (by simp)
    (by simp [hside, hc]) hsign (hfree.behind (by decide)) hsome tail
  refine ⟨m, found, back, ?_, hfound, hlist.trans htext, hback⟩
  refine findFrom?_of_first (fun x c y hsplit => u.matchAt?_front hsplit _) ?_
  rw [hlist]
  simpa using hm

/-- The fields of a plain update are the names of the columns that it assigns to, in order. -/
theorem assignedFields_text (tail : Text) : assignedFields (u.text tail) = u.fields := by
  obtain ⟨m, found, back, hm, hfound, hlist, hback⟩ := u.exists_found tail
  have hnone : ∀ x, isBlank x = false → x ∉ back := fun x hx hmem => by
    rw [hback x hmem] at hx
    cases hx
  rw [assignedFields_eq hm hfound (divided_splitCommas _), ← u.flatMap_fields_list, hlist,
    Assignment.flatMap_fields_append (hnone ',' (by decide)) (hnone '=' (by decide))]

/-- An update of four columns, two of them in brackets, with commas, signs and brackets in the
values. -/
def fourColumns : PlainUpdate where
  schema := { text := "s".toList }
  table := { text := "t".toList }
  nick := some { text := "x".toList }
  first :=
    { target := .one ⟨some { text := "x".toList }, { text := "a".toList }⟩
      value := .ofText "nvl(f(b, c), (d = 1))".toList }
  more := [
    { target := .several
        [⟨some { text := "x".toList }, { text := "d".toList }⟩, ⟨none, { text := "e".toList }⟩]
      value := .ofText "(SUB_1)".toList },
    { target := .one ⟨none, { text := "f".toList }⟩
      value := .ofText "g((2), 'h', where_i = 3) || 4".toList }]

/-- The commas and signs of the values name no field. -/
theorem assignedFields_text_nested :
    fourColumns.text "x.id = 1;".toList =
        ("update s.t x set x.a = nvl(f(b, c), (d = 1)), (x.d, e) = (SUB_1), " ++
          "f = g((2), 'h', where_i = 3) || 4 where x.id = 1;").toList ∧
      assignedFields (fourColumns.text "x.id = 1;".toList) = ["a", "d", "e", "f"].map String.toList :=
  ⟨by decide, fourColumns.assignedFields_text _⟩

end PlainUpdate

end MutationPreview
