import Mathlib.Data.List.Induction
import MutationPreview.Proofs.Standard
import MutationPreview.Proofs.Text.Erase

/-!
# What marking the offending fragments does to a statement

A statement with offending fragments is shown with the error marker in front of them. The fragments
take turns (`Turn`): each of them is replaced in the text that holds the marks of the fragments
before it.

Main statement: the marked statement is the statement with whole marks added, one in front of every
occurrence of a fragment (`MarksOnly`), exactly if no turn puts a mark inside another one
(`PutsOutside`) and some turn reaches each place where a fragment occurs (`Reaches`). So it is for
fragments that no mark can touch, if inside no occurrence of a fragment there starts one of itself or
of a fragment before it (`annotate_marksOnly`).
-/

namespace MutationPreview

namespace Job

variable {m f g sql x y : Text} {fragments before : List Text} {segs : List (Segment Unit)}

/-! ## Turns -/

theorem markFrom_concat (m f : Text) (seen fragments : List Text) (sql : Text) :
    markFrom m seen (fragments ++ [f]) sql =
      if f ∈ seen ∨ f ∈ fragments then markFrom m seen fragments sql
      else Text.replace f (m ++ f) (markFrom m seen fragments sql) := by
  induction fragments generalizing seen sql with
  | nil => by_cases hf : f ∈ seen <;> simp [markFrom, hf]
  | cons g fragments ih =>
    rw [List.cons_append, markFrom, markFrom]
    by_cases hg : g ∈ seen
    · have hiff : f ∈ seen ∨ f ∈ g :: fragments ↔ f ∈ seen ∨ f ∈ fragments := by
        rw [List.mem_cons, or_left_comm]
        exact or_iff_right_of_imp fun hfg => Or.inl (hfg ▸ hg)
      simp only [List.contains_eq_mem, hg, decide_true, if_true, ih, hiff]
    · have hiff : f ∈ seen ∨ f ∈ g :: fragments ↔ f ∈ g :: seen ∨ f ∈ fragments := by
        rw [List.mem_cons, List.mem_cons, or_left_comm, or_assoc]
      simp only [List.contains_eq_mem, hg, decide_false, Bool.false_eq_true, if_false, ih, hiff]

/-- A fragment is marked in the text that holds the marks of those before it, unless it is one of
them. -/
theorem annotate_concat (m f : Text) (fragments : List Text) (sql : Text) :
    annotate m (fragments ++ [f]) sql =
      if f ∈ fragments then annotate m fragments sql
      else Text.replace f (m ++ f) (annotate m fragments sql) := by
  simp [annotate, markFrom_concat]

/-- Whether `g` has its turn when the fragments `before` have had theirs. -/
def Turn (fragments before : List Text) (g : Text) : Prop :=
  ∃ behind, fragments = before ++ g :: behind ∧ g ∉ before

theorem not_turn_nil : ¬ Turn [] before g := by
  rintro ⟨behind, hsplit, -⟩
  simp at hsplit

theorem turn_concat :
    Turn (fragments ++ [f]) before g ↔
      Turn fragments before g ∨ (f ∉ fragments ∧ before = fragments ∧ g = f) := by
  constructor
  · rintro ⟨behind, hsplit, hg⟩
    rcases List.eq_nil_or_concat behind with rfl | ⟨behind, k, rfl⟩
    · obtain ⟨rfl, hlast⟩ := List.append_inj' hsplit rfl
      rw [List.cons.injEq] at hlast
      obtain ⟨rfl, -⟩ := hlast
      exact Or.inr ⟨hg, rfl, rfl⟩
    · rw [List.concat_eq_append, ← List.cons_append, ← List.append_assoc] at hsplit
      obtain ⟨rfl, -⟩ := List.append_inj' hsplit rfl
      exact Or.inl ⟨behind, rfl, hg⟩
  · rintro (⟨behind, rfl, hg⟩ | ⟨hf, rfl, rfl⟩)
    · exact ⟨behind ++ [f], by simp, hg⟩
    · exact ⟨[], rfl, hf⟩

theorem Turn.mem (h : Turn fragments before g) : g ∈ fragments := by
  obtain ⟨behind, rfl, -⟩ := h
  simp

theorem Turn.mem_of_mem (h : Turn fragments before g) (hf : f ∈ before) : f ∈ fragments := by
  obtain ⟨behind, rfl, -⟩ := h
  exact List.mem_append_left _ hf

/-- A fragment of the list has its turn where it comes first. -/
theorem exists_turn (h : f ∈ fragments) : ∃ before, Turn fragments before f := by
  obtain ⟨before, behind, rfl, hf⟩ := List.eq_append_cons_of_mem h
  exact ⟨before, behind, rfl, hf⟩

/-! ## Marks inside marks -/

/-- Whether no turn puts a mark inside a mark that stands in the text already. -/
def PutsOutside (m : Text) (fragments : List Text) (sql : Text) : Prop :=
  ∀ before g segs, Turn fragments before g → Text.Found g (annotate m before sql) segs →
    Text.OutsideMarks m g [] segs

/-- Whether some turn puts a mark behind what is `x` once the marks are erased. -/
def Reaches (m : Text) (fragments : List Text) (sql x : Text) : Prop :=
  ∃ before g A B, Turn fragments before g ∧
    Text.Found g (annotate m before sql) (A ++ .span () :: B) ∧ Text.erase m (Text.fill g A) = x

theorem putsOutside_concat :
    PutsOutside m (fragments ++ [f]) sql ↔
      PutsOutside m fragments sql ∧ (f ∉ fragments →
        ∀ segs, Text.Found f (annotate m fragments sql) segs → Text.OutsideMarks m f [] segs) := by
  constructor
  · intro h
    refine ⟨fun before g segs hturn => h before g segs (turn_concat.mpr (Or.inl hturn)), ?_⟩
    intro hf segs
    exact h fragments f segs (turn_concat.mpr (Or.inr ⟨hf, rfl, rfl⟩))
  · rintro ⟨hearlier, hlast⟩ before g segs hturn
    rcases turn_concat.mp hturn with hturn | ⟨hf, rfl, rfl⟩
    · exact hearlier before g segs hturn
    · exact hlast hf segs

theorem reaches_concat :
    Reaches m (fragments ++ [f]) sql x ↔
      Reaches m fragments sql x ∨ (f ∉ fragments ∧
        ∃ A B, Text.Found f (annotate m fragments sql) (A ++ .span () :: B) ∧
          Text.erase m (Text.fill f A) = x) := by
  constructor
  · rintro ⟨before, g, A, B, hturn, hfound, hx⟩
    rcases turn_concat.mp hturn with hturn | ⟨hf, rfl, rfl⟩
    · exact Or.inl ⟨before, g, A, B, hturn, hfound, hx⟩
    · exact Or.inr ⟨hf, A, B, hfound, hx⟩
  · rintro (⟨before, g, A, B, hturn, hfound, hx⟩ | ⟨hf, A, B, hfound, hx⟩)
    · exact ⟨before, g, A, B, turn_concat.mpr (Or.inl hturn), hfound, hx⟩
    · exact ⟨fragments, f, A, B, turn_concat.mpr (Or.inr ⟨hf, rfl, rfl⟩), hfound, hx⟩

section Run

variable (hm : Text.IsMark m) (hsql : ¬ m <:+: sql)

include hm hsql

/-- If no turn puts a mark inside another one, the marks can be erased again, and they stand where
the turns put them. -/
theorem PutsOutside.annotated (hne : ∀ f ∈ fragments, f ≠ []) (h : PutsOutside m fragments sql) :
    Text.erase m (annotate m fragments sql) = sql ∧
      ∀ x, Text.MarkedAt m (annotate m fragments sql) x ↔ Reaches m fragments sql x := by
  induction fragments using List.reverseRecOn with
  | nil =>
    refine ⟨Text.erase_eq_self hsql, fun x => iff_of_false ?_ ?_⟩
    · exact Text.not_markedAt_of_not_infix hsql x
    · rintro ⟨before, g, -, -, hturn, -⟩
      exact not_turn_nil hturn
  | append_singleton fragments f ih =>
    obtain ⟨hearlier, hlast⟩ := putsOutside_concat.mp h
    obtain ⟨herase, hmarked⟩ := ih (fun g hg => hne g (List.mem_append_left [f] hg)) hearlier
    by_cases hf : f ∈ fragments
    · simp only [annotate_concat, reaches_concat, hf, if_true, not_true, false_and, or_false]
      exact ⟨herase, hmarked⟩
    · have hfne : f ≠ [] := hne f (by simp)
      simp only [annotate_concat, reaches_concat, hf, if_false, not_false_iff, true_and]
      refine ⟨?_, fun x => ?_⟩
      · obtain ⟨segs, hfound⟩ := Text.exists_found hfne (annotate m fragments sql)
        rw [hfound.erase_replace hm hfne (hlast hf segs hfound), herase]
      · rw [← hmarked x]
        constructor
        · intro hnew
          obtain ⟨segs, hfound⟩ := Text.exists_found hfne (annotate m fragments sql)
          rcases (hfound.markedAt_replace_iff hm hfne (hlast hf segs hfound)).mp hnew with
            hold | ⟨A, B, rfl, hx⟩
          · exact Or.inl hold
          · exact Or.inr ⟨A, B, hfound, hx⟩
        · rintro (hold | ⟨A, B, hfound, hx⟩)
          · obtain ⟨segs, hfound⟩ := Text.exists_found hfne (annotate m fragments sql)
            exact (hfound.markedAt_replace_iff hm hfne (hlast hf segs hfound)).mpr (Or.inl hold)
          · exact (hfound.markedAt_replace_iff hm hfne (hlast hf _ hfound)).mpr
              (Or.inr ⟨A, B, rfl, hx⟩)

/-- If some turn puts a mark inside another one, something is left of it when marks are erased. -/
theorem length_erase_annotate (hne : ∀ f ∈ fragments, f ≠ []) :
    sql.length ≤ (Text.erase m (annotate m fragments sql)).length ∧
      (¬ PutsOutside m fragments sql →
        sql.length < (Text.erase m (annotate m fragments sql)).length) := by
  induction fragments using List.reverseRecOn with
  | nil =>
    refine ⟨(congrArg List.length (Text.erase_eq_self hsql)).ge, fun h => absurd ?_ h⟩
    exact fun before g segs hturn => absurd hturn not_turn_nil
  | append_singleton fragments f ih =>
    obtain ⟨hle, hlt⟩ := ih fun g hg => hne g (List.mem_append_left [f] hg)
    rw [putsOutside_concat, annotate_concat]
    by_cases hf : f ∈ fragments
    · simp only [hf, if_true, not_true, false_implies, and_true]
      exact ⟨hle, hlt⟩
    · have hfne : f ≠ [] := hne f (by simp)
      simp only [hf, if_false, not_false_iff, true_implies]
      by_cases hlast : ∀ segs, Text.Found f (annotate m fragments sql) segs →
          Text.OutsideMarks m f [] segs
      · obtain ⟨segs, hfound⟩ := Text.exists_found hfne (annotate m fragments sql)
        rw [hfound.erase_replace hm hfne (hlast segs hfound)]
        exact ⟨hle, fun h => hlt fun hearlier => h ⟨hearlier, hlast⟩⟩
      · simp only [not_forall] at hlast
        obtain ⟨segs, hfound, hin⟩ := hlast
        have hmore := hfound.length_erase_replace hm hfne hin
        exact ⟨by omega, fun _ => by omega⟩

end Run

/-! ## Whole marks and nothing else -/

/-- A text with whole marks added to a statement, one in front of every occurrence of a fragment and
perhaps further ones. -/
structure MarksOnly (m : Text) (fragments : List Text) (sql result : Text) : Prop where
  deleted : Text.erase m result = sql
  marked : ∀ f ∈ fragments, ∀ x y, sql = x ++ (f ++ y) →
    ∃ X Y, result = X ++ (m ++ Y) ∧ Text.erase m X = x ∧ Text.erase m Y = f ++ y

/-- The marked statement has whole marks added exactly if no turn puts a mark inside another one and
some turn reaches each place where a fragment occurs. -/
theorem marksOnly_iff (hm : Text.IsMark m) (hsql : ¬ m <:+: sql)
    (hne : ∀ f ∈ fragments, f ≠ []) :
    MarksOnly m fragments sql (annotate m fragments sql) ↔
      PutsOutside m fragments sql ∧
        ∀ f ∈ fragments, ∀ x y, sql = x ++ (f ++ y) → Reaches m fragments sql x := by
  constructor
  · rintro ⟨hdeleted, hmarked⟩
    have hout : PutsOutside m fragments sql := by
      by_contra hin
      have hmore := (length_erase_annotate hm hsql hne).2 hin
      rw [hdeleted] at hmore
      exact absurd hmore (lt_irrefl _)
    refine ⟨hout, fun f hf x y hsplit => ?_⟩
    obtain ⟨X, Y, hresult, hX, -⟩ := hmarked f hf x y hsplit
    exact ((hout.annotated hm hsql hne).2 x).mp ⟨X, Y, hresult, hX⟩
  · rintro ⟨hout, hreaches⟩
    obtain ⟨hdeleted, hmarks⟩ := hout.annotated hm hsql hne
    refine ⟨hdeleted, fun f hf x y hsplit => ?_⟩
    obtain ⟨X, Y, hresult, rfl⟩ := (hmarks x).mpr (hreaches f hf x y hsplit)
    refine ⟨X, Y, hresult, rfl, ?_⟩
    rw [hresult, Text.erase_around_mark hm, hsplit] at hdeleted
    exact List.append_cancel_left hdeleted

/-- Whether inside no occurrence of a fragment there starts one of itself or of a fragment that is
marked before it. -/
def Undivided (fragments : List Text) (sql : Text) : Prop :=
  ∀ before g, Turn fragments before g → ∀ x u v y, u ≠ [] → v ≠ [] → g = u ++ v →
    sql = x ++ (u ++ (v ++ y)) → ∀ f ∈ g :: before, ¬ f <+: v ++ y

/-- No fragment is divided if the first character of each fragment comes first only. -/
theorem undivided_of_notMem (h : ∀ f ∈ fragments, ∀ g ∈ fragments, ∀ k ∈ g.tail, f.head? ≠ some k)
    (hne : ∀ f ∈ fragments, f ≠ []) : Undivided fragments sql := by
  rintro before g hturn x u v y hu hv rfl - f hf hpre
  have hmem : f ∈ fragments := by
    rcases List.mem_cons.mp hf with rfl | hf
    · exact hturn.mem
    · exact hturn.mem_of_mem hf
  obtain ⟨k, f, rfl⟩ := List.exists_cons_of_ne_nil (hne f hmem)
  obtain ⟨c, u, rfl⟩ := List.exists_cons_of_ne_nil hu
  obtain ⟨d, v, rfl⟩ := List.exists_cons_of_ne_nil hv
  rw [List.cons_append, List.cons_prefix_cons] at hpre
  refine h _ hmem _ hturn.mem k ?_ rfl
  rw [hpre.1]
  simp

section Clear

variable (hm : Text.IsMark m) (hsql : ¬ m <:+: sql) (hclear : ∀ f ∈ fragments, Text.ClearOf m f)

include hclear in
theorem putsOutside_of_clear : PutsOutside m fragments sql :=
  fun _ _ _ hturn _ => (hclear _ hturn.mem).outsideMarks

include hm hsql hclear

/-- The marks in front of fragments that no mark touches can be erased again. -/
theorem erase_annotate_of_clear : Text.erase m (annotate m fragments sql) = sql := by
  have hout : PutsOutside m fragments sql := putsOutside_of_clear hclear
  exact (hout.annotated hm hsql fun f hf => (hclear f hf).ne_nil).1

/-- A turn puts marks where its fragment occurs in the statement. -/
theorem erase_of_found (hturn : Turn fragments before g) {A B : List (Segment Unit)}
    (hfound : Text.Found g (annotate m before sql) (A ++ .span () :: B)) :
    sql = Text.erase m (Text.fill g A) ++ (g ++ Text.erase m (Text.fill g B)) := by
  have hbefore : ∀ f ∈ before, Text.ClearOf m f := fun f hf => hclear f (hturn.mem_of_mem hf)
  have herase := erase_annotate_of_clear hm hsql hbefore
  rw [← hfound.fill_eq, Text.fill_append, Text.fill_span,
    (hclear g hturn.mem).erase_around hm] at herase
  exact herase.symm

/-- No mark stands inside an occurrence of a fragment when the fragment has its turn. -/
theorem Undivided.not_markedAt (h : Undivided fragments sql) (hturn : Turn fragments before g)
    {u v : Text} (hu : u ≠ []) (hv : v ≠ []) (hg : g = u ++ v) (hsplit : sql = x ++ (g ++ y)) :
    ¬ Text.MarkedAt m (annotate m before sql) (x ++ u) := by
  intro hmark
  have hbefore : ∀ f ∈ before, Text.ClearOf m f := fun f hf => hclear f (hturn.mem_of_mem hf)
  have hout : PutsOutside m before sql := putsOutside_of_clear hbefore
  have hmarks := (hout.annotated hm hsql fun f hf => (hbefore f hf).ne_nil).2 (x ++ u)
  obtain ⟨early, f, A, B, hearly, hfound, hx⟩ := hmarks.mp hmark
  have hthere := erase_of_found hm hsql hbefore hearly hfound
  rw [hx, hsplit, hg, List.append_assoc, List.append_assoc] at hthere
  have hbehind := List.append_cancel_left (List.append_cancel_left hthere)
  rw [hg, List.append_assoc] at hsplit
  exact h before g hturn x u v y hu hv hg hsplit f (List.mem_cons_of_mem g hearly.mem)
    ⟨_, hbehind.symm⟩

/-- The turn of a fragment reaches each place where it occurs. -/
theorem Undivided.reaches (h : Undivided fragments sql) (hf : f ∈ fragments)
    (hsplit : sql = x ++ (f ++ y)) : Reaches m fragments sql x := by
  obtain ⟨before, hturn⟩ := exists_turn hf
  have hbefore : ∀ g ∈ before, Text.ClearOf m g := fun g hg => hclear g (hturn.mem_of_mem hg)
  have hfclear : Text.ClearOf m f := hclear f hf
  have herase := erase_annotate_of_clear hm hsql hbefore
  -- the occurrence stands in the text in which the fragment is looked for
  obtain ⟨X, Y, hstands, hX⟩ := Text.exists_stretch hm hfclear.ne_nil (herase.trans hsplit)
    fun u v hu hv huv => h.not_markedAt hm hsql hclear hturn hu hv huv hsplit
  obtain ⟨segs, hfound⟩ := Text.exists_found hfclear.ne_nil (annotate m before sql)
  rcases hfound.of_occurrence hfclear.ne_nil hstands with
    ⟨A, B, rfl, rfl⟩ | ⟨A, B, u, v, rfl, hu, hv, rfl, rfl⟩
  · exact ⟨before, f, A, B, hturn, hfound, hX⟩
  · -- it would start inside another occurrence of the fragment
    exfalso
    have hthere := erase_of_found hm hsql hclear hturn hfound
    rw [hfclear.erase_start hm] at hX
    rw [List.append_assoc u v] at hthere
    have hbehind := hthere.symm.trans hsplit
    rw [← hX, List.append_assoc] at hbehind
    have hstart := List.append_cancel_left (List.append_cancel_left hbehind)
    exact h before (u ++ v) hturn _ u v _ hu hv rfl hthere (u ++ v) List.mem_cons_self ⟨y, hstart.symm⟩

/-- Fragments that no mark touches are marked as they should be if none of them is divided. -/
theorem Undivided.marksOnly (h : Undivided fragments sql) :
    MarksOnly m fragments sql (annotate m fragments sql) := by
  rw [marksOnly_iff hm hsql fun f hf => (hclear f hf).ne_nil]
  refine ⟨putsOutside_of_clear hclear, fun f hf x y hsplit => ?_⟩
  exact h.reaches hm hsql hclear hf hsplit

end Clear

/-! ## The standard marker -/

theorem isMark_standard : Text.IsMark Profile.standard.errorMarker where
  ne_nil := by decide
  unbordered := Text.unbordered_of_notMem (t := "PARAMERROR]".toList) (by decide)

/-- With the standard marker, a statement is shown with whole markers added, one in front of every
occurrence of a fragment, exactly if no turn puts a marker inside another one and some turn reaches
each place where a fragment occurs. If no marker can touch a fragment, the markers can always be
deleted again, and they stand where they should if inside no occurrence of a fragment there starts
one of itself or of a fragment before it. -/
theorem annotate_marksOnly (sql : Text) (fragments : List Text)
    (hsql : ¬ Profile.standard.errorMarker <:+: sql) (hblank : ∀ f ∈ fragments, Text.isBlank f = false) :
    (MarksOnly Profile.standard.errorMarker fragments sql
        (annotate Profile.standard.errorMarker fragments sql) ↔
      PutsOutside Profile.standard.errorMarker fragments sql ∧
        ∀ f ∈ fragments, ∀ x y, sql = x ++ (f ++ y) →
          Reaches Profile.standard.errorMarker fragments sql x) ∧
    ((∀ f ∈ fragments, Text.ClearOf Profile.standard.errorMarker f) →
      Text.erase Profile.standard.errorMarker
          (annotate Profile.standard.errorMarker fragments sql) = sql ∧
        (Undivided fragments sql → MarksOnly Profile.standard.errorMarker fragments sql
          (annotate Profile.standard.errorMarker fragments sql))) := by
  have hne : ∀ f ∈ fragments, f ≠ [] := by
    rintro f hf rfl
    exact absurd (hblank [] hf) (by decide)
  refine ⟨marksOnly_iff isMark_standard hsql hne, fun hclear => ⟨?_, fun h => ?_⟩⟩
  · exact erase_annotate_of_clear isMark_standard hsql hclear
  · exact h.marksOnly isMark_standard hsql hclear

/-- Two fragments are marked wherever they occur, the first one twice. -/
theorem annotate_marksOnly_repeated :
    MarksOnly Profile.standard.errorMarker ["a ~~ 1".toList, "b ~~ 2".toList]
      "delete from s.t where a ~~ 1 and b ~~ 2 or a ~~ 1;".toList
      (annotate Profile.standard.errorMarker ["a ~~ 1".toList, "b ~~ 2".toList]
        "delete from s.t where a ~~ 1 and b ~~ 2 or a ~~ 1;".toList) := by
  refine ((annotate_marksOnly _ _ ?_ (by decide)).2 ?_).2 (undivided_of_notMem (by decide) (by decide))
  · rw [← Text.occursIn_iff]
    decide
  · have hclear : ∀ f ∈ ["a ~~ 1".toList, "b ~~ 2".toList],
        f ≠ [] ∧ ∀ k ∈ f, k ∉ Profile.standard.errorMarker := by decide
    exact fun f hf => Text.clearOf_of_notMem (by decide) (hclear f hf).1 (hclear f hf).2

/-- A later fragment can occur inside a marker, and then the markers cannot be deleted again. Or an
earlier fragment occurs inside a later one, whose place is then left without a marker. -/
theorem annotate_inside_marker :
    annotate Profile.standard.errorMarker ["~x".toList, "E".toList]
        "delete from s.t where ~x and E;".toList =
      "delete from s.t where [PARAM[PARAMERROR]ERROR]~x and [PARAMERROR]E;".toList ∧
    Text.erase Profile.standard.errorMarker
        (annotate Profile.standard.errorMarker ["~x".toList, "E".toList]
          "delete from s.t where ~x and E;".toList) ≠
      "delete from s.t where ~x and E;".toList ∧
    ¬ MarksOnly Profile.standard.errorMarker ["b".toList, "a b".toList]
      "delete from s.t where b and a b;".toList
      (annotate Profile.standard.errorMarker ["b".toList, "a b".toList]
        "delete from s.t where b and a b;".toList) := by
  refine ⟨by decide +kernel, by decide +kernel, fun h => ?_⟩
  obtain ⟨X, Y, hresult, hX, -⟩ := h.marked "a b".toList (by decide)
    "delete from s.t where b and ".toList ";".toList rfl
  have hmark : ¬ Text.MarkedAt Profile.standard.errorMarker
      (annotate Profile.standard.errorMarker ["b".toList, "a b".toList]
        "delete from s.t where b and a b;".toList)
      "delete from s.t where b and ".toList := by decide +kernel
  exact hmark ⟨X, Y, hresult, hX⟩

end Job

end MutationPreview
