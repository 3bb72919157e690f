import MutationPreview.Proofs.Tidy.Steps

/-!
# Texts that differ in their gaps

Setting a text in lines puts other gaps where gaps were, and changes nothing else. `Respaced` says so
of two texts. What stands in one of them without a gap in it stands in the other, between texts that
again differ in their gaps only (`Respaced.split`).
-/

namespace MutationPreview

open Pattern

/-- Two texts with other gaps between the same characters. -/
inductive Respaced : Text → Text → Prop where
  | nil : Respaced [] []
  | char {t u : Text} (c : Char) (h : Respaced t u) : Respaced (c :: t) (c :: u)
  | gap {g g' t u : Text} (hg : IsGapRun g) (hg' : IsGapRun g') (h : Respaced t u) :
    Respaced (g ++ t) (g' ++ u)

theorem isBlank_of_isGap {c : Char} (h : Grammar.isGap c = true) : isBlank c = true := by
  rw [Grammar.isGap, Bool.or_eq_true, beq_iff_eq, beq_iff_eq] at h
  rcases h with rfl | rfl <;> decide

theorem isGapRun_reverse {g : Text} (h : IsGapRun g) : IsGapRun g.reverse :=
  ⟨by simpa using h.1, fun c hc => h.2 c (by simpa using hc)⟩

namespace Respaced

variable {t u x y a b w : Text} {c : Char}

theorem refl (t : Text) : Respaced t t := by
  induction t with
  | nil => exact nil
  | cons c t ih => exact char c ih

theorem append {t' u' : Text} (h : Respaced t u) (h' : Respaced t' u') :
    Respaced (t ++ t') (u ++ u') := by
  induction h with
  | nil => exact h'
  | char c _ ih => exact char c ih
  | gap hg hg' _ ih =>
    rw [List.append_assoc, List.append_assoc]
    exact gap hg hg' ih

theorem reverse (h : Respaced t u) : Respaced t.reverse u.reverse := by
  induction h with
  | nil => exact nil
  | char c _ ih =>
    rw [List.reverse_cons, List.reverse_cons]
    exact ih.append (char c nil)
  | gap hg hg' _ ih =>
    rw [List.reverse_append, List.reverse_append]
    have hgap := gap (isGapRun_reverse hg) (isGapRun_reverse hg') nil
    rw [List.append_nil, List.append_nil] at hgap
    exact ih.append hgap

theorem symm (h : Respaced t u) : Respaced u t := by
  induction h with
  | nil => exact nil
  | char c _ ih => exact char c ih
  | gap hg hg' _ ih => exact gap hg' hg ih

/-- Both texts start with a character of a class without gaps, or none does. -/
theorem head? {p : Char → Bool} (hp : ∀ c, Grammar.isGap c = true → p c = false)
    (h : Respaced t u) : t.head?.any p = u.head?.any p := by
  cases h with
  | nil => rfl
  | char => rfl
  | gap hg hg' =>
    have hnot : ∀ {g v : Text}, IsGapRun g → (g ++ v).head?.any p = false := by
      intro g v hg
      obtain ⟨d, g, rfl⟩ := List.exists_cons_of_ne_nil hg.1
      simpa using hp d (hg.2 d (by simp))
    rw [hnot hg, hnot hg']

theorem getLast? (h : Respaced t u) : t.getLast?.any isWord = u.getLast?.any isWord := by
  rw [← List.head?_reverse, ← List.head?_reverse]
  exact h.reverse.head? fun c hc => isWord_of_isBlank (isBlank_of_isGap hc)

/-- Both texts start with a gap, or none does. -/
theorem head?_isGap (h : Respaced t u) :
    t.head?.any Grammar.isGap = u.head?.any Grammar.isGap := by
  cases h with
  | nil => rfl
  | char => rfl
  | gap hg hg' =>
    have hstart : ∀ {g v : Text}, IsGapRun g → (g ++ v).head?.any Grammar.isGap = true := by
      intro g v hg
      obtain ⟨d, g, rfl⟩ := List.exists_cons_of_ne_nil hg.1
      simpa using hg.2 d (by simp)
    rw [hstart hg, hstart hg']

/-- A text of characters of a class that has all gaps in it has only those with other gaps. -/
theorem forall_mem {p : Char → Bool} (hp : ∀ c, Grammar.isGap c = true → p c = true)
    (h : Respaced t u) (ht : ∀ c ∈ t, p c = true) : ∀ c ∈ u, p c = true := by
  induction h with
  | nil => exact ht
  | char c _ ih =>
    rw [List.forall_mem_cons] at ht ⊢
    exact ⟨ht.1, ih ht.2⟩
  | gap _ hg' _ ih =>
    rw [List.forall_mem_append] at ht ⊢
    exact ⟨fun c hc => hp c (hg'.2 c hc), ih ht.2⟩

theorem isBlank_of_mem (h : Respaced t u) (ht : ∀ c ∈ t, isBlank c = true) :
    ∀ c ∈ u, isBlank c = true :=
  h.forall_mem (fun _ hc => isBlank_of_isGap hc) ht

theorem exists_cons (h : Respaced (c :: y) u) (hc : Grammar.isGap c = false) :
    ∃ y', u = c :: y' ∧ Respaced y y' := by
  generalize ht : c :: y = t at h
  cases h with
  | nil => simp at ht
  | char d h =>
    obtain ⟨rfl, rfl⟩ := List.cons.inj ht
    exact ⟨_, rfl, h⟩
  | gap hg =>
    obtain ⟨d, g, rfl⟩ := List.exists_cons_of_ne_nil hg.1
    have hd := hg.2 d (by simp)
    rw [List.cons_append, List.cons.injEq] at ht
    rw [← ht.1, hc] at hd
    cases hd

theorem split_char (h : Respaced (x ++ c :: y) u) (hc : Grammar.isGap c = false) :
    ∃ x' y', u = x' ++ c :: y' ∧ Respaced x x' ∧ Respaced y y' := by
  generalize ht : x ++ c :: y = t at h
  induction h generalizing x with
  | nil => simp at ht
  | @char t u d h ih =>
    cases x with
    | nil =>
      obtain ⟨rfl, rfl⟩ := List.cons.inj ht
      exact ⟨[], u, rfl, nil, h⟩
    | cons e x =>
      obtain ⟨rfl, rfl⟩ := List.cons.inj ht
      obtain ⟨x', y', rfl, hx, hy⟩ := ih rfl
      exact ⟨e :: x', y', rfl, char e hx, hy⟩
  | @gap g g' t u hg hg' h ih =>
    have hnot : c ∉ g := fun hmem => by simp [hg.2 c hmem] at hc
    obtain ⟨v, rfl, hrest⟩ := Segment.prefix_of_notMem hnot ht.symm
    obtain ⟨x', y', rfl, hx, hy⟩ := ih hrest.symm
    exact ⟨g' ++ x', y', by simp, gap hg hg' hx, hy⟩

/-- A start without gaps is the start of both texts. -/
theorem split_start (h : Respaced (w ++ y) u) (hw : ∀ c ∈ w, Grammar.isGap c = false) :
    ∃ y', u = w ++ y' ∧ Respaced y y' := by
  induction w generalizing u with
  | nil => exact ⟨u, rfl, h⟩
  | cons d w ih =>
    rw [List.forall_mem_cons] at hw
    obtain ⟨z, rfl, hrest⟩ := exists_cons h hw.1
    obtain ⟨y', rfl, hy⟩ := ih hrest hw.2
    exact ⟨y', rfl, hy⟩

/-- A stretch without gaps stands in both texts. -/
theorem split (h : Respaced (x ++ (w ++ y)) u) (hne : w ≠ [])
    (hw : ∀ c ∈ w, Grammar.isGap c = false) :
    ∃ x' y', u = x' ++ (w ++ y') ∧ Respaced x x' ∧ Respaced y y' := by
  obtain ⟨c, w, rfl⟩ := List.exists_cons_of_ne_nil hne
  rw [List.forall_mem_cons] at hw
  obtain ⟨x', z, rfl, hx, hz⟩ := split_char h hw.1
  obtain ⟨y', rfl, hy⟩ := split_start hz hw.2
  exact ⟨x', y', rfl, hx, hy⟩

/-- Blanks up to a character that is none stand in both texts, if not the same ones. -/
theorem split_blanks (h : Respaced (a ++ c :: y) u) (ha : ∀ d ∈ a, isBlank d = true)
    (hc : Grammar.isGap c = false) :
    ∃ a' y', u = a' ++ c :: y' ∧ (∀ d ∈ a', isBlank d = true) ∧ Respaced y y' := by
  obtain ⟨a', y', rfl, haa, hy⟩ := split_char h hc
  exact ⟨a', y', rfl, haa.isBlank_of_mem ha, hy⟩

end Respaced

/-- Replacing gaps, and gaps around words, respaces a text from a place on. -/
theorem Pattern.Segmented.respaced {p : Pattern} {f : Match → Text}
    (hf : ∀ before after m, p.matchAt? ⟨before, after⟩ = some m → Respaced (f m) m.text)
    {before t : Text} {segs : List (Segment Match)} (h : p.Segmented before t segs) :
    Respaced (Segment.join f segs) t := by
  induction h with
  | done => exact .nil
  | plain _ _ ih => exact .char _ ih
  | span hsome _ _ ih => exact (hf _ _ _ hsome).append ih

theorem respaced_replaceAll {p : Pattern} (hp : p.consumes = true) {f : Match → Text}
    (hf : ∀ before after m, p.matchAt? ⟨before, after⟩ = some m → Respaced (f m) m.text) (t : Text) :
    Respaced (p.replaceAll f t) t :=
  (segmented_segments hp t).respaced hf

theorem respaced_lineOf {before after : Text} {m : Match}
    (hm : Grammar.lineStart.matchAt? ⟨before, after⟩ = some m) : Respaced (lineOf m) m.text := by
  obtain ⟨g, k, g', htext, hg, -, hg', hline⟩ := exists_of_lineStart hm
  have hbreak : IsGapRun ['\n'] := ⟨by simp, by simp [Grammar.isGap]⟩
  have hspace : IsGapRun [' '] := ⟨by simp, by simp [Grammar.isGap]⟩
  rw [htext, hline]
  have hbehind := Respaced.gap hspace hg' .nil
  rw [List.append_nil, List.append_nil] at hbehind
  exact .gap hbreak hg ((Respaced.refl k).append hbehind)

theorem respaced_breakLines (t : Text) : Respaced (breakLines t) t := by
  rw [breakLines_eq]
  exact respaced_replaceAll (by decide) (fun _ _ _ hm => respaced_lineOf hm) t

theorem respaced_collapseSpaces (t : Text) : Respaced (collapseSpaces t) t := by
  refine respaced_replaceAll (by decide) (fun before after m hm => ?_) t
  obtain ⟨rest, -, -, -, hreads⟩ := matchAt?_some hm
  obtain ⟨v, htext, hv⟩ := reads_spaceRun_iff.mp hreads
  have hspace : IsGapRun [' '] := ⟨by simp, by simp [Grammar.isGap]⟩
  have hrun : IsGapRun m.text := by
    rw [htext]
    refine ⟨by simp, fun c hc => ?_⟩
    obtain rfl : c = ' ' := by
      rcases List.mem_cons.mp hc with rfl | hc
      · rfl
      · rcases List.mem_cons.mp hc with rfl | hc
        · rfl
        · exact hv c hc
    rfl
  have hgap := Respaced.gap hspace hrun .nil
  rwa [List.append_nil, List.append_nil] at hgap

/-- What other gaps do not take away is kept by setting a text in lines. -/
theorem layOut_preserves {P : Text → Prop} (hP : ∀ {t u : Text}, Respaced t u → P u → P t) {t : Text}
    (h : P t) : P (layOut t) :=
  hP (respaced_collapseSpaces _) (hP (respaced_breakLines t) h)

end MutationPreview
