import MutationPreview.Proofs.Pattern.Segments
import MutationPreview.Proofs.Pattern.Spelling

/-!
# What replacing leaves alone

Replacing the matches of a pattern one by one changes the text at one place at a time. So whatever
each single replacement keeps is kept by all of them together (`Pattern.replaceAll_preserves`), and
a stretch that no match touches is still there afterwards (`Pattern.infix_replaceAll`).
-/

namespace MutationPreview

namespace Pattern

variable {p : Pattern} {f : Match → Text} {t : Text}

/-- Without a match there is nothing to replace. -/
theorem replaceAll_eq_self (hp : p.consumes = true) (h : p.hasMatch t = false) :
    p.replaceAll f t = t := by
  have hnone : ∀ x u y, t = x ++ u ++ y → ¬ p.Reads x.reverse u y := by
    intro x u y ht hreads
    rw [hasMatch_iff.mpr ⟨x, u, y, ht, hreads⟩] at h
    simp at h
  have hplain : ∀ {before after : Text} {segs : List (Segment Match)},
      Segmented p before after segs → before.reverse ++ after = t → segs = after.map .plain := by
    intro before after segs hsegs
    induction hsegs with
    | done => exact fun _ => rfl
    | @plain before rest c segs _ _ ih =>
      intro ht
      rw [ih (by simpa using ht), List.map_cons]
    | @span before rest m segs hsome _ _ _ =>
      intro ht
      obtain ⟨rest', hrest, -, -, hreads⟩ := matchAt?_some hsome
      rw [hrest] at ht
      exact absurd hreads (by simpa using hnone before.reverse m.text rest' (by simp [← ht]))
  rw [replaceAll, hplain (segmented_segments hp t) rfl, Segment.join_map_plain]

/-- A text with a match has one singled out. -/
theorem exists_mem_spans (hp : p.consumes = true) (h : p.hasMatch t = true) :
    ∃ m, m ∈ Segment.spans (p.segments t) := by
  have hplain : ∀ {before after : Text} {segs : List (Segment Match)},
      Segmented p before after segs → Segment.spans segs = [] →
      ∀ x u y, after = x ++ u ++ y → ¬ p.Reads (x.reverse ++ before) u y := by
    intro before after segs hsegs
    induction hsegs with
    | done hnone =>
      intro _ x u y hxy hreads
      obtain ⟨rfl, rfl, rfl⟩ : x = [] ∧ u = [] ∧ y = [] := by simpa [eq_comm] using hxy
      exact matchAt?_eq_none_iff.mp hnone [] [] rfl hreads
    | @plain before rest c segs hnone _ ih =>
      intro hspans x u y hxy hreads
      cases x with
      | nil => exact matchAt?_eq_none_iff.mp hnone u y hxy hreads
      | cons d x =>
        simp only [List.cons_append, List.cons.injEq] at hxy
        obtain ⟨rfl, hxy⟩ := hxy
        exact ih hspans x u y hxy (by simpa using hreads)
    | span => simp
  by_contra hnone
  have hspans : Segment.spans (p.segments t) = [] :=
    List.eq_nil_iff_forall_not_mem.mpr fun m hm => hnone ⟨m, hm⟩
  obtain ⟨x, u, y, ht, hreads⟩ := hasMatch_iff.mp h
  exact hplain (segmented_segments hp t) hspans x u y ht (by simpa using hreads)

/-- What every single replacement keeps is kept from a place on. The text before the place is that
before replacing, the text behind it has been replaced already. -/
theorem Segmented.preserves {P : Text → Prop} {before after : Text} {segs : List (Segment Match)}
    (h : Segmented p before after segs)
    (hstep : ∀ before m rest segs, p.matchAt? ⟨before, m.text ++ rest⟩ = some m →
      Segmented p (m.text.reverse ++ before) rest segs → before.reverse ++ (m.text ++ rest) = t →
      P (before.reverse ++ (m.text ++ Segment.join f segs)) →
      P (before.reverse ++ (f m ++ Segment.join f segs)))
    (ht : before.reverse ++ after = t) (hP : P t) : P (before.reverse ++ Segment.join f segs) := by
  induction h with
  | done => rwa [Segment.join_nil, ht]
  | plain _ _ ih => simpa using ih (by simpa using ht)
  | @span before rest m segs hsome _ hrest ih =>
    have hbehind := ih (by simpa using ht)
    rw [List.reverse_append, List.reverse_reverse, List.append_assoc] at hbehind
    exact hstep before m rest segs hsome hrest ht hbehind

/-- What every single replacement keeps is kept. -/
theorem replaceAll_preserves {P : Text → Prop} (hp : p.consumes = true)
    (hstep : ∀ before m rest segs, p.matchAt? ⟨before, m.text ++ rest⟩ = some m →
      Segmented p (m.text.reverse ++ before) rest segs → before.reverse ++ (m.text ++ rest) = t →
      P (before.reverse ++ (m.text ++ Segment.join f segs)) →
      P (before.reverse ++ (f m ++ Segment.join f segs)))
    (hP : P t) : P (p.replaceAll f t) :=
  (segmented_segments hp t).preserves hstep rfl hP

/-- What has the same value before and after every single replacement has it after all of them. -/
theorem replaceAll_invariant {β : Type} (hp : p.consumes = true) {G : Text → β}
    (hstep : ∀ before m rest segs, p.matchAt? ⟨before, m.text ++ rest⟩ = some m →
      Segmented p (m.text.reverse ++ before) rest segs → before.reverse ++ (m.text ++ rest) = t →
      G (before.reverse ++ (m.text ++ Segment.join f segs)) =
        G (before.reverse ++ (f m ++ Segment.join f segs))) :
    G t = G (p.replaceAll f t) :=
  replaceAll_preserves (P := fun u => G t = G u) hp
    (fun before m rest segs hsome hrest ht hkept =>
      hkept.trans (hstep before m rest segs hsome hrest ht)) rfl

/-- A stretch is still there after replacing if no match starts or ends in it or holds it. -/
theorem infix_replaceAll (hp : p.consumes = true) {w : Text} (hw : w ≠ [])
    (hmatch : ∀ before u after, p.Reads before u after →
      (∃ o body c, u = o :: (body ++ [c]) ∧ o ∉ w ∧ c ∉ w) ∧ ¬ w <:+: u)
    (h : w <:+: t) : w <:+: p.replaceAll f t := by
  obtain ⟨x, y, hxy⟩ := h
  rw [← join_segments hp t] at hxy
  have hspan : ∀ m ∈ Segment.spans (p.segments t),
      (∃ o body c, m.text = o :: (body ++ [c]) ∧ o ∉ w ∧ c ∉ w) ∧ ¬ w <:+: m.text := by
    intro m hm
    obtain ⟨before, rest, -, hreads, -⟩ := reads_of_mem_spans hp hm
    exact hmatch _ _ _ hreads
  rcases Segment.split_join hw (fun m hm => (hspan m hm).1) hxy.symm with
    ⟨A, B, hsegs, -, -⟩ | ⟨A, m, B, o, u, v, c, hsegs, htext, -, -⟩
  · rw [replaceAll, hsegs, Segment.join_append, Segment.join_append, Segment.join_map_plain]
    exact List.infix_append _ _ _
  · refine absurd ?_ (hspan m (by simp [hsegs])).2
    exact ⟨o :: u, v ++ [c], by simp [htext]⟩

end Pattern

end MutationPreview
