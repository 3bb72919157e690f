import MutationPreview.Proofs.Text.Segment

/-!
# Characters that come at the end only

`Text.AtEnd x t` says that `x` occurs in `t` as the last character at most. That is what a single
statement is to its terminator. A rewriting keeps it if every span that it rewrites stays as it is
or loses the character, since nothing is moved (`Segment.keeps_join`).
-/

namespace MutationPreview

/-- Whether a character occurs in a text as its last character at most. -/
def Text.AtEnd (x : Char) (t : Text) : Prop := x ∉ t.dropLast

instance (x : Char) (t : Text) : Decidable (Text.AtEnd x t) :=
  inferInstanceAs (Decidable (x ∉ t.dropLast))

/-- What a rewriting does not do to a character: move it from the end, or bring it in. -/
structure Text.Keeps (x : Char) (t u : Text) : Prop where
  atEnd : Text.AtEnd x t → Text.AtEnd x u
  notMem : x ∉ t → x ∉ u

namespace Text

variable {x : Char} {t u : Text}

theorem Keeps.trans {v : Text} (h : Keeps x t u) (h' : Keeps x u v) : Keeps x t v :=
  ⟨fun ht => h'.atEnd (h.atEnd ht), fun ht => h'.notMem (h.notMem ht)⟩

theorem atEnd_iff : AtEnd x t ↔ ∀ a b, t = a ++ x :: b → b = [] := by
  constructor
  · rintro h a b rfl
    by_contra hb
    apply h
    rw [List.dropLast_append_of_ne_nil (List.cons_ne_nil _ _), List.dropLast_cons_of_ne_nil hb]
    simp
  · intro h hmem
    obtain ⟨a, b, hsplit⟩ := List.append_of_mem hmem
    have hne : t ≠ [] := by
      rintro rfl
      simp at hmem
    have ht := List.dropLast_concat_getLast hne
    rw [hsplit, List.append_assoc, List.cons_append] at ht
    have hb := h a _ ht.symm
    simp at hb

theorem atEnd_of_notMem (h : x ∉ t) : AtEnd x t := fun hmem =>
  h (List.dropLast_subset t hmem)

/-- Before the last stretch of the text the character does not occur. -/
theorem AtEnd.notMem_of_append {v : Text} (h : AtEnd x (u ++ v)) (hv : v ≠ []) : x ∉ u := by
  intro hmem
  obtain ⟨a, b, rfl⟩ := List.append_of_mem hmem
  have hnil := atEnd_iff.mp h a (b ++ v) (by simp)
  exact hv (List.append_eq_nil_iff.mp hnil).2

theorem AtEnd.stretch (h : AtEnd x t) (hstretch : u <:+: t) : AtEnd x u := by
  rw [atEnd_iff] at h ⊢
  rintro a b rfl
  obtain ⟨y, z, rfl⟩ := hstretch
  have hnil := h (y ++ a) (b ++ z) (by simp)
  exact (List.append_eq_nil_iff.mp hnil).1

theorem AtEnd.sublist (h : AtEnd x t) (hsub : u.Sublist t) : AtEnd x u := by
  rw [atEnd_iff] at h ⊢
  rintro a b rfl
  obtain ⟨front, back, rfl, -, hback⟩ := List.append_sublist_iff.mp hsub
  obtain ⟨y, z, rfl, hmem, hz⟩ := List.cons_sublist_iff.mp hback
  obtain ⟨p, q, rfl⟩ := List.append_of_mem hmem
  have hnil := h (front ++ p) (q ++ z) (by simp)
  rw [(List.append_eq_nil_iff.mp hnil).2] at hz
  exact List.sublist_nil.mp hz

theorem AtEnd.append (hu : x ∉ u) (h : AtEnd x t) : AtEnd x (u ++ t) := by
  rw [atEnd_iff] at h ⊢
  intro a b hsplit
  rcases List.append_eq_append_iff.mp hsplit with ⟨v, rfl, ht⟩ | ⟨v, hv, ht⟩
  · exact h v b ht
  · cases v with
    | nil => exact h [] b ht.symm
    | cons c v =>
      rw [List.cons_append, List.cons.injEq] at ht
      exact absurd (by simp [hv, ht.1]) hu

theorem atEnd_concat_iff {c : Char} : AtEnd x (t ++ [c]) ↔ x ∉ t := by
  rw [AtEnd, List.dropLast_concat]

end Text

namespace Segment

variable {α : Type} {x : Char} {f g : α → Text} {segs : List (Segment α)}

/-- Spans that are left alone or replaced by texts without the character leave it at the end. -/
theorem atEnd_join (hg : ∀ a ∈ spans segs, g a ≠ [])
    (hf : ∀ a ∈ spans segs, f a = g a ∨ x ∉ f a) (h : Text.AtEnd x (join g segs)) :
    Text.AtEnd x (join f segs) := by
  induction segs with
  | nil => exact h
  | cons s segs ih =>
    have hg' : ∀ a ∈ spans segs, g a ≠ [] := fun a ha => hg a (by cases s <;> simp [ha])
    have hf' : ∀ a ∈ spans segs, f a = g a ∨ x ∉ f a := fun a ha => hf a (by cases s <;> simp [ha])
    have htail : join g segs <:+: join g (s :: segs) := by
      rw [← List.singleton_append, join_append]
      exact (List.suffix_append _ _).isInfix
    have hrest := ih hg' hf' (h.stretch htail)
    -- if the first segment has the character, nothing follows it in either text
    have hlast : ∀ u, u ++ join g segs = join g (s :: segs) → x ∈ u → segs = [] := by
      intro u hu hmem
      by_contra hne
      have hsegs : join g segs ≠ [] := fun hnil => hne ((join_eq_nil_iff hg').mp hnil)
      rw [← hu] at h
      exact h.notMem_of_append hsegs hmem
    cases s with
    | plain c =>
      by_cases hc : x = c
      · have hnil := hlast [c] rfl (by simp [hc])
        rw [hnil] at h ⊢
        exact h
      · exact hrest.append (u := [c]) (by simp [hc])
    | span a =>
      by_cases hmem : x ∈ f a
      · have heq := (hf a (by simp)).resolve_right (fun hnot => hnot hmem)
        have hnil := hlast (g a) rfl (heq ▸ hmem)
        rw [hnil] at h ⊢
        simpa [heq] using h
      · exact hrest.append hmem

theorem keeps_join (hg : ∀ a ∈ spans segs, g a ≠ []) (hf : ∀ a ∈ spans segs, f a = g a ∨ x ∉ f a) :
    Text.Keeps x (join g segs) (join f segs) where
  atEnd := atEnd_join hg hf
  notMem h hmem := by
    rcases mem_join.mp hmem with hplain | ⟨a, ha, hx⟩
    · exact h (mem_join.mpr (Or.inl hplain))
    · have heq := (hf a ha).resolve_right (fun hnot => hnot hx)
      exact h (mem_join.mpr (Or.inr ⟨a, ha, heq ▸ hx⟩))

end Segment

end MutationPreview
