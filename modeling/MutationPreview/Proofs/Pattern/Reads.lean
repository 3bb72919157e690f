import MutationPreview.Pattern.Search

/-!
# What a pattern can read

The matcher lists the readings of a pattern by preference. Whether a text has a match at all does
not depend on that order. `Pattern.Reads p before u after` says that `p` can read the stretch `u`
where it stands between `before` (nearest character first) and `after`, one clause for each kind
of pattern.

Main statements: the readings of a pattern are the stretches that it reads
(`Pattern.exists_stretch`, `Pattern.exists_reading`), so a text has a match exactly when some
stretch of it is read (`Pattern.hasMatch_iff`), and a match singles out such a stretch
(`Pattern.matchAt?_some`).
-/

namespace MutationPreview

/-! ## Places reached by passing characters of a class -/

theorem Cursor.mem_advances {p : Char → Bool} {before after : Text} {here : Cursor} :
    here ∈ Cursor.advances p before after ↔
      ∃ u rest, after = u ++ rest ∧ here = ⟨u.reverse ++ before, rest⟩ ∧ ∀ c ∈ u, p c = true := by
  induction after generalizing before with
  | nil =>
    constructor
    · intro h
      simp only [Cursor.advances, List.mem_singleton] at h
      exact ⟨[], [], rfl, h, by simp⟩
    · rintro ⟨u, rest, hsplit, rfl, -⟩
      obtain ⟨rfl, rfl⟩ := List.append_eq_nil_iff.mp hsplit.symm
      simp [Cursor.advances]
  | cons c rest ih =>
    constructor
    · intro h
      simp only [Cursor.advances, List.mem_cons] at h
      rcases h with rfl | h
      · exact ⟨[], c :: rest, rfl, rfl, by simp⟩
      · by_cases hc : p c = true
        · rw [if_pos hc] at h
          obtain ⟨u, rest', rfl, rfl, hu⟩ := ih.mp h
          exact ⟨c :: u, rest', rfl, by simp, by simpa [hc] using hu⟩
        · rw [if_neg hc] at h
          simp at h
    · rintro ⟨u, rest', hsplit, rfl, hu⟩
      cases u with
      | nil =>
        have hrest : rest' = c :: rest := by simpa using hsplit.symm
        simp [Cursor.advances, hrest]
      | cons d u =>
        simp only [List.cons_append, List.cons.injEq] at hsplit
        obtain ⟨rfl, rfl⟩ := hsplit
        have hc : p c = true := hu c (by simp)
        have hmem : (⟨(c :: u).reverse ++ before, rest'⟩ : Cursor) ∈
            Cursor.advances p (c :: before) (u ++ rest') :=
          ih.mpr ⟨u, rest', rfl, by simp, fun d hd => hu d (by simp [hd])⟩
        simp only [Cursor.advances, hc, if_true, List.mem_cons]
        exact Or.inr hmem

namespace Pattern

/-! ## Stretches -/

/-- Whether `p` can read `u` where it stands between `before`, nearest character first, and
`after`. -/
def Reads : Pattern → (before u after : Text) → Prop
  | .empty, _, u, _ => u = []
  | .char p, _, u, _ => ∃ c, p c = true ∧ u = [c]
  | .textStart, before, u, _ => before = [] ∧ u = []
  | .textEnd, _, u, after => after = [] ∧ u = []
  | .wordEdge, before, u, after => u = [] ∧ Cursor.atWordEdge ⟨before, after⟩ = true
  | .seq p q, before, u, after =>
    ∃ v w, u = v ++ w ∧ Reads p before v (w ++ after) ∧ Reads q (v.reverse ++ before) w after
  | .alt p q, before, u, after => Reads p before u after ∨ Reads q before u after
  | .many p, _, u, _ => ∀ c ∈ u, p c = true
  | .few p, _, u, _ => ∀ c ∈ u, p c = true
  | .part _ p, before, u, after => Reads p before u after

/-- A reading ends after a stretch that the pattern reads. -/
theorem exists_stretch {p : Pattern} {r s : Reading} (h : s ∈ p.readings r) :
    ∃ u, r.here.after = u ++ s.here.after ∧ s.here.before = u.reverse ++ r.here.before ∧
      p.Reads r.here.before u s.here.after := by
  induction p generalizing r s with
  | empty =>
    simp only [readings, List.mem_singleton] at h
    exact ⟨[], by simp [h], by simp [h], rfl⟩
  | char p =>
    obtain ⟨⟨before, after⟩, parts⟩ := r
    cases after with
    | nil => simp [readings] at h
    | cons c rest =>
      simp only [readings] at h
      split at h
      · rename_i hc
        simp only [List.mem_singleton] at h
        exact ⟨[c], by simp [h], by simp [h], c, hc, rfl⟩
      · simp at h
  | textStart =>
    simp only [readings] at h
    split at h
    · rename_i hb
      simp only [List.mem_singleton] at h
      exact ⟨[], by simp [h], by simp [h], by simpa using hb, rfl⟩
    · simp at h
  | textEnd =>
    simp only [readings] at h
    split at h
    · rename_i ha
      simp only [List.mem_singleton] at h
      subst h
      exact ⟨[], by simp, by simp, by simpa using ha, rfl⟩
    · simp at h
  | wordEdge =>
    simp only [readings] at h
    split at h
    · rename_i he
      simp only [List.mem_singleton] at h
      subst h
      exact ⟨[], by simp, by simp, rfl, he⟩
    · simp at h
  | seq p q ihp ihq =>
    simp only [readings, List.mem_flatMap] at h
    obtain ⟨t, ht, hs⟩ := h
    obtain ⟨v, hv, hvb, hpv⟩ := ihp ht
    obtain ⟨w, hw, hwb, hqw⟩ := ihq hs
    refine ⟨v ++ w, ?_, ?_, v, w, rfl, ?_, ?_⟩
    · rw [hv, hw, List.append_assoc]
    · rw [hwb, hvb, List.reverse_append, List.append_assoc]
    · rw [← hw]
      exact hpv
    · rw [← hvb]
      exact hqw
  | alt p q ihp ihq =>
    simp only [readings, List.mem_append] at h
    rcases h with h | h
    · obtain ⟨u, hu, hub, hpu⟩ := ihp h
      exact ⟨u, hu, hub, Or.inl hpu⟩
    · obtain ⟨u, hu, hub, hqu⟩ := ihq h
      exact ⟨u, hu, hub, Or.inr hqu⟩
  | many p =>
    simp only [readings, List.mem_map, List.mem_reverse] at h
    obtain ⟨here, hmem, rfl⟩ := h
    obtain ⟨u, rest, hsplit, rfl, hu⟩ := Cursor.mem_advances.mp hmem
    exact ⟨u, hsplit, rfl, hu⟩
  | few p =>
    simp only [readings, List.mem_map] at h
    obtain ⟨here, hmem, rfl⟩ := h
    obtain ⟨u, rest, hsplit, rfl, hu⟩ := Cursor.mem_advances.mp hmem
    exact ⟨u, hsplit, rfl, hu⟩
  | part name p ih =>
    simp only [readings, List.mem_map] at h
    obtain ⟨t, ht, rfl⟩ := h
    obtain ⟨u, hu, hub, hpu⟩ := ih ht
    exact ⟨u, hu, hub, hpu⟩

/-- Every stretch that a pattern reads is passed by some reading. -/
theorem exists_reading {p : Pattern} {before u after : Text} (h : p.Reads before u after)
    (parts : List Capture) :
    ∃ s ∈ p.readings ⟨⟨before, u ++ after⟩, parts⟩, s.here = ⟨u.reverse ++ before, after⟩ := by
  induction p generalizing before u after parts with
  | empty =>
    have hu : u = [] := h
    subst hu
    exact ⟨_, List.mem_singleton.mpr rfl, rfl⟩
  | char p =>
    obtain ⟨c, hc, rfl⟩ := h
    exact ⟨⟨⟨c :: before, after⟩, parts⟩, by simp [readings, hc], rfl⟩
  | textStart =>
    obtain ⟨rfl, rfl⟩ := h
    exact ⟨⟨⟨[], after⟩, parts⟩, by simp [readings], rfl⟩
  | textEnd =>
    obtain ⟨rfl, rfl⟩ := h
    exact ⟨⟨⟨before, []⟩, parts⟩, by simp [readings], rfl⟩
  | wordEdge =>
    obtain ⟨rfl, he⟩ := h
    exact ⟨⟨⟨before, after⟩, parts⟩, by simp [readings, he], rfl⟩
  | seq p q ihp ihq =>
    obtain ⟨v, w, rfl, hp, hq⟩ := h
    obtain ⟨t, ht, htHere⟩ := ihp hp parts
    obtain ⟨s, hs, hsHere⟩ := ihq hq t.parts
    rw [← htHere] at hs
    refine ⟨s, ?_, ?_⟩
    · rw [readings, List.mem_flatMap]
      exact ⟨t, by simpa using ht, hs⟩
    · rw [hsHere, List.reverse_append, List.append_assoc]
  | alt p q ihp ihq =>
    rcases h with h | h
    · obtain ⟨s, hs, hHere⟩ := ihp h parts
      exact ⟨s, by simp [readings, hs], hHere⟩
    · obtain ⟨s, hs, hHere⟩ := ihq h parts
      exact ⟨s, by simp [readings, hs], hHere⟩
  | many p =>
    have hmem : (⟨u.reverse ++ before, after⟩ : Cursor) ∈ Cursor.advances p before (u ++ after) :=
      Cursor.mem_advances.mpr ⟨u, after, rfl, rfl, h⟩
    exact ⟨⟨_, parts⟩, by simpa [readings] using hmem, rfl⟩
  | few p =>
    have hmem : (⟨u.reverse ++ before, after⟩ : Cursor) ∈ Cursor.advances p before (u ++ after) :=
      Cursor.mem_advances.mpr ⟨u, after, rfl, rfl, h⟩
    exact ⟨⟨_, parts⟩, by simpa [readings] using hmem, rfl⟩
  | part name p ih =>
    obtain ⟨s, hs, hHere⟩ := ih h parts
    refine ⟨{ s with parts := ⟨name, ⟨before, u ++ after⟩, s.here⟩ :: s.parts }, ?_, hHere⟩
    rw [readings, List.mem_map]
    exact ⟨s, hs, rfl⟩

/-! ## The match at a place -/

/-- The match at a place is the preferred reading there. -/
theorem matchAt?_eq (p : Pattern) (here : Cursor) :
    p.matchAt? here =
      (p.readings ⟨here, []⟩).head?.map fun r => ⟨here, r.here, r.parts⟩ := by
  rw [matchAt?, run_eq]
  cases p.readings ⟨here, []⟩ with
  | nil => rfl
  | cons r rest => rfl

theorem matchAt?_eq_none_iff {p : Pattern} {before after : Text} :
    p.matchAt? ⟨before, after⟩ = none ↔
      ∀ u rest, after = u ++ rest → ¬ p.Reads before u rest := by
  rw [matchAt?_eq, Option.map_eq_none_iff, List.head?_eq_none_iff]
  constructor
  · rintro hnil u rest rfl hreads
    obtain ⟨s, hs, -⟩ := exists_reading hreads []
    rw [hnil] at hs
    simp at hs
  · intro hnone
    cases hread : p.readings ⟨⟨before, after⟩, []⟩ with
    | nil => rfl
    | cons r rs =>
      obtain ⟨u, hu, -, hreads⟩ := exists_stretch (p := p) (s := r)
        (by rw [hread]; exact List.mem_cons_self)
      exact absurd hreads (hnone u r.here.after hu)

/-- A match comes from a reading at its place. -/
theorem matchAt?_reading {p : Pattern} {here : Cursor} {m : Match}
    (h : p.matchAt? here = some m) :
    ∃ r ∈ p.readings ⟨here, []⟩, m = ⟨here, r.here, r.parts⟩ := by
  rw [matchAt?_eq, Option.map_eq_some_iff] at h
  obtain ⟨r, hr, rfl⟩ := h
  exact ⟨r, List.mem_of_mem_head? hr, rfl⟩

/-- A match singles out a stretch that the pattern reads. -/
theorem matchAt?_some {p : Pattern} {before after : Text} {m : Match}
    (h : p.matchAt? ⟨before, after⟩ = some m) :
    ∃ rest, after = m.text ++ rest ∧ m.start = ⟨before, after⟩ ∧
      m.stop = ⟨m.text.reverse ++ before, rest⟩ ∧ p.Reads before m.text rest := by
  obtain ⟨r, hr, rfl⟩ := matchAt?_reading h
  obtain ⟨u, hu, hub, hreads⟩ := exists_stretch hr
  simp only at hu hub hreads
  have htext : Match.text ⟨⟨before, after⟩, r.here, r.parts⟩ = u := by
    simp [Match.text, Cursor.upTo, hu]
  rw [htext]
  refine ⟨r.here.after, hu, rfl, ?_, hreads⟩
  rw [← hub]

theorem reads_of_matchAt? {p : Pattern} {before rest : Text} {m : Match}
    (h : p.matchAt? ⟨before, m.text ++ rest⟩ = some m) : p.Reads before m.text rest := by
  obtain ⟨rest', hsplit, -, -, hreads⟩ := matchAt?_some h
  rwa [List.append_cancel_left hsplit]

/-! ## Searching -/

/-- A search finds the match at the leftmost place that has one. -/
theorem findFrom?_some {p : Pattern} {before after : Text} {m : Match}
    (h : p.findFrom? before after = some m) :
    ∃ x y, after = x ++ y ∧ p.matchAt? ⟨x.reverse ++ before, y⟩ = some m ∧
      ∀ x' y', after = x' ++ y' → x'.length < x.length →
        p.matchAt? ⟨x'.reverse ++ before, y'⟩ = none := by
  induction after generalizing before with
  | nil => exact ⟨[], [], rfl, h, by simp⟩
  | cons c rest ih =>
    rw [findFrom?] at h
    cases hm : p.matchAt? ⟨before, c :: rest⟩ with
    | some m' =>
      rw [hm] at h
      exact ⟨[], c :: rest, rfl, by simpa [hm] using h, by simp⟩
    | none =>
      rw [hm] at h
      obtain ⟨x, y, rfl, hxy, hleft⟩ := ih h
      refine ⟨c :: x, y, rfl, by simpa using hxy, ?_⟩
      intro x' y' hsplit hlen
      cases x' with
      | nil =>
        have hy' : y' = c :: (x ++ y) := by simpa using hsplit.symm
        simpa [hy'] using hm
      | cons d x' =>
        simp only [List.cons_append, List.cons.injEq] at hsplit
        obtain ⟨rfl, hsplit⟩ := hsplit
        have hnone := hleft x' y' hsplit (by simpa using hlen)
        simpa using hnone

theorem findFrom?_isSome_iff {p : Pattern} {before after : Text} :
    (p.findFrom? before after).isSome = true ↔
      ∃ x u y, after = x ++ u ++ y ∧ p.Reads (x.reverse ++ before) u y := by
  constructor
  · intro h
    obtain ⟨m, hm⟩ := Option.isSome_iff_exists.mp h
    obtain ⟨x, y, rfl, hxy, -⟩ := findFrom?_some hm
    obtain ⟨rest, hrest, -, -, hreads⟩ := matchAt?_some hxy
    exact ⟨x, m.text, rest, by rw [hrest, List.append_assoc], hreads⟩
  · rintro ⟨x, u, y, rfl, hreads⟩
    induction x generalizing before with
    | nil =>
      have hsome : p.matchAt? ⟨before, u ++ y⟩ ≠ none := by
        intro hnone
        exact matchAt?_eq_none_iff.mp hnone u y rfl hreads
      cases huy : u ++ y with
      | nil =>
        rw [huy] at hsome
        simpa [findFrom?, huy] using Option.isSome_iff_ne_none.mpr hsome
      | cons c rest =>
        rw [huy] at hsome
        obtain ⟨m, hm⟩ := Option.ne_none_iff_exists'.mp hsome
        simp [findFrom?, huy, hm]
    | cons c x ih =>
      have hrec := @ih (c :: before) (by simpa using hreads)
      simp only [List.cons_append, findFrom?]
      cases p.matchAt? ⟨before, c :: (x ++ u ++ y)⟩ with
      | some m => rfl
      | none => exact hrec

/-- A text has a match exactly when the pattern reads some stretch of it. -/
theorem hasMatch_iff {p : Pattern} {t : Text} :
    p.hasMatch t = true ↔ ∃ x u y, t = x ++ u ++ y ∧ p.Reads x.reverse u y := by
  rw [hasMatch, find?, findFrom?_isSome_iff]
  simp

/-! ## Patterns that read at least one character -/

/-- Whether every stretch that the pattern reads holds a character, as far as its shape shows. -/
def consumes : Pattern → Bool
  | .char _ => true
  | .seq p q => p.consumes || q.consumes
  | .alt p q => p.consumes && q.consumes
  | .part _ p => p.consumes
  | _ => false

theorem Reads.ne_nil {p : Pattern} {before u after : Text} (h : p.Reads before u after)
    (hp : p.consumes = true) : u ≠ [] := by
  induction p generalizing before u after with
  | char p =>
    obtain ⟨c, -, rfl⟩ := h
    simp
  | seq p q ihp ihq =>
    obtain ⟨v, w, rfl, hv, hw⟩ := h
    rcases (Bool.or_eq_true _ _).mp hp with hp | hq
    · have hne := ihp hv hp
      simp [hne]
    · have hne := ihq hw hq
      simp [hne]
  | alt p q ihp ihq =>
    obtain ⟨hp, hq⟩ := (Bool.and_eq_true _ _).mp hp
    rcases h with h | h
    · exact ihp h hp
    · exact ihq h hq
  | part name p ih => exact ih h hp
  | empty | textStart | textEnd | wordEdge | many | few => simp [consumes] at hp

end Pattern

end MutationPreview
