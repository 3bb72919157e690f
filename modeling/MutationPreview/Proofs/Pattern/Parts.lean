import MutationPreview.Proofs.Pattern.Reads

/-!
# Parts of a match

A match singles out parts of the text that it covers. Each of them is a stretch that the pattern of
that part reads, at the place where it stands in the whole text (`Pattern.exists_part_of_find?`).
-/

namespace MutationPreview

namespace Pattern

/-- The parts that a pattern can single out, with their patterns. -/
def partsIn : Pattern → List (Part × Pattern)
  | .seq p q => p.partsIn ++ q.partsIn
  | .alt p q => p.partsIn ++ q.partsIn
  | .part name p => (name, p) :: p.partsIn
  | _ => []

/-- Where a part lies that is singled out behind `before`, in a text that goes on with `after`. -/
def IsPart (p : Pattern) (before after : Text) (c : Capture) : Prop :=
  ∃ q x u y, (c.name, q) ∈ p.partsIn ∧ after = x ++ (u ++ y) ∧
    c.start = ⟨x.reverse ++ before, u ++ y⟩ ∧ c.text = u ∧ q.Reads (x.reverse ++ before) u y

theorem IsPart.mono {p p' : Pattern} {before after : Text} {c : Capture}
    (h : p.IsPart before after c) (hsub : ∀ part ∈ p.partsIn, part ∈ p'.partsIn) :
    p'.IsPart before after c := by
  obtain ⟨q, x, u, y, hmem, hrest⟩ := h
  exact ⟨q, x, u, y, hsub _ hmem, hrest⟩

/-- A part that lies behind a stretch of the text lies in the whole text. -/
theorem IsPart.behind {p : Pattern} {before after v : Text} {c : Capture}
    (h : p.IsPart (v.reverse ++ before) after c) : p.IsPart before (v ++ after) c := by
  obtain ⟨q, x, u, y, hmem, rfl, hstart, htext, hreads⟩ := h
  refine ⟨q, v ++ x, u, y, hmem, by simp, ?_, htext, ?_⟩
  · rw [hstart, List.reverse_append, List.append_assoc]
  · rw [List.reverse_append, List.append_assoc]
    exact hreads

/-- A reading puts parts of its pattern in front of those that were singled out before. -/
theorem exists_parts {p : Pattern} {r s : Reading} (h : s ∈ p.readings r) :
    ∃ new, s.parts = new ++ r.parts ∧ ∀ c ∈ new, p.IsPart r.here.before r.here.after c := by
  induction p generalizing r s with
  | empty =>
    simp only [readings, List.mem_singleton] at h
    exact ⟨[], by simp [h], by simp⟩
  | char p =>
    simp only [readings] at h
    split at h
    · simp at h
    · split at h
      · simp only [List.mem_singleton] at h
        exact ⟨[], by simp [h], by simp⟩
      · simp at h
  | textStart | textEnd | wordEdge =>
    simp only [readings] at h
    split at h
    · simp only [List.mem_singleton] at h
      exact ⟨[], by simp [h], by simp⟩
    · simp at h
  | seq p q ihp ihq =>
    obtain ⟨t, ht, hs⟩ := List.mem_flatMap.mp h
    obtain ⟨new, hnew, hparts⟩ := ihp ht
    obtain ⟨new', hnew', hparts'⟩ := ihq hs
    refine ⟨new' ++ new, by rw [hnew', hnew, List.append_assoc], fun c hc => ?_⟩
    rcases List.mem_append.mp hc with hc | hc
    · -- the second pattern starts where the first one stops
      obtain ⟨v, hv, hvb, -⟩ := exists_stretch ht
      have hpart := hparts' c hc
      rw [hvb] at hpart
      rw [hv]
      exact hpart.behind.mono fun part hpart => List.mem_append_right _ hpart
    · exact (hparts c hc).mono fun part hpart => List.mem_append_left _ hpart
  | alt p q ihp ihq =>
    rcases List.mem_append.mp h with h | h
    · obtain ⟨new, hnew, hparts⟩ := ihp h
      exact ⟨new, hnew, fun c hc => (hparts c hc).mono fun part hpart => List.mem_append_left _ hpart⟩
    · obtain ⟨new, hnew, hparts⟩ := ihq h
      exact ⟨new, hnew, fun c hc => (hparts c hc).mono fun part hpart => List.mem_append_right _ hpart⟩
  | many p =>
    obtain ⟨here, -, rfl⟩ := List.mem_map.mp h
    exact ⟨[], rfl, by simp⟩
  | few p =>
    obtain ⟨here, -, rfl⟩ := List.mem_map.mp h
    exact ⟨[], rfl, by simp⟩
  | part name p ih =>
    obtain ⟨t, ht, rfl⟩ := List.mem_map.mp h
    obtain ⟨new, hnew, hparts⟩ := ih ht
    refine ⟨⟨name, r.here, t.here⟩ :: new, by rw [List.cons_append, ← hnew], fun c hc => ?_⟩
    rcases List.mem_cons.mp hc with rfl | hc
    · obtain ⟨u, hu, -, hreads⟩ := exists_stretch ht
      refine ⟨p, [], u, t.here.after, List.mem_cons_self, by simpa using hu, ?_, ?_, ?_⟩
      · rw [← hu]
        rfl
      · simp [Capture.text, Cursor.upTo, hu]
      · simpa using hreads
    · exact (hparts c hc).mono fun part hpart => List.mem_cons_of_mem _ hpart

/-- A reading singles out nothing else than parts of its pattern. -/
theorem isPart_of_mem {p : Pattern} {r s : Reading} (h : s ∈ p.readings r) {c : Capture}
    (hc : c ∈ s.parts) : c ∈ r.parts ∨ p.IsPart r.here.before r.here.after c := by
  obtain ⟨new, hnew, hparts⟩ := exists_parts h
  rw [hnew, List.mem_append] at hc
  exact hc.symm.imp_right (hparts c)

/-- A part of a match in a text: where it stands, and what it reads there. -/
theorem exists_start_of_find? {p : Pattern} {t : Text} {m : Match} (h : p.find? t = some m)
    {name : Part} {c : Capture} (hc : m.part? name = some c) :
    ∃ q x u y, (name, q) ∈ p.partsIn ∧ t = m.start.passed ++ x ++ u ++ y ∧
      c.start = ⟨(m.start.passed ++ x).reverse, u ++ y⟩ ∧ c.text = u ∧
      q.Reads (m.start.passed ++ x).reverse u y := by
  obtain ⟨x, y, rfl, hmatch, -⟩ := findFrom?_some h
  obtain ⟨r, hr, rfl⟩ := matchAt?_reading hmatch
  rw [Match.part?] at hc
  have hname : c.name = name := by simpa using List.find?_some hc
  rcases isPart_of_mem hr (List.mem_of_find?_eq_some hc) with hmem | hpart
  · simp at hmem
  · obtain ⟨q, x', u, y', hq, hsplit, hstart, htext, hreads⟩ := hpart
    rw [hname] at hq
    have hsplit : y = x' ++ (u ++ y') := hsplit
    refine ⟨q, x', u, y', hq, by simp [hsplit, Cursor.passed], ?_, htext, ?_⟩
    · rw [hstart]
      simp [Cursor.passed]
    · simpa [Cursor.passed] using hreads

/-- The text from the start of a match on leads up to a part of it. -/
theorem exists_part_of_find? {p : Pattern} {t : Text} {m : Match} (h : p.find? t = some m)
    {name : Part} {c : Capture} (hc : m.part? name = some c) :
    ∃ q x u y, (name, q) ∈ p.partsIn ∧ t = m.start.passed ++ x ++ u ++ y ∧
      c.start.after = u ++ y ∧ c.text = u ∧ q.Reads c.start.before u y := by
  obtain ⟨q, x, u, y, hq, hsplit, hstart, htext, hreads⟩ := exists_start_of_find? h hc
  exact ⟨q, x, u, y, hq, hsplit, by rw [hstart], htext, by rw [hstart]; exact hreads⟩

end Pattern

end MutationPreview
