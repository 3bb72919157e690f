import MutationPreview.Proofs.Pattern.Reads

/-!
# Patterns that do not look around

A pattern without text ends and word edges reads a stretch whatever stands around it. For such a
pattern `Pattern.Spells p u` says that `p` can read `u`, and it has a match in every text that
holds a stretch which it spells (`Pattern.hasMatch_of_spells`).
-/

namespace MutationPreview

namespace Pattern

/-! ## Chains -/

/-- A chain reads what its first pattern and then the rest of the chain read. -/
theorem reads_chain_cons {p : Pattern} {ps : List Pattern} {before u after : Text} :
    (chain (p :: ps)).Reads before u after ↔
      ∃ v w, u = v ++ w ∧ p.Reads before v (w ++ after) ∧
        (chain ps).Reads (v.reverse ++ before) w after := by
  cases ps with
  | nil =>
    simp only [chain, Reads]
    constructor
    · intro h
      exact ⟨u, [], by simp, by simpa using h, rfl⟩
    · rintro ⟨v, w, rfl, hv, rfl⟩
      simpa using hv
  | cons q ps => rfl

/-- Reading a chain that is made of two is reading one after the other. -/
theorem reads_chain_append {ps qs : List Pattern} {before u after : Text} :
    (chain (ps ++ qs)).Reads before u after ↔
      ∃ v w, u = v ++ w ∧ (chain ps).Reads before v (w ++ after) ∧
        (chain qs).Reads (v.reverse ++ before) w after := by
  induction ps generalizing before u with
  | nil =>
    constructor
    · intro h
      exact ⟨[], u, rfl, rfl, by simpa using h⟩
    · rintro ⟨v, w, rfl, hv, hw⟩
      have hv : v = [] := hv
      subst hv
      simpa using hw
  | cons p ps ih =>
    rw [List.cons_append, reads_chain_cons]
    constructor
    · rintro ⟨v, w, rfl, hv, hw⟩
      obtain ⟨v', w', rfl, hv', hw'⟩ := ih.mp hw
      refine ⟨v ++ v', w', by simp, ?_, by simpa using hw'⟩
      exact reads_chain_cons.mpr ⟨v, v', rfl, by simpa using hv, hv'⟩
    · rintro ⟨v, w, rfl, hv, hw⟩
      obtain ⟨v', w', rfl, hv', hw'⟩ := reads_chain_cons.mp hv
      refine ⟨v', w' ++ w, by simp, by simpa using hv', ?_⟩
      exact ih.mpr ⟨w', w, rfl, hw', by simpa using hw⟩

/-! ## Reading whatever stands around -/

/-- Whether the pattern looks neither at the ends of the text nor at word edges. -/
def edgeFree : Pattern → Bool
  | .textStart | .textEnd | .wordEdge => false
  | .seq p q => p.edgeFree && q.edgeFree
  | .alt p q => p.edgeFree && q.edgeFree
  | .part _ p => p.edgeFree
  | _ => true

theorem edgeFree_chain_cons {p : Pattern} {ps : List Pattern} :
    (chain (p :: ps)).edgeFree = (p.edgeFree && (chain ps).edgeFree) := by
  cases ps with
  | nil => simp [chain, edgeFree]
  | cons q ps => rfl

theorem edgeFree_chain_append (ps qs : List Pattern) :
    (chain (ps ++ qs)).edgeFree = ((chain ps).edgeFree && (chain qs).edgeFree) := by
  induction ps with
  | nil => simp [chain, edgeFree]
  | cons p ps ih => rw [List.cons_append, edgeFree_chain_cons, edgeFree_chain_cons, ih, Bool.and_assoc]

theorem Reads.congr {p : Pattern} (hp : p.edgeFree = true) {before before' u after after' : Text}
    (h : p.Reads before u after) : p.Reads before' u after' := by
  induction p generalizing before before' u after after' with
  | empty => exact h
  | char p => exact h
  | textStart | textEnd | wordEdge => simp [edgeFree] at hp
  | seq p q ihp ihq =>
    obtain ⟨hp, hq⟩ := (Bool.and_eq_true _ _).mp hp
    obtain ⟨v, w, rfl, hv, hw⟩ := h
    exact ⟨v, w, rfl, ihp hp hv, ihq hq hw⟩
  | alt p q ihp ihq =>
    obtain ⟨hp, hq⟩ := (Bool.and_eq_true _ _).mp hp
    rcases h with h | h
    · exact Or.inl (ihp hp h)
    · exact Or.inr (ihq hq h)
  | many p => exact h
  | few p => exact h
  | part name p ih => exact ih hp h

/-- Whether a pattern that does not look around can read `u`. -/
def Spells (p : Pattern) (u : Text) : Prop := p.Reads [] u []

theorem Spells.reads {p : Pattern} (hp : p.edgeFree = true) {u : Text} (h : p.Spells u)
    (before after : Text) : p.Reads before u after := h.congr hp

theorem Reads.spells {p : Pattern} (hp : p.edgeFree = true) {before u after : Text}
    (h : p.Reads before u after) : p.Spells u := h.congr hp

/-- A reading up to the end of a text spells that text; on a given text this is computed. -/
theorem spells_of_readings {p : Pattern} {u : Text}
    (h : ((p.readings ⟨⟨[], u⟩, []⟩).any fun r => r.here.after.isEmpty) = true) : p.Spells u := by
  obtain ⟨r, hr, hend⟩ := List.any_eq_true.mp h
  obtain ⟨v, hv, -, hreads⟩ := exists_stretch hr
  have hend : r.here.after = [] := by simpa using hend
  rw [hend] at hv hreads
  have hv : u = v := by simpa using hv
  rw [hv]
  exact hreads

/-- A text that holds a stretch which the pattern spells has a match. -/
theorem hasMatch_of_spells {p : Pattern} (hp : p.edgeFree = true) {u : Text} (h : p.Spells u)
    (x y : Text) : p.hasMatch (x ++ u ++ y) = true :=
  hasMatch_iff.mpr ⟨x, u, y, rfl, h.reads hp _ _⟩

theorem hasMatch_iff_spells {p : Pattern} (hp : p.edgeFree = true) {t : Text} :
    p.hasMatch t = true ↔ ∃ x u y, t = x ++ u ++ y ∧ p.Spells u := by
  rw [hasMatch_iff]
  constructor
  · rintro ⟨x, u, y, rfl, h⟩
    exact ⟨x, u, y, rfl, h.spells hp⟩
  · rintro ⟨x, u, y, rfl, h⟩
    exact ⟨x, u, y, rfl, h.reads hp _ _⟩

/-- One after the other, without looking around. -/
theorem spells_seq {p q : Pattern} (hp : p.edgeFree = true) (hq : q.edgeFree = true) {u : Text} :
    (seq p q).Spells u ↔ ∃ v w, u = v ++ w ∧ p.Spells v ∧ q.Spells w := by
  constructor
  · rintro ⟨v, w, rfl, hv, hw⟩
    exact ⟨v, w, rfl, hv.spells hp, hw.spells hq⟩
  · rintro ⟨v, w, rfl, hv, hw⟩
    exact ⟨v, w, rfl, hv.reads hp _ _, hw.reads hq _ _⟩

theorem spells_chain_append (ps : List Pattern) {qs : List Pattern} (hps : (chain ps).edgeFree = true)
    (hqs : (chain qs).edgeFree = true) {u : Text} :
    (chain (ps ++ qs)).Spells u ↔ ∃ v w, u = v ++ w ∧ (chain ps).Spells v ∧ (chain qs).Spells w := by
  rw [Spells, reads_chain_append]
  constructor
  · rintro ⟨v, w, rfl, hv, hw⟩
    exact ⟨v, w, rfl, hv.spells hps, hw.spells hqs⟩
  · rintro ⟨v, w, rfl, hv, hw⟩
    exact ⟨v, w, rfl, hv.reads hps _ _, hw.reads hqs _ _⟩

theorem spells_chain_cons {p : Pattern} {ps : List Pattern} (hp : p.edgeFree = true)
    (hps : (chain ps).edgeFree = true) {u : Text} :
    (chain (p :: ps)).Spells u ↔ ∃ v w, u = v ++ w ∧ p.Spells v ∧ (chain ps).Spells w := by
  rw [Spells, reads_chain_cons]
  constructor
  · rintro ⟨v, w, rfl, hv, hw⟩
    exact ⟨v, w, rfl, hv.spells hp, hw.spells hps⟩
  · rintro ⟨v, w, rfl, hv, hw⟩
    exact ⟨v, w, rfl, hv.reads hp _ _, hw.reads hps _ _⟩

/-- The first of several patterns reads what any of them reads. -/
theorem reads_firstOf {ps : List Pattern} {before u after : Text} :
    (firstOf ps).Reads before u after ↔ ∃ p ∈ ps, p.Reads before u after := by
  induction ps with
  | nil => simp [firstOf, Reads]
  | cons p ps ih =>
    cases ps with
    | nil => simp [firstOf]
    | cons q ps =>
      rw [firstOf, Reads, ih]
      simp

/-! ## Stretches that simple patterns spell -/

@[simp] theorem spells_chain_nil {u : Text} : (chain []).Spells u ↔ u = [] := Iff.rfl

@[simp] theorem spells_char {p : Char → Bool} {u : Text} :
    (char p).Spells u ↔ ∃ c, p c = true ∧ u = [c] := Iff.rfl

@[simp] theorem spells_just {c : Char} {u : Text} : (just c).Spells u ↔ u = [c] := by
  simp [just]

@[simp] theorem spells_many {p : Char → Bool} {u : Text} :
    (many p).Spells u ↔ ∀ c ∈ u, p c = true := Iff.rfl

@[simp] theorem spells_blanks {u : Text} : blanks.Spells u ↔ ∀ c ∈ u, isBlank c = true := Iff.rfl

@[simp] theorem spells_optional {p : Pattern} {u : Text} :
    (optional p).Spells u ↔ p.Spells u ∨ u = [] := Iff.rfl

theorem spells_many1 {p : Char → Bool} {u : Text} :
    (many1 p).Spells u ↔ u ≠ [] ∧ ∀ c ∈ u, p c = true := by
  rw [many1, spells_seq rfl rfl]
  constructor
  · rintro ⟨v, w, rfl, ⟨c, hc, rfl⟩, hw⟩
    exact ⟨by simp, by simpa [hc] using hw⟩
  · rintro ⟨hne, hu⟩
    obtain ⟨c, w, rfl⟩ := List.exists_cons_of_ne_nil hne
    exact ⟨[c], w, rfl, ⟨c, hu c (by simp), rfl⟩, fun d hd => hu d (by simp [hd])⟩

@[simp] theorem spells_few1 {u : Text} : few1.Spells u ↔ u ≠ [] := by
  rw [few1, spells_seq rfl rfl]
  constructor
  · rintro ⟨v, w, rfl, ⟨c, -, rfl⟩, -⟩
    simp
  · intro hne
    obtain ⟨c, w, rfl⟩ := List.exists_cons_of_ne_nil hne
    exact ⟨[c], w, rfl, ⟨c, rfl, rfl⟩, fun _ _ => rfl⟩

/-! ## Characters that a pattern never reads -/

/-- Whether the pattern reads no stretch with the character, as far as its shape shows. -/
def avoids (c : Char) : Pattern → Bool
  | .char p => !p c
  | .seq p q => p.avoids c && q.avoids c
  | .alt p q => p.avoids c && q.avoids c
  | .many p => !p c
  | .few p => !p c
  | .part _ p => p.avoids c
  | _ => true

theorem Reads.notMem {p : Pattern} {c : Char} (hp : p.avoids c = true) {before u after : Text}
    (h : p.Reads before u after) : c ∉ u := by
  induction p generalizing before u after with
  | empty =>
    have hu : u = [] := h
    simp [hu]
  | char p =>
    obtain ⟨d, hd, rfl⟩ := h
    rw [List.mem_singleton]
    rintro rfl
    simp [avoids, hd] at hp
  | textStart | textEnd =>
    have hu : u = [] := h.2
    simp [hu]
  | wordEdge =>
    have hu : u = [] := h.1
    simp [hu]
  | seq p q ihp ihq =>
    obtain ⟨hp, hq⟩ := (Bool.and_eq_true _ _).mp hp
    obtain ⟨v, w, rfl, hv, hw⟩ := h
    rw [List.mem_append]
    rintro (hmem | hmem)
    · exact ihp hp hv hmem
    · exact ihq hq hw hmem
  | alt p q ihp ihq =>
    obtain ⟨hp, hq⟩ := (Bool.and_eq_true _ _).mp hp
    rcases h with h | h
    · exact ihp hp h
    · exact ihq hq h
  | many p | few p =>
    intro hmem
    have hc := h c hmem
    simp [avoids, hc] at hp
  | part name p ih => exact ih hp h

/-! ## Patterns bound to the start of the text -/

/-- A pattern behind any first characters of the text. -/
theorem hasMatch_textStart_few1 {ps : List Pattern} {t : Text} :
    (chain (textStart :: few1 :: ps)).hasMatch t = true ↔
      ∃ x w y, t = x ++ w ++ y ∧ x ≠ [] ∧ (chain ps).Reads x.reverse w y := by
  rw [hasMatch_iff]
  constructor
  · rintro ⟨x, u, y, rfl, h⟩
    obtain ⟨v, u, rfl, ⟨hx, rfl⟩, h⟩ := reads_chain_cons.mp h
    obtain ⟨v, w, rfl, ⟨v₁, v₂, rfl, ⟨c, -, rfl⟩, -⟩, h⟩ := reads_chain_cons.mp h
    have hx : x = [] := List.reverse_eq_nil_iff.mp hx
    subst hx
    exact ⟨[c] ++ v₂, w, y, by simp, by simp, by simpa using h⟩
  · rintro ⟨x, w, y, rfl, hx, h⟩
    obtain ⟨c, x, rfl⟩ := List.exists_cons_of_ne_nil hx
    refine ⟨[], c :: x ++ w, y, by simp, ?_⟩
    refine reads_chain_cons.mpr ⟨[], c :: x ++ w, rfl, ⟨rfl, rfl⟩, ?_⟩
    refine reads_chain_cons.mpr ⟨c :: x, w, rfl, ?_, by simpa using h⟩
    exact ⟨[c], x, rfl, ⟨c, rfl, rfl⟩, fun _ _ => rfl⟩

end Pattern

end MutationPreview
