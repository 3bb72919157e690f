import MutationPreview.Proofs.Pattern.Parts
import MutationPreview.Proofs.Pattern.Spelling

/-!
# The preferred reading

What a pattern can read does not depend on the order of its readings, but the parts of its match
do. `many` stops at the farthest place from which the rest of the pattern can be read, `few` at the
nearest one.

Main statements: in the match of a pattern `word … <part> …` the part starts behind all blanks, if
it can, and is the shortest one from which the rest can be read (`Pattern.matchAt?_shortest`); and
every such match falls into these pieces (`Pattern.exists_of_matchAt?_shortest`).
-/

namespace MutationPreview

namespace Cursor

variable {β : Type} {p : Char → Bool} {k : Cursor → Option β} {before u rest : Text} {b : β}

/-- The answer at the farthest place is taken. -/
theorem farthest_of_maximal (hu : ∀ c ∈ u, p c = true) (hrest : rest.head?.any p = false)
    (hk : k ⟨u.reverse ++ before, rest⟩ = some b) : farthest p k before (u ++ rest) = some b := by
  induction u generalizing before with
  | nil =>
    cases rest with
    | nil => simpa [farthest] using hk
    | cons c rest =>
      have hc : p c = false := by simpa using hrest
      simpa [farthest, hc] using hk
  | cons c u ih =>
    have hc : p c = true := hu c (by simp)
    have hfar := @ih (c :: before) (fun d hd => hu d (by simp [hd])) (by simpa using hk)
    rw [List.cons_append, farthest, if_pos hc, hfar]

/-- The answer at the nearest place that has one is taken. -/
theorem nearest_of_first (hu : ∀ c ∈ u, p c = true)
    (hnone : ∀ v w, u = v ++ w → w ≠ [] → k ⟨v.reverse ++ before, w ++ rest⟩ = none)
    (hk : k ⟨u.reverse ++ before, rest⟩ = some b) : nearest p k before (u ++ rest) = some b := by
  induction u generalizing before with
  | nil =>
    cases rest with
    | nil => simpa [nearest] using hk
    | cons c rest =>
      have hk : k ⟨before, c :: rest⟩ = some b := hk
      rw [List.nil_append, nearest, hk]
  | cons c u ih =>
    have hhere : k ⟨before, c :: (u ++ rest)⟩ = none := hnone [] (c :: u) rfl (by simp)
    have hfar := @ih (c :: before) (fun d hd => hu d (by simp [hd]))
      (fun v w hsplit hw => by simpa using hnone (c :: v) w (by rw [hsplit]; rfl) hw)
      (by simpa using hk)
    rw [List.cons_append, nearest, hhere, if_pos (hu c (by simp))]
    exact hfar

end Cursor

namespace Pattern

variable {β : Type} {k : Reading → Option β} {parts : List Capture}

/-! ## Running a chain -/

theorem run_chain_cons (p : Pattern) (ps : List Pattern) (k : Reading → Option β) (r : Reading) :
    (chain (p :: ps)).run k r = p.run (fun s => (chain ps).run k s) r := by
  cases ps <;> rfl

theorem mem_readings_chain_cons {p : Pattern} {ps : List Pattern} {r s : Reading} :
    s ∈ (chain (p :: ps)).readings r ↔ ∃ t ∈ p.readings r, s ∈ (chain ps).readings t := by
  cases ps with
  | nil => simp [chain, readings]
  | cons q ps => exact List.mem_flatMap

theorem edgeFree_word (t : Text) : (word t).edgeFree = true := by
  induction t with
  | nil => rfl
  | cons x t ih => rw [word, List.map_cons, edgeFree_chain_cons, ← word, ih]; rfl

/-- A word is read in one way. -/
theorem run_word {t v : Text} (h : (word t).Spells v) (before rest : Text) :
    (word t).run k ⟨⟨before, v ++ rest⟩, parts⟩ = k ⟨⟨v.reverse ++ before, rest⟩, parts⟩ := by
  induction t generalizing v before with
  | nil =>
    have hv : v = [] := h
    simp [hv, word, chain, run]
  | cons x t ih =>
    obtain ⟨c, v, rfl, ⟨c, hc, rfl⟩, hv⟩ := reads_chain_cons.mp h
    have hedge : (word t).edgeFree = true := edgeFree_word t
    have hnext : (word (x :: t)).run k ⟨⟨before, c :: (v ++ rest)⟩, parts⟩ =
        (word t).run k ⟨⟨c :: before, v ++ rest⟩, parts⟩ := by
      rw [word, List.map_cons, run_chain_cons]
      simp [run, hc, word]
    rw [List.append_assoc, List.singleton_append, hnext, ih (hv.spells hedge)]
    simp

/-- All characters of a class are passed if the rest can be read behind them. -/
theorem run_many1 {p : Char → Bool} {u before rest : Text} {b : β} (hu : (many1 p).Spells u)
    (hrest : rest.head?.any p = false) (hk : k ⟨⟨u.reverse ++ before, rest⟩, parts⟩ = some b) :
    (many1 p).run k ⟨⟨before, u ++ rest⟩, parts⟩ = some b := by
  obtain ⟨hne, hall⟩ := spells_many1.mp hu
  obtain ⟨c, u, rfl⟩ := List.exists_cons_of_ne_nil hne
  have hfar : Cursor.farthest p (fun here => k ⟨here, parts⟩) (c :: before) (u ++ rest) = some b :=
    Cursor.farthest_of_maximal (fun d hd => hall d (by simp [hd])) hrest (by simpa using hk)
  simpa [many1, run, hall c] using hfar

/-- The shortest stretch is passed from which the rest can be read. -/
theorem run_few1 {u before rest : Text} {b : β} (hne : u ≠ [])
    (hnone : ∀ v w, u = v ++ w → v ≠ [] → w ≠ [] →
      k ⟨⟨v.reverse ++ before, w ++ rest⟩, parts⟩ = none)
    (hk : k ⟨⟨u.reverse ++ before, rest⟩, parts⟩ = some b) :
    few1.run k ⟨⟨before, u ++ rest⟩, parts⟩ = some b := by
  obtain ⟨c, u, rfl⟩ := List.exists_cons_of_ne_nil hne
  have hnear : Cursor.nearest (fun _ => true) (fun here => k ⟨here, parts⟩) (c :: before)
      (u ++ rest) = some b :=
    Cursor.nearest_of_first (fun _ _ => rfl)
      (fun v w hsplit hw => by simpa using hnone (c :: v) w (by rw [hsplit]; rfl) (by simp) hw)
      (by simpa using hk)
  simpa [few1, anyChar, run] using hnear

/-- A pattern has no answer exactly where it reads nothing, if every reading is answered. -/
theorem run_eq_none_iff {p : Pattern} (hk : ∀ r, (k r).isSome = true) {before after : Text} :
    p.run k ⟨⟨before, after⟩, parts⟩ = none ↔
      ∀ u rest, after = u ++ rest → ¬ p.Reads before u rest := by
  rw [run_eq, List.findSome?_eq_none_iff]
  constructor
  · rintro hnone u rest rfl hreads
    obtain ⟨s, hs, -⟩ := exists_reading hreads parts
    have hsome := hk s
    rw [hnone s hs] at hsome
    cases hsome
  · intro hnone s hs
    obtain ⟨u, hu, -, hreads⟩ := exists_stretch hs
    exact absurd hreads (hnone u s.here.after hu)

/-- Where a pattern can be read, some reading is answered. -/
theorem exists_run_eq_some {p : Pattern} {before w y : Text} (hreads : p.Reads before w y)
    (parts : List Capture) (start : Cursor) :
    ∃ s ∈ p.readings ⟨⟨before, w ++ y⟩, parts⟩,
      p.run (fun r => some (⟨start, r.here, r.parts⟩ : Match)) ⟨⟨before, w ++ y⟩, parts⟩ =
        some ⟨start, s.here, s.parts⟩ := by
  obtain ⟨m, hm⟩ : ∃ m, p.run (fun r => some (⟨start, r.here, r.parts⟩ : Match))
      ⟨⟨before, w ++ y⟩, parts⟩ = some m :=
    Option.ne_none_iff_exists'.mp fun hrun => (run_eq_none_iff fun _ => rfl).mp hrun w y rfl hreads
  have hfound := hm
  rw [run_eq] at hfound
  obtain ⟨s, hs, hsm⟩ := List.exists_of_findSome?_eq_some hfound
  exact ⟨s, hs, hm.trans hsm.symm⟩

theorem matchAt?_isSome_iff {p : Pattern} {before after : Text} :
    (p.matchAt? ⟨before, after⟩).isSome = true ↔
      ∃ u rest, after = u ++ rest ∧ p.Reads before u rest := by
  constructor
  · intro h
    obtain ⟨m, hm⟩ := Option.isSome_iff_exists.mp h
    obtain ⟨rest, hsplit, -, -, hreads⟩ := matchAt?_some hm
    exact ⟨m.text, rest, hsplit, hreads⟩
  · rintro ⟨u, rest, rfl, hreads⟩
    exact Option.isSome_iff_ne_none.mpr fun hnone => matchAt?_eq_none_iff.mp hnone u rest rfl hreads

/-- A search finds the match at the start of the text, if there is one. -/
theorem find?_of_matchAt? {p : Pattern} {t : Text} {m : Match} (h : p.matchAt? ⟨[], t⟩ = some m) :
    p.find? t = some m := by
  cases t with
  | nil => exact h
  | cons c t => rw [find?, findFrom?, h]

/-- A search finds the match at a place if there is none at an earlier one. -/
theorem findFrom?_of_first {p : Pattern} {before front rest : Text} {m : Match}
    (hnone : ∀ x c y, front = x ++ c :: y →
      p.matchAt? ⟨x.reverse ++ before, c :: (y ++ rest)⟩ = none)
    (h : p.matchAt? ⟨front.reverse ++ before, rest⟩ = some m) :
    p.findFrom? before (front ++ rest) = some m := by
  induction front generalizing before with
  | nil =>
    cases rest with
    | nil => exact h
    | cons c rest =>
      have h : p.matchAt? ⟨before, c :: rest⟩ = some m := h
      rw [List.nil_append, findFrom?, h]
  | cons c front ih =>
    have hhere : p.matchAt? ⟨before, c :: (front ++ rest)⟩ = none := hnone [] c front rfl
    rw [List.cons_append, findFrom?, hhere]
    refine ih (fun x d y hsplit => ?_) (by simpa using h)
    simpa using hnone (c :: x) d y (by rw [hsplit]; rfl)

/-- The match that is found stands at the start of the text exactly when there is one. -/
theorem matchAt?_start_iff {p : Pattern} {t : Text} {m : Match} (h : p.find? t = some m) :
    (p.matchAt? ⟨[], t⟩).isSome = true ↔ m.start.passed = [] := by
  constructor
  · intro hsome
    obtain ⟨m', hm'⟩ := Option.isSome_iff_exists.mp hsome
    obtain rfl := Option.some.inj ((find?_of_matchAt? hm').symm.trans h)
    obtain ⟨rest, -, hstart, -⟩ := matchAt?_some hm'
    rw [hstart]
    rfl
  · intro hpassed
    obtain ⟨x, y, rfl, hm, -⟩ := findFrom?_some h
    obtain ⟨rest, -, hstart, -⟩ := matchAt?_some hm
    have hx : x = [] := by simpa [hstart, Cursor.passed] using hpassed
    subst hx
    rw [List.reverse_nil, List.append_nil] at hm
    rw [List.nil_append, hm]
    rfl

/-! ## Parts -/

/-- A part of another name stays the one that is found. -/
theorem find?_parts {p : Pattern} {r s : Reading} (h : s ∈ p.readings r) {c : Capture}
    {others : List Capture} (hc : r.parts = c :: others) (hother : ∀ q, (c.name, q) ∉ p.partsIn) :
    s.parts.find? (fun d => d.name = c.name) = some c := by
  obtain ⟨new, hnew, hmem⟩ := exists_parts h
  have hnone : new.find? (fun d => d.name = c.name) = none := by
    rw [List.find?_eq_none]
    intro d hd hname
    obtain ⟨q, -, -, -, hq, -⟩ := hmem d hd
    have hname : d.name = c.name := by simpa using hname
    rw [hname] at hq
    exact hother q hq
  rw [hnew, hc, List.find?_append, hnone]
  simp

/-! ## A run at the end -/

/-- Whether the preferred reading of a pattern never stops before a character of a class. -/
def EndsGreedy (p : Pattern) (q : Char → Bool) : Prop :=
  ∀ r s, (p.readings r).head? = some s → s.here.after.head?.any q = false

/-- The farthest place lies before a character of another class. -/
theorem head?_of_getLast?_advances {q : Char → Bool} {before after : Text} {here : Cursor}
    (h : (Cursor.advances q before after).getLast? = some here) :
    here.after.head?.any q = false := by
  induction after generalizing before with
  | nil =>
    obtain rfl : (⟨before, []⟩ : Cursor) = here := by simpa [Cursor.advances] using h
    rfl
  | cons c rest ih =>
    rw [Cursor.advances] at h
    by_cases hc : q c = true
    · have hne : Cursor.advances q (c :: before) rest ≠ [] := by cases rest <;> simp [Cursor.advances]
      obtain ⟨next, others, hcons⟩ := List.exists_cons_of_ne_nil hne
      rw [if_pos hc, hcons, List.getLast?_cons_cons, ← hcons] at h
      exact ih h
    · obtain rfl : (⟨before, c :: rest⟩ : Cursor) = here := by simpa [hc] using h
      simpa using hc

theorem endsGreedy_many (q : Char → Bool) : (many q).EndsGreedy q := by
  intro r s h
  rw [readings, List.head?_map, List.head?_reverse, Option.map_eq_some_iff] at h
  obtain ⟨here, hhere, rfl⟩ := h
  exact head?_of_getLast?_advances hhere

theorem EndsGreedy.seq {p p' : Pattern} {q : Char → Bool} (h : p'.EndsGreedy q) :
    (seq p p').EndsGreedy q := by
  intro r s hs
  rw [readings, List.head?_flatMap] at hs
  obtain ⟨t, -, hs⟩ := List.exists_of_findSome?_eq_some hs
  exact h t s hs

/-- What follows a match that ends with a run of characters does not go on with the run. -/
theorem EndsGreedy.head?_of_matchAt? {p : Pattern} {q : Char → Bool} (h : p.EndsGreedy q)
    {before rest : Text} {m : Match} (hm : p.matchAt? ⟨before, m.text ++ rest⟩ = some m) :
    rest.head?.any q = false := by
  obtain ⟨rest', hsplit, -, hstop, -⟩ := matchAt?_some hm
  obtain rfl := List.append_cancel_left hsplit
  rw [matchAt?_eq, Option.map_eq_some_iff] at hm
  obtain ⟨r, hr, hrm⟩ := hm
  have hhere : r.here.after = rest := by
    rw [← hrm] at hstop
    exact congrArg Cursor.after hstop
  rw [← hhere]
  exact h _ r hr

/-! ## A shortest part behind a word -/

section Shortest

variable {t before v gap u rest : Text} {name : Part} {ps : List Pattern}

/-- The pieces of a match that starts with a word and a part of any length behind it. -/
theorem exists_of_matchAt?_shortest (hother : ∀ q, (name, q) ∉ (chain ps).partsIn) {after : Text}
    {m : Match}
    (h : (chain (wordEdge :: word t :: blanks1 :: part name few1 :: ps)).matchAt? ⟨before, after⟩ =
      some m) :
    ∃ v gap u w y c, after = v ++ (gap ++ (u ++ (w ++ y))) ∧ (word t).Spells v ∧
      blanks1.Spells gap ∧ u ≠ [] ∧
      (chain ps).Reads (u.reverse ++ (gap.reverse ++ (v.reverse ++ before))) w y ∧
      m.part? name = some c ∧ c.text = u := by
  obtain ⟨r, hr, rfl⟩ := matchAt?_reading h
  obtain ⟨r₁, h₁, hr⟩ := mem_readings_chain_cons.mp hr
  obtain ⟨r₂, h₂, hr⟩ := mem_readings_chain_cons.mp hr
  obtain ⟨r₃, h₃, hr⟩ := mem_readings_chain_cons.mp hr
  obtain ⟨s, hs, hr⟩ := mem_readings_chain_cons.mp hr
  obtain ⟨r₄, h₄, rfl⟩ := List.mem_map.mp hs
  obtain ⟨e, he, heb, ⟨rfl, -⟩⟩ := exists_stretch h₁
  obtain ⟨v, hv, hvb, hreadv⟩ := exists_stretch h₂
  obtain ⟨gap, hgap, hgapb, hreadgap⟩ := exists_stretch h₃
  obtain ⟨u, hu, hub, hreadu⟩ := exists_stretch (p := few1) h₄
  obtain ⟨w, hw, hwb, hreadw⟩ := exists_stretch hr
  simp only at he heb hv hvb hgap hgapb hu hub hw hwb hreadw
  refine ⟨v, gap, u, w, r.here.after, ⟨name, r₃.here, r₄.here⟩, ?_, hreadv.spells (edgeFree_word t),
    hreadgap.spells (by decide), spells_few1.mp (hreadu.spells (by decide)), ?_, ?_, ?_⟩
  · rw [he, List.nil_append, hv, hgap, hu, hw]
  · rw [hub, hgapb, hvb, heb] at hreadw
    exact hreadw
  · exact find?_parts (c := ⟨name, r₃.here, r₄.here⟩) hr rfl hother
  · simp [Capture.text, Cursor.upTo, hu]

/-- The match starts its part behind all blanks, and ends it as soon as the rest can be read. -/
theorem matchAt?_shortest (hedge : Cursor.atWordEdge ⟨before, v ++ (gap ++ (u ++ rest))⟩ = true)
    (hv : (word t).Spells v) (hgap : blanks1.Spells gap) (hu : u ≠ [])
    (hstart : (u ++ rest).head?.any isBlank = false) (hother : ∀ q, (name, q) ∉ (chain ps).partsIn)
    (hnone : ∀ a b, u = a ++ b → a ≠ [] → b ≠ [] → ∀ w y, b ++ rest = w ++ y →
      ¬ (chain ps).Reads (a.reverse ++ (gap.reverse ++ (v.reverse ++ before))) w y)
    (hreads : ∃ w y, rest = w ++ y ∧
      (chain ps).Reads (u.reverse ++ (gap.reverse ++ (v.reverse ++ before))) w y) :
    ∃ m c, (chain (wordEdge :: word t :: blanks1 :: part name few1 :: ps)).matchAt?
        ⟨before, v ++ (gap ++ (u ++ rest))⟩ = some m ∧
      m.part? name = some c ∧ c.text = u := by
  obtain ⟨w, y, rfl, hreads⟩ := hreads
  obtain ⟨s, hs, hm⟩ := exists_run_eq_some hreads
    [⟨name, ⟨gap.reverse ++ (v.reverse ++ before), u ++ (w ++ y)⟩,
      ⟨u.reverse ++ (gap.reverse ++ (v.reverse ++ before)), w ++ y⟩⟩]
    ⟨before, v ++ (gap ++ (u ++ (w ++ y)))⟩
  have hrun : (chain (wordEdge :: word t :: blanks1 :: part name few1 :: ps)).matchAt?
      ⟨before, v ++ (gap ++ (u ++ (w ++ y)))⟩ =
        some ⟨⟨before, v ++ (gap ++ (u ++ (w ++ y)))⟩, s.here, s.parts⟩ := by
    rw [matchAt?, run_chain_cons, run, if_pos hedge, run_chain_cons, run_word hv, run_chain_cons]
    refine run_many1 hgap hstart ?_
    rw [run_chain_cons, run]
    refine run_few1 hu (fun a b hsplit ha hb => ?_) hm
    exact (run_eq_none_iff fun _ => rfl).mpr (hnone a b hsplit ha hb)
  exact ⟨_, _, hrun, find?_parts hs rfl hother, by simp [Capture.text, Cursor.upTo]⟩

end Shortest

/-! ## A part in the middle of a chain -/

section Middle

variable {ps qs : List Pattern} {q : Pattern} {name : Part}

theorem mem_readings_chain_append {r s : Reading} :
    s ∈ (chain (ps ++ qs)).readings r ↔
      ∃ t ∈ (chain ps).readings r, s ∈ (chain qs).readings t := by
  induction ps generalizing r with
  | nil => simp [chain, readings]
  | cons p ps ih =>
    simp only [List.cons_append, mem_readings_chain_cons, ih]
    constructor
    · rintro ⟨t, ht, u, hu, hs⟩
      exact ⟨u, ⟨t, ht, hu⟩, hs⟩
    · rintro ⟨u, ⟨t, ht, hu⟩, hs⟩
      exact ⟨t, ht, u, hu, hs⟩

/-- The pieces of a match before, in and behind a part of it. -/
theorem exists_part_of_matchAt? {before after : Text} {m : Match}
    (h : (chain (ps ++ part name q :: qs)).matchAt? ⟨before, after⟩ = some m)
    (hother : ∀ q', (name, q') ∉ (chain qs).partsIn) :
    ∃ v u w rest, after = v ++ (u ++ (w ++ rest)) ∧ m.text = v ++ (u ++ w) ∧
      (chain ps).Reads before v (u ++ (w ++ rest)) ∧
      q.Reads (v.reverse ++ before) u (w ++ rest) ∧
      (chain qs).Reads (u.reverse ++ (v.reverse ++ before)) w rest ∧
      ∃ c, m.part? name = some c ∧ c.text = u := by
  obtain ⟨r, hr, rfl⟩ := matchAt?_reading h
  obtain ⟨r₁, h₁, hr⟩ := mem_readings_chain_append.mp hr
  obtain ⟨s, hs, hr⟩ := mem_readings_chain_cons.mp hr
  obtain ⟨r₂, h₂, rfl⟩ := List.mem_map.mp hs
  obtain ⟨v, hv, hvb, hreadv⟩ := exists_stretch h₁
  obtain ⟨u, hu, hub, hreadu⟩ := exists_stretch h₂
  obtain ⟨w, hw, -, hreadw⟩ := exists_stretch hr
  simp only at hv hvb hreadv hw hreadw
  rw [hw] at hu hreadu
  rw [hu] at hv hreadv
  rw [hvb] at hub hreadu
  rw [hub] at hreadw
  refine ⟨v, u, w, r.here.after, hv, ?_, hreadv, hreadu, hreadw, ⟨name, r₁.here, r₂.here⟩, ?_, ?_⟩
  · have hcut : after = v ++ (u ++ w) ++ r.here.after := by simp [hv]
    simp only [Match.text, Cursor.upTo]
    rw [hcut, List.length_append, Nat.add_sub_cancel, List.take_left]
  · exact find?_parts (c := ⟨name, r₁.here, r₂.here⟩) hr rfl hother
  · simp [Capture.text, Cursor.upTo, hu, hw]

end Middle

end Pattern

end MutationPreview
