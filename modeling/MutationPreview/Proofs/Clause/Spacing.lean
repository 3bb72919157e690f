import MutationPreview.Proofs.Clause.Connective

/-!
# Where a text is cut at its connectives

A boundary takes along the blank behind its connective, and the next boundary needs a blank of its
own. So a connective is passed over if a blank is missing on one side of it, or if the only blank
before it belongs to the connective before.

Main statement: no piece of a text holds a connective as a word on its own exactly when the
connectives of the text are spaced (`split_no_connective_iff`).
-/

namespace MutationPreview

open Pattern

/-- Whether every connective of a text, as a word on its own, has a blank behind it, and starts the
text or has a blank before it that does not follow another connective directly. -/
def IsSpaced (t : Text) : Prop :=
  ∀ x k y, t = x ++ k ++ y → connectiveWord.Reads x.reverse k y →
    (∃ b rest, y = b :: rest ∧ isBlank b = true) ∧
      (x = [] ∨ ∃ x' d, x = x' ++ [d] ∧ isBlank d = true ∧
        ¬ ∃ x'' k', x' = x'' ++ k' ∧ connectiveWord.Reads x''.reverse k' (d :: (k ++ y)))

/-! ## The pieces and what stands around them -/

/-- A piece of a text that stands between `before` and `rest`: there is no boundary at any of its
places, and if the text goes on there is one behind it. -/
structure IsPiece (before piece rest : Text) : Prop where
  none : ∀ u v, piece = u ++ v → v ≠ [] →
    Grammar.boundary.matchAt? ⟨u.reverse ++ before, v ++ rest⟩ = .none
  stop : rest = [] ∨ ∃ m rest', rest = m ++ rest' ∧
    Grammar.boundary.Reads (piece.reverse ++ before) m rest'

theorem isPiece_nil {before m rest : Text} (h : Grammar.boundary.Reads before m rest) :
    IsPiece before [] (m ++ rest) := by
  refine ⟨?_, Or.inr ⟨m, rest, rfl, by simpa using h⟩⟩
  intro u v huv hv
  exact absurd (List.append_eq_nil_iff.mp huv.symm).2 hv

theorem firstGap_isPiece {before after : Text} {segs : List (Segment Match)}
    (h : Grammar.boundary.Segmented before after segs) :
    ∃ rest, after = Segment.firstGap segs ++ rest ∧ IsPiece before (Segment.firstGap segs) rest := by
  induction h with
  | done _ =>
    refine ⟨[], rfl, ?_, Or.inl rfl⟩
    intro u v huv hv
    exact absurd (List.append_eq_nil_iff.mp huv.symm).2 hv
  | @plain before rest c segs hnone _ ih =>
    obtain ⟨tail, rfl, hpiece⟩ := ih
    refine ⟨tail, rfl, ?_, ?_⟩
    · intro u v huv hv
      cases u with
      | nil =>
        rw [List.nil_append] at huv
        rw [← huv]
        exact hnone
      | cons d u =>
        simp only [Segment.firstGap, List.cons_append, List.cons.injEq] at huv
        obtain ⟨rfl, huv⟩ := huv
        have hrest := hpiece.none u v huv hv
        simpa using hrest
    · rcases hpiece.stop with hnil | ⟨m, rest', hm, hreads⟩
      · exact Or.inl hnil
      · exact Or.inr ⟨m, rest', hm, by simpa [Segment.firstGap] using hreads⟩
  | @span before rest m segs hsome _ _ _ =>
    obtain ⟨rest', hsplit, -, -, hreads⟩ := matchAt?_some hsome
    rw [List.append_cancel_left hsplit]
    exact ⟨_, rfl, isPiece_nil hreads⟩

theorem laterGaps_isPiece {before after : Text} {segs : List (Segment Match)}
    (h : Grammar.boundary.Segmented before after segs) {g : Text}
    (hg : g ∈ Segment.laterGaps segs) :
    ∃ x m rest, after = x ++ m ++ g ++ rest ∧
      Grammar.boundary.Reads (x.reverse ++ before) m (g ++ rest) ∧
      IsPiece (m.reverse ++ (x.reverse ++ before)) g rest := by
  induction h with
  | done _ => simp [Segment.laterGaps] at hg
  | @plain before rest c segs _ _ ih =>
    obtain ⟨x, m, tail, rfl, hreads, hpiece⟩ := ih hg
    exact ⟨c :: x, m, tail, rfl, by simpa using hreads, by simpa using hpiece⟩
  | @span before rest m segs hsome _ hrest ih =>
    rcases List.mem_cons.mp hg with rfl | hg
    · obtain ⟨tail, htail, hpiece⟩ := firstGap_isPiece hrest
      obtain ⟨rest', hsplit, -, -, hreads⟩ := matchAt?_some hsome
      rw [← List.append_cancel_left hsplit, htail] at hreads
      exact ⟨[], m.text, tail, by rw [htail]; simp, hreads, hpiece⟩
    · obtain ⟨x, m', tail, rfl, hreads, hpiece⟩ := ih hg
      refine ⟨m.text ++ x, m', tail, by simp, by simpa using hreads, by simpa using hpiece⟩

/-! ## Spaced connectives are cut at -/

theorem any_head?_append {p : Char → Bool} {a b : Text} (ha : a.head?.any p = false)
    (hb : a = [] → b.head?.any p = false) : (a ++ b).head?.any p = false := by
  cases a with
  | nil => exact hb rfl
  | cons c a => simpa using ha

/-- Behind a boundary no word goes on. -/
theorem boundary_ends {before m rest x : Text} (h : Grammar.boundary.Reads before m rest) :
    (m.reverse ++ x).head?.any isWord = false := by
  obtain ⟨e, k, b, rfl, -, -, hb⟩ := reads_boundary_iff.mp h
  simpa using isWord_of_isBlank hb

/-- Before a boundary inside a text no word goes on. -/
theorem boundary_starts {before m rest x : Text} (h : Grammar.boundary.Reads before m rest)
    (hbefore : before ≠ []) : (m ++ x).head?.any isWord = false := by
  obtain ⟨e, k, b, rfl, he, -, -⟩ := reads_boundary_iff.mp h
  rcases he with ⟨hnil, -⟩ | ⟨d, hd, rfl⟩
  · exact absurd hnil hbefore
  · simpa using isWord_of_isBlank hd

/-- The connective of a boundary is a word on its own. -/
theorem boundary_connective {before e k rest : Text} {b : Char}
    (he : before = [] ∧ e = [] ∨ ∃ d, isBlank d = true ∧ e = [d]) (hk : connective.Spells k)
    (hb : isBlank b = true) : connectiveWord.Reads (e.reverse ++ before) k (b :: rest) := by
  refine reads_connectiveWord_iff.mpr ⟨hk, ?_, by simpa using isWord_of_isBlank hb⟩
  rcases he with ⟨rfl, rfl⟩ | ⟨d, hd, rfl⟩
  · rfl
  · simpa using isWord_of_isBlank hd

/-- A piece of a spaced text holds no connective: where it stood, there would be a boundary. -/
theorem IsPiece.no_connective {x g rest : Text} (hpiece : IsPiece x.reverse g rest)
    (hleft : x = [] ∨ ∃ x' m, x = x' ++ m ∧ Grammar.boundary.Reads x'.reverse m (g ++ rest))
    (hspaced : IsSpaced (x ++ g ++ rest)) : connectiveWord.hasMatch g = false := by
  rw [Bool.eq_false_iff]
  intro hmatch
  obtain ⟨a, k, c, rfl, hreads⟩ := hasMatch_iff.mp hmatch
  obtain ⟨hk, ha, hc⟩ := reads_connectiveWord_iff.mp hreads
  have hkne := connective_ne_nil hk
  -- it is a word on its own in the whole text too
  have hwhole : connectiveWord.Reads (x ++ a).reverse k (c ++ rest) := by
    refine reads_connectiveWord_iff.mpr ⟨hk, ?_, ?_⟩
    · rw [List.reverse_append]
      refine any_head?_append ha fun _ => ?_
      rcases hleft with rfl | ⟨x', m, rfl, hm⟩
      · rfl
      · rw [List.reverse_append]
        exact boundary_ends hm
    · refine any_head?_append hc fun _ => ?_
      rcases hpiece.stop with rfl | ⟨m, rest', rfl, hm⟩
      · rfl
      · exact boundary_starts hm (by simp [hkne])
  obtain ⟨⟨b, tail, htail, hb⟩, hbefore⟩ := hspaced (x ++ a) k (c ++ rest) (by simp) hwhole
  rcases hbefore with hnil | ⟨x', d, hx', hd, hno⟩
  · -- at the start of the text
    obtain ⟨rfl, rfl⟩ := List.append_eq_nil_iff.mp hnil
    have hnone := hpiece.none [] (k ++ c) (by simp) (by simp [hkne])
    refine matchAt?_eq_none_iff.mp hnone (k ++ [b]) tail (by simp [htail]) ?_
    exact reads_boundary_iff.mpr ⟨[], k, b, rfl, Or.inl ⟨rfl, rfl⟩, hk, hb⟩
  · rcases List.eq_nil_or_concat a with rfl | ⟨a', d', ha'⟩
    · -- behind a boundary, whose connective would be too close
      rcases hleft with rfl | ⟨x₁, m, rfl, hm⟩
      · simp at hx'
      · obtain ⟨e, k', b', rfl, he, hk', hb'⟩ := reads_boundary_iff.mp hm
        rw [List.append_nil, ← List.append_assoc] at hx'
        obtain ⟨hx', hbd⟩ := List.append_inj' hx' rfl
        have hbd : b' = d := by simpa using hbd
        refine hno ⟨x₁ ++ e, k', by rw [← hx']; simp, ?_⟩
        rw [List.reverse_append, ← hbd]
        exact boundary_connective he hk' hb'
    · -- behind a blank of the piece
      rw [List.concat_eq_append] at ha'
      subst ha'
      rw [← List.append_assoc] at hx'
      have hdd : d' = d := by simpa using List.append_inj_right' hx' rfl
      have hnone := hpiece.none a' (d :: (k ++ c)) (by simp [hdd]) (by simp)
      refine matchAt?_eq_none_iff.mp hnone ([d] ++ k ++ [b]) tail (by simp [htail]) ?_
      exact reads_boundary_iff.mpr ⟨[d], k, b, rfl, Or.inr ⟨d, hd, rfl⟩, hk, hb⟩

/-! ## Where a connective stands -/

/-- A stretch without blanks that starts inside a piece lies in that piece. -/
theorem firstGap_prefix {before after : Text} {segs : List (Segment Match)}
    (h : Grammar.boundary.Segmented before after segs) (hbefore : before ≠ []) {w y : Text}
    (hw : ∀ c ∈ w, isBlank c = false) (hsplit : after = w ++ y) :
    ∃ y', Segment.firstGap segs = w ++ y' := by
  induction h generalizing w with
  | done _ =>
    obtain ⟨rfl, -⟩ := List.append_eq_nil_iff.mp hsplit.symm
    exact ⟨[], rfl⟩
  | @plain before rest c segs _ _ ih =>
    cases w with
    | nil => exact ⟨_, rfl⟩
    | cons d w =>
      simp only [List.cons_append, List.cons.injEq] at hsplit
      obtain ⟨rfl, hsplit⟩ := hsplit
      obtain ⟨y', hy'⟩ := ih (by simp) (fun c hc => hw c (by simp [hc])) hsplit
      exact ⟨y', by simp [Segment.firstGap, hy']⟩
  | @span before rest m segs hsome _ _ _ =>
    cases w with
    | nil => exact ⟨_, rfl⟩
    | cons d w =>
      -- the boundary starts with a blank
      obtain ⟨rest', -, -, -, hreads⟩ := matchAt?_some hsome
      obtain ⟨e, k, b, hm, he, -, -⟩ := reads_boundary_iff.mp hreads
      rcases he with ⟨hnil, -⟩ | ⟨d', hd', rfl⟩
      · exact absurd hnil hbefore
      · rw [hm] at hsplit
        simp only [List.cons_append, List.nil_append, List.cons.injEq] at hsplit
        have hd := hw d (by simp)
        rw [← hsplit.1, hd'] at hd
        simp at hd

/-- A connective that starts in a boundary is the connective of that boundary. -/
theorem connective_in_boundary {before m rest x k v : Text}
    (hm : Grammar.boundary.Reads before m rest) (hsplit : m = x ++ k ++ v) (hv : v ≠ [])
    (hword : connectiveWord.Reads (x.reverse ++ before) k (v ++ rest)) :
    ∃ b, v = [b] ∧ isBlank b = true ∧
      (x = [] ∧ before = [] ∨ ∃ d, isBlank d = true ∧ x = [d]) := by
  obtain ⟨e, k', b, rfl, he, hk', hb⟩ := reads_boundary_iff.mp hm
  obtain ⟨hk, hkleft, hkright⟩ := reads_connectiveWord_iff.mp hword
  obtain ⟨c, k, rfl⟩ := List.exists_cons_of_ne_nil (connective_ne_nil hk)
  -- its first letter is none of the blanks
  have hex : ∃ x₂, x = e ++ x₂ := by
    rcases he with ⟨-, rfl⟩ | ⟨d, hd, rfl⟩
    · exact ⟨x, rfl⟩
    · cases x with
      | nil =>
        simp only [List.nil_append, List.cons_append, List.cons.injEq] at hsplit
        have hc := isBlank_of_mem_connective hk (c := c) (by simp)
        rw [← hsplit.1, hd] at hc
        simp at hc
      | cons d' x =>
        simp only [List.nil_append, List.cons_append, List.cons.injEq] at hsplit
        exact ⟨x, by rw [hsplit.1]; rfl⟩
  obtain ⟨x₂, rfl⟩ := hex
  rcases List.eq_nil_or_concat v with hnil | ⟨v₂, b', hv'⟩
  · exact absurd hnil hv
  rw [List.concat_eq_append] at hv'
  subst hv'
  have hcut : e ++ k' ++ [b] = e ++ (x₂ ++ c :: k ++ v₂) ++ [b'] := by
    rw [hsplit]
    simp
  obtain ⟨hcut, hbb⟩ := List.append_inj' hcut rfl
  have hcut : k' = x₂ ++ c :: k ++ v₂ := List.append_cancel_left hcut
  have hbb : b = b' := by simpa using hbb
  -- letters of the boundary's connective beside it would be word characters
  have hx₂ : x₂ = [] := by
    rcases List.eq_nil_or_concat x₂ with hnil | ⟨x₃, d, hx₂⟩
    · exact hnil
    · have hd := isWord_of_mem_connective hk' (c := d) (by simp [hcut, hx₂])
      simp [hx₂, hd] at hkleft
  have hv₂ : v₂ = [] := by
    cases v₂ with
    | nil => rfl
    | cons d v₂ =>
      have hd := isWord_of_mem_connective hk' (c := d) (by simp [hcut])
      simp [hd] at hkright
  refine ⟨b, by rw [hv₂, hbb]; rfl, hb, ?_⟩
  rw [hx₂, List.append_nil]
  rcases he with ⟨hnil, rfl⟩ | hd
  · exact Or.inl ⟨rfl, hnil⟩
  · exact Or.inr hd

/-- A connective that starts in a boundary ends right before its last blank. -/
theorem connective_at_boundary {before m rest x k y z : Text}
    (hm : Grammar.boundary.Reads before m rest) (hsplit : m = x ++ z) (hz : z ≠ [])
    (hky : k ++ y = z ++ rest) (hword : connectiveWord.Reads (x.reverse ++ before) k y) :
    ∃ b, m = x ++ k ++ [b] ∧ isBlank b = true ∧
      (x = [] ∧ before = [] ∨ ∃ d, isBlank d = true ∧ x = [d]) ∧ y = b :: rest := by
  obtain ⟨e, k', b, hmb, -, -, hb⟩ := reads_boundary_iff.mp hm
  obtain ⟨z, b', rfl⟩ : ∃ z' b', z = z' ++ [b'] := ⟨_, _, (List.dropLast_concat_getLast hz).symm⟩
  obtain rfl : b = b' := by
    rw [hmb, ← List.append_assoc] at hsplit
    simpa using List.append_inj_right' hsplit rfl
  have hnone : b ∉ k := by
    intro hmem
    rw [isBlank_of_mem_connective (reads_connectiveWord_iff.mp hword).1 hmem] at hb
    cases hb
  obtain ⟨v, rfl, rfl⟩ := Segment.prefix_of_notMem hnone (by simpa using hky)
  obtain ⟨b', hv, hb', he⟩ := connective_in_boundary (x := x) (k := k) (v := v ++ [b]) hm
    (by simp [hsplit]) (by simp) (by simpa using hword)
  obtain rfl : v = [] := by simpa using congrArg List.length hv
  exact ⟨b, by simp [hsplit], hb, he, rfl⟩

/-- A connective lies in a piece of the text or is the connective of a boundary. -/
theorem connective_cases {before after : Text} {segs : List (Segment Match)}
    (h : Grammar.boundary.Segmented before after segs) {x k y : Text} (hsplit : after = x ++ k ++ y)
    (hk : connectiveWord.Reads (x.reverse ++ before) k y) :
    (∃ y', Segment.firstGap segs = x ++ k ++ y' ∧ y' <+: y) ∨
      (∃ g ∈ Segment.laterGaps segs, ∃ x' y', g = x' ++ k ++ y' ∧ x' <:+ x ∧ y' <+: y) ∨
      ∃ A m B e b, segs = A ++ .span m :: B ∧ m.text = e ++ k ++ [b] ∧ isBlank b = true ∧
        (x = [] ∧ before = [] ∨ ∃ d, isBlank d = true ∧ e = [d]) ∧
        x = Segment.join Match.text A ++ e ∧ y = b :: Segment.join Match.text B := by
  have hkne := connective_ne_nil (reads_connectiveWord_iff.mp hk).1
  have hkblank : ∀ c ∈ k, isBlank c = false :=
    fun c hc => isBlank_of_mem_connective (reads_connectiveWord_iff.mp hk).1 hc
  induction h generalizing x with
  | done _ => simp [hkne] at hsplit
  | @plain before rest c segs _ hrest ih =>
    cases x with
    | nil =>
      -- a boundary starts with a blank or with the text, so none starts inside the connective
      obtain ⟨d, w, rfl⟩ := List.exists_cons_of_ne_nil hkne
      simp only [List.nil_append, List.cons_append, List.cons.injEq] at hsplit
      obtain ⟨rfl, hsplit⟩ := hsplit
      obtain ⟨y', hy'⟩ := firstGap_prefix hrest (by simp) (fun c hc => hkblank c (by simp [hc])) hsplit
      refine Or.inl ⟨y', by simp [Segment.firstGap, hy'], ?_⟩
      have hpre := Segment.firstGap_prefix_join Match.text segs
      rw [hrest.join_eq, hy', hsplit] at hpre
      exact (List.prefix_append_right_inj w).mp hpre
    | cons d x =>
      simp only [List.cons_append, List.cons.injEq] at hsplit
      obtain ⟨rfl, hsplit⟩ := hsplit
      rcases ih hsplit (by simpa using hk) with ⟨y', hy', hpre⟩ | ⟨g, hg, x', y', hgap, hx', hpre⟩ |
        ⟨A, m, B, e, b, rfl, hm, hb, he, hx, hy⟩
      · exact Or.inl ⟨y', by simp [Segment.firstGap, hy'], hpre⟩
      · exact Or.inr (Or.inl ⟨g, hg, x', y', hgap, hx'.trans (List.suffix_cons _ _), hpre⟩)
      · refine Or.inr (Or.inr ⟨.plain c :: A, m, B, e, b, rfl, hm, hb, ?_, by simp [hx], hy⟩)
        exact Or.inr (he.resolve_left (by simp))
  | @span before rest m segs hsome hne hrest ih =>
    have hreads := reads_of_matchAt? hsome
    rw [List.append_assoc] at hsplit
    rcases Text.append_cases hsplit with ⟨x', rfl, hbehind⟩ | ⟨c, z, hm, hky⟩
    · rcases ih (by rw [hbehind, List.append_assoc]) (by simpa using hk) with ⟨y', hy', hpre⟩ |
        ⟨g, hg, x'', y', hgap, hx'', hpre⟩ | ⟨A, m', B, e, b, rfl, hm', hb, he, hx, hy⟩
      · exact Or.inr (Or.inl ⟨_, List.mem_cons_self, x', y', hy', List.suffix_append _ _, hpre⟩)
      · exact Or.inr (Or.inl ⟨g, List.mem_cons_of_mem _ hg, x'', y', hgap,
          hx''.trans (List.suffix_append _ _), hpre⟩)
      · refine Or.inr (Or.inr ⟨.span m :: A, m', B, e, b, rfl, hm', hb, ?_, by simp [hx], hy⟩)
        exact Or.inr (he.resolve_left (by simp [hne]))
    · obtain ⟨b, hmk, hb, he, hy⟩ := connective_at_boundary hreads hm (by simp) hky hk
      exact Or.inr (Or.inr ⟨[], m, segs, x, b, rfl, hmk, hb, he, rfl, by rw [hy, hrest.join_eq]⟩)

/-- What lies in a piece as a word on its own there is one in the piece alone. -/
theorem hasMatch_of_piece {x k y x' y' : Text} (hk : connectiveWord.Reads x.reverse k y)
    (hx : x' <:+ x) (hy : y' <+: y) : connectiveWord.hasMatch (x' ++ k ++ y') = true := by
  obtain ⟨hspells, hleft, hright⟩ := reads_connectiveWord_iff.mp hk
  refine hasMatch_iff.mpr ⟨x', k, y', rfl, reads_connectiveWord_iff.mpr ⟨hspells, ?_, ?_⟩⟩
  · obtain ⟨w, rfl⟩ := hx
    cases hx' : x'.reverse with
    | nil => rfl
    | cons c u => simpa [hx'] using hleft
  · obtain ⟨w, rfl⟩ := hy
    cases y' with
    | nil => rfl
    | cons c u => simpa using hright

/-- Two boundaries do not share a blank. -/
theorem boundary_apart {segs A A' B B' : List (Segment Match)} {m m' : Match} {d : Char}
    (hsegs : segs = A ++ .span m :: B) (hsegs' : segs = A' ++ .span m' :: B')
    (hm : 1 < m.text.length) (hm' : 1 < m'.text.length)
    (h : Segment.join Match.text A' ++ m'.text = Segment.join Match.text A ++ [d]) : False := by
  have hlen := congrArg List.length h
  simp only [List.length_append, List.length_singleton] at hlen
  rw [hsegs] at hsegs'
  rcases List.append_eq_append_iff.mp hsegs' with ⟨C, rfl, hC⟩ | ⟨C, rfl, hC⟩
  · cases C with
    | nil =>
      rw [List.append_nil] at hlen
      omega
    | cons s C =>
      simp only [List.cons_append, List.cons.injEq] at hC
      rw [← hC.1, Segment.join_append, Segment.join_span, List.length_append,
        List.length_append] at hlen
      omega
  · cases C with
    | nil =>
      rw [List.append_nil] at hlen
      omega
    | cons s C =>
      simp only [List.cons_append, List.cons.injEq] at hC
      rw [← hC.1, Segment.join_append, Segment.join_span, List.length_append,
        List.length_append] at hlen
      omega

/-- A connective with a blank behind it is longer than one character. -/
theorem one_lt_length_boundary {e k : Text} {b : Char} (hk : connective.Spells k) :
    1 < (e ++ k ++ [b]).length := by
  have hpos := List.length_pos_iff.mpr (connective_ne_nil hk)
  simp only [List.length_append, List.length_singleton]
  omega

/-- If no piece of a text holds a connective, every connective of the text is that of a boundary. -/
theorem boundary_of_connective {t x k y : Text}
    (hnone : ∀ g ∈ Grammar.boundary.split t, connectiveWord.hasMatch g = false)
    (ht : t = x ++ k ++ y) (hk : connectiveWord.Reads x.reverse k y) :
    ∃ A m B e b, Grammar.boundary.segments t = A ++ .span m :: B ∧ m.text = e ++ k ++ [b] ∧
      isBlank b = true ∧ (x = [] ∨ ∃ d, isBlank d = true ∧ e = [d]) ∧
      x = Segment.join Match.text A ++ e ∧ y = b :: Segment.join Match.text B := by
  rw [Pattern.split, Segment.gaps_eq] at hnone
  rcases connective_cases (segmented_segments consumes_boundary t) ht (by simpa using hk) with
    ⟨y', hgap, hpre⟩ | ⟨g, hg, x', y', rfl, hx', hpre⟩ | ⟨A, m, B, e, b, hsegs, hm, hb, he, hx, hy⟩
  · have hmatch := hasMatch_of_piece hk (List.suffix_refl x) hpre
    rw [← hgap, hnone _ List.mem_cons_self] at hmatch
    exact absurd hmatch (by simp)
  · have hmatch := hasMatch_of_piece hk hx' hpre
    rw [hnone _ (List.mem_cons_of_mem _ hg)] at hmatch
    exact absurd hmatch (by simp)
  · exact ⟨A, m, B, e, b, hsegs, hm, hb, he.imp_left And.left, hx, hy⟩

/-- If no piece of a text holds a connective, the connectives of the text are spaced. -/
theorem isSpaced_of_split {t : Text}
    (hnone : ∀ g ∈ Grammar.boundary.split t, connectiveWord.hasMatch g = false) : IsSpaced t := by
  intro x k y ht hk
  obtain ⟨A, m, B, e, b, hsegs, hm, hb, he, hx, hy⟩ := boundary_of_connective hnone ht hk
  refine ⟨⟨b, _, hy, hb⟩, ?_⟩
  rcases he with hnil | ⟨d, hd, rfl⟩
  · exact Or.inl hnil
  · refine Or.inr ⟨_, d, hx, hd, ?_⟩
    rintro ⟨x', k', hA, hk'⟩
    -- a connective right before the blank would need that blank for itself
    have ht' : t = x' ++ k' ++ (d :: (k ++ y)) := by
      rw [ht, hx, hA]
      simp
    obtain ⟨A', m', B', e', b', hsegs', hm', -, -, hx', hy'⟩ := boundary_of_connective hnone ht' hk'
    have hsize := one_lt_length_boundary (e := [d]) (b := b) (reads_connectiveWord_iff.mp hk).1
    have hsize' := one_lt_length_boundary (e := e') (b := b') (reads_connectiveWord_iff.mp hk').1
    refine boundary_apart (d := d) hsegs hsegs' (hm ▸ hsize) (hm' ▸ hsize') ?_
    have hbd : d = b' := by
      simp only [List.cons.injEq] at hy'
      exact hy'.1
    rw [hA, hx', hm', hbd]
    simp

/-- No piece of a text holds a connective as a word on its own exactly when the connectives of the
text are spaced. -/
theorem split_no_connective_iff (t : Text) :
    (∀ g ∈ Grammar.boundary.split t, connectiveWord.hasMatch g = false) ↔ IsSpaced t := by
  refine ⟨isSpaced_of_split, fun hspaced g hg => ?_⟩
  have hseg := segmented_segments consumes_boundary t
  rw [Pattern.split, Segment.gaps_eq] at hg
  rcases List.mem_cons.mp hg with rfl | hg
  · obtain ⟨rest, ht, hpiece⟩ := firstGap_isPiece hseg
    refine IsPiece.no_connective (x := []) hpiece (Or.inl rfl) ?_
    rw [List.nil_append, ← ht]
    exact hspaced
  · obtain ⟨x, m, rest, ht, hreads, hpiece⟩ := laterGaps_isPiece hseg hg
    rw [List.append_nil] at hreads hpiece
    refine IsPiece.no_connective (x := x ++ m) (by simpa using hpiece)
      (Or.inr ⟨x, m, rfl, hreads⟩) ?_
    rw [← ht]
    exact hspaced

end MutationPreview
