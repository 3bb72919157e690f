import MutationPreview.Proofs.Text.Erase

/-!
# Counting occurrences

The occurrences of a mark in a text are those that a replacement finds (`Text.Found.occurrences_eq`).
Segments that make up the same text may leave some of them as plain characters. Filled with another
text than the mark, they then differ from what the replacement writes
(`Text.Found.fill_eq_fill_iff`): so a replacement fills given places and no other exactly when there
are as many of them as there are occurrences.
-/

namespace MutationPreview

namespace Text

variable {m a t u rest : Text} {F G : List (Segment Unit)}

/-- The number of places of a text at which another one starts. -/
def occurrences (w : Text) : Text → Nat
  | [] => 0
  | c :: rest => (if w.isPrefixOf (c :: rest) then 1 else 0) + occurrences w rest

theorem occurrences_cons {c : Char} (h : ¬ m <+: c :: rest) :
    occurrences m (c :: rest) = occurrences m rest := by
  rw [occurrences, if_neg (by rwa [List.isPrefixOf_iff_prefix]), Nat.zero_add]

/-- A stretch in which no occurrence starts adds none. -/
theorem occurrences_append_of_none (h : ∀ x z, u = x ++ z → z ≠ [] → ¬ m <+: z ++ rest) :
    occurrences m (u ++ rest) = occurrences m rest := by
  induction u with
  | nil => rfl
  | cons c u ih =>
    have hhere : ¬ m <+: c :: (u ++ rest) := h [] (c :: u) rfl (List.cons_ne_nil c u)
    rw [List.cons_append, occurrences_cons hhere]
    refine ih fun x z hsplit hz => ?_
    exact h (c :: x) z (by rw [hsplit, List.cons_append]) hz

/-- No mark starts inside a mark. -/
theorem IsMark.not_prefix_inside (hm : IsMark m) {x z : Text} (hx : x ≠ []) (hz : z ≠ [])
    (hsplit : m = x ++ z) (rest : Text) : ¬ m <+: z ++ rest := by
  intro hpre
  have hle : z.length ≤ m.length := by rw [hsplit, List.length_append]; omega
  exact hm.unbordered x z hx hz hsplit
    (List.prefix_of_prefix_length_le (List.prefix_append z rest) hpre hle)

theorem IsMark.occurrences_append (hm : IsMark m) (rest : Text) :
    occurrences m (m ++ rest) = occurrences m rest + 1 := by
  obtain ⟨c, v, hcons⟩ := List.exists_cons_of_ne_nil hm.ne_nil
  have hfirst : m.isPrefixOf (c :: (v ++ rest)) = true := by
    rw [List.isPrefixOf_iff_prefix, ← List.cons_append, ← hcons]
    exact List.prefix_append m rest
  have hinside : occurrences m (v ++ rest) = occurrences m rest := by
    apply occurrences_append_of_none
    rintro x z rfl hz
    exact hm.not_prefix_inside (List.cons_ne_nil c x) hz (by rw [hcons]; rfl) rest
  have hsplit : m ++ rest = c :: (v ++ rest) := by rw [hcons, List.cons_append]
  rw [hsplit, occurrences, if_pos hfirst, hinside, Nat.add_comm]

/-- A text that a mark lies in has an occurrence of it. -/
theorem occurrences_pos (hm : m ≠ []) (h : m <:+: t) : 0 < occurrences m t := by
  induction t with
  | nil => exact absurd (List.infix_nil.mp h) hm
  | cons c t ih =>
    rw [occurrences]
    rcases List.infix_cons_iff.mp h with hpre | hin
    · rw [if_pos (List.isPrefixOf_iff_prefix.mpr hpre)]
      omega
    · have hpos := ih hin
      omega

/-- The occurrences of a mark are those that a replacement finds. -/
theorem Found.occurrences_eq (hm : IsMark m) (h : Found m t F) :
    occurrences m t = (Segment.spans F).length := by
  induction h with
  | nil => rfl
  | plain hnot _ ih => rw [occurrences_cons hnot, ih, Segment.spans_plain]
  | span _ ih => rw [hm.occurrences_append, ih, Segment.spans_span, List.length_cons]

/-! ## Segments that leave occurrences alone -/

/-- The rest of a mark at the start of the text of segments stands in plain characters. -/
theorem fill_inside_mark (hm : IsMark m) {x z : Text} (hx : x ≠ []) (hsplit : m = x ++ z)
    (h : fill m G = z ++ rest) : ∃ G', fill m G' = rest ∧ G = z.map .plain ++ G' := by
  induction z generalizing x G with
  | nil => exact ⟨G, h, rfl⟩
  | cons d z ih =>
    cases G with
    | nil => cases h
    | cons s G =>
      cases s with
      | plain k =>
        rw [fill_plain, List.cons_append, List.cons.injEq] at h
        obtain ⟨rfl, h⟩ := h
        have hsplit' : m = (x ++ [k]) ++ z := by rw [hsplit, List.append_assoc]; rfl
        obtain ⟨G', hG', rfl⟩ := ih (by simp) hsplit' h
        exact ⟨G', hG', rfl⟩
      | span i =>
        have hpre : m <+: (d :: z) ++ rest := by
          rw [← h, fill_span]
          exact List.prefix_append m _
        exact absurd hpre (hm.not_prefix_inside hx (List.cons_ne_nil d z) hsplit rest)

/-- Where the text of segments starts with a mark, the mark is a span or stands in plain
characters. -/
theorem fill_mark_cases (hm : IsMark m) (h : fill m G = m ++ rest) :
    ∃ G', fill m G' = rest ∧ (G = .span () :: G' ∨ G = m.map .plain ++ G') := by
  obtain ⟨c, v, hcons⟩ := List.exists_cons_of_ne_nil hm.ne_nil
  cases G with
  | nil =>
    rw [hcons] at h
    cases h
  | cons s G =>
    cases s with
    | span i => exact ⟨G, List.append_cancel_left h, Or.inl rfl⟩
    | plain k =>
      have hG : k :: fill m G = c :: (v ++ rest) := by rw [← fill_plain, h, hcons]; rfl
      rw [List.cons.injEq] at hG
      obtain ⟨rfl, hG⟩ := hG
      obtain ⟨G', hG', rfl⟩ := fill_inside_mark hm (List.cons_ne_nil k []) hcons hG
      exact ⟨G', hG', Or.inr (by rw [hcons]; rfl)⟩

/-- A replacement finds at least the spans of any segments of the same text. -/
theorem Found.length_spans_le (hm : IsMark m) (hF : Found m t F) (hG : fill m G = t) :
    (Segment.spans G).length ≤ (Segment.spans F).length ∧
      ((Segment.spans G).length = (Segment.spans F).length → G = F) := by
  induction hF generalizing G with
  | nil =>
    rw [fill, Segment.join_eq_nil_iff fun _ _ => hm.ne_nil] at hG
    rw [hG]
    exact ⟨Nat.le_refl _, fun _ => rfl⟩
  | @plain k rest F hnot _ ih =>
    cases G with
    | nil => cases hG
    | cons s G =>
      cases s with
      | span i => exact absurd ⟨_, hG⟩ hnot
      | plain k' =>
        rw [fill_plain, List.cons.injEq] at hG
        obtain ⟨rfl, hG⟩ := hG
        obtain ⟨hle, heq⟩ := ih hG
        exact ⟨hle, fun hlength => by rw [heq hlength]⟩
  | @span rest F _ ih =>
    obtain ⟨G', hG', rfl | rfl⟩ := fill_mark_cases hm hG
    · obtain ⟨hle, heq⟩ := ih hG'
      simp only [Segment.spans_span, List.length_cons]
      exact ⟨Nat.succ_le_succ hle, fun hlength => by rw [heq (Nat.succ.inj hlength)]⟩
    · obtain ⟨hle, -⟩ := ih hG'
      simp only [Segment.spans_append, Segment.spans_map_plain, List.nil_append,
        Segment.spans_span, List.length_cons]
      exact ⟨Nat.le_succ_of_le hle, fun hlength => by omega⟩

theorem length_fill (u : Text) (segs : List (Segment Unit)) :
    (fill u segs).length = (fill [] segs).length + (Segment.spans segs).length * u.length := by
  induction segs with
  | nil => simp
  | cons s segs ih =>
    cases s with
    | plain k =>
      simp only [fill_plain, List.length_cons, Segment.spans_plain, ih]
      omega
    | span i =>
      simp only [fill_span, List.length_append, Segment.spans_span, List.length_cons, ih,
        Nat.add_mul, List.length_nil]
      omega

/-- Filled with a text as long as the mark, segments that leave an occurrence alone keep it. -/
theorem Found.eq_of_fill_eq (hm : IsMark m) (hF : Found m t F) (hG : fill m G = t)
    (hlength : a.length = m.length) (hne : a ≠ m) (h : fill a F = fill a G) : G = F := by
  induction hF generalizing G with
  | nil =>
    rw [fill, Segment.join_eq_nil_iff fun _ _ => hm.ne_nil] at hG
    exact hG
  | @plain k rest F hnot _ ih =>
    cases G with
    | nil => cases hG
    | cons s G =>
      cases s with
      | span i => exact absurd ⟨_, hG⟩ hnot
      | plain k' =>
        rw [fill_plain, List.cons.injEq] at hG
        obtain ⟨rfl, hG⟩ := hG
        rw [ih hG (List.cons.inj h).2]
  | @span rest F _ ih =>
    obtain ⟨G', hG', rfl | rfl⟩ := fill_mark_cases hm hG
    · rw [ih hG' (List.append_cancel_left h)]
    · rw [fill_span, fill_append, fill_map_plain] at h
      exact absurd (List.append_inj h hlength).1 hne

/-- A replacement fills the spans of given segments and no other places exactly when they have as many
spans as it finds, or when it changes nothing. -/
theorem Found.fill_eq_fill_iff (hm : IsMark m) (hF : Found m t F) (hG : fill m G = t) :
    fill a F = fill a G ↔ a = m ∨ (Segment.spans G).length = (Segment.spans F).length := by
  obtain ⟨hle, heq⟩ := hF.length_spans_le hm hG
  constructor
  · intro h
    by_contra hnot
    rw [not_or] at hnot
    obtain ⟨hne, hfewer⟩ := hnot
    obtain ⟨d, hd⟩ := Nat.exists_eq_add_of_le hle
    -- the two fillings are of one length only if the mark and the text are
    have hmark := congrArg List.length (hF.fill_eq.trans hG.symm)
    have hfilled := congrArg List.length h
    rw [length_fill, length_fill m G, hd, Nat.add_mul] at hmark
    rw [length_fill, length_fill a G, hd, Nat.add_mul] at hfilled
    have hlength : a.length = m.length := by
      have hd : 0 < d := by omega
      exact Nat.eq_of_mul_eq_mul_left hd (by omega)
    exact hfewer (congrArg (fun segs => (Segment.spans segs).length)
      (hF.eq_of_fill_eq hm hG hlength hne h))
  · rintro (rfl | hcount)
    · rw [hF.fill_eq, hG]
    · rw [heq hcount]

end Text

end MutationPreview
