import MutationPreview.Message
import MutationPreview.Proofs.Text.Occurrences

/-!
# Slots of a template

The slots of a template can be filled at once, in one pass that never looks at an argument
(`fillAtOnce`), or for one argument after the other in what came out before (`fillTemplate`). A
template is cut into slots and characters once for both ways (`Slotted`). One turn of the second way
fills the slots of the template with its number, and beside them what the arguments before it have
brought in (`Slotted.turn_eq_iff`).

Main statement: both ways give the same text for a list of arguments and for every start of it exactly
when no turn finds more slots than the template has, and they do so for every template exactly when no
argument touches the slot of a later one (`fillTemplate_eq_fillAtOnce_iff`).
-/

namespace MutationPreview

/-! ## Slots -/

section Slots

variable {i j n : Nat} {t u v x y z rest : Text}

/-- Only at its end does a slot have a closing brace. -/
theorem close_notMem_start (h : argumentSlot j = x ++ v) (hv : v ≠ []) : '\x7d' ∉ x := by
  rw [argumentSlot, ← List.dropLast_concat_getLast hv, ← List.append_assoc] at h
  obtain ⟨hfront, -⟩ := List.append_inj' h rfl
  intro hmem
  have hslot : '\x7d' ∈ '\x7b' :: Text.ofNat j := by
    rw [hfront]
    exact List.mem_append_left v.dropLast hmem
  rcases List.mem_cons.mp hslot with hbrace | hdigit
  · exact absurd hbrace (by decide)
  · exact absurd (Text.isDigit_of_mem_ofNat hdigit) (by decide)

/-- Only at its start does a slot have an opening brace. -/
theorem open_notMem_end (h : argumentSlot j = u ++ y) (hu : u ≠ []) : '\x7b' ∉ y := by
  obtain ⟨c, u, rfl⟩ := List.exists_cons_of_ne_nil hu
  have hcons : '\x7b' :: (Text.ofNat j ++ ['\x7d']) = c :: (u ++ y) := h
  obtain ⟨-, hbehind⟩ := List.cons.inj hcons
  intro hmem
  have hslot : '\x7b' ∈ Text.ofNat j ++ ['\x7d'] := by
    rw [hbehind]
    exact List.mem_append_right u hmem
  rcases List.mem_append.mp hslot with hdigit | hbrace
  · exact absurd (Text.isDigit_of_mem_ofNat hdigit) (by decide)
  · exact absurd hbrace (by decide)

theorem argumentSlot_ne_nil (j : Nat) : argumentSlot j ≠ [] := by simp [argumentSlot]

theorem open_mem_start (hu : u ≠ []) (h : u <+: argumentSlot j) : '\x7b' ∈ u := by
  obtain ⟨c, u, rfl⟩ := List.exists_cons_of_ne_nil hu
  have hc : c = '\x7b' := (List.cons_prefix_cons.mp (show c :: u <+: '\x7b' :: _ from h)).1
  rw [hc]
  exact List.mem_cons_self

/-- Slots do not overlap. -/
theorem isMark_argumentSlot (j : Nat) : Text.IsMark (argumentSlot j) where
  ne_nil := argumentSlot_ne_nil j
  unbordered _ _ hu hy hsplit hpre := open_notMem_end hsplit hu (open_mem_start hy hpre)

/-- Where no brace is opened, no slot starts. -/
theorem not_slot_prefix (hz : z ≠ []) (hopen : '\x7b' ∉ z) (rest : Text) :
    ¬ argumentSlot j <+: z ++ rest := by
  obtain ⟨c, z, rfl⟩ := List.exists_cons_of_ne_nil hz
  intro hpre
  have hcons : '\x7b' :: (Text.ofNat j ++ ['\x7d']) <+: c :: (z ++ rest) := hpre
  exact hopen (by rw [(List.cons_prefix_cons.mp hcons).1]; exact List.mem_cons_self)

/-- A slot that another one starts with is that one. -/
theorem slot_eq_of_prefix_slot (h : argumentSlot i <+: argumentSlot j) : i = j := by
  obtain ⟨z, hz⟩ := h
  by_cases hnil : z = []
  · rw [hnil, List.append_nil] at hz
    have hnumber := List.append_cancel_right (List.cons.inj hz).2
    exact Text.ofNat_injective hnumber
  · exact absurd (by simp [argumentSlot]) (close_notMem_start hz.symm hnil)

theorem slot_unique (hi : argumentSlot i <+: t) (hj : argumentSlot j <+: t) : i = j := by
  rcases List.prefix_or_prefix_of_prefix hi hj with hij | hji
  · exact slot_eq_of_prefix_slot hij
  · exact (slot_eq_of_prefix_slot hji).symm

/-- A slot that lies in another one is that one: a brace that is opened is the first character. -/
theorem slot_eq_of_infix_slot (h : argumentSlot i <:+: argumentSlot j) : i = j := by
  obtain ⟨x, y, hxy⟩ := h
  by_cases hx : x = []
  · rw [hx, List.nil_append] at hxy
    exact slot_eq_of_prefix_slot ⟨y, hxy⟩
  · rw [List.append_assoc] at hxy
    exact absurd (by simp [argumentSlot]) (open_notMem_end hxy.symm hx)

/-- Slots with other numbers have no stretch in common with a slot. -/
theorem clearOf_argumentSlot (h : i ≠ j) : Text.ClearOf (argumentSlot j) (argumentSlot i) := by
  constructor
  · exact fun hin => h (slot_eq_of_infix_slot hin)
  · exact fun hin => h (slot_eq_of_infix_slot hin).symm
  · rintro v hv ⟨x, hx⟩ hpre
    by_cases hnil : x = []
    · rw [hnil, List.nil_append] at hx
      rw [hx] at hpre
      exact h (slot_eq_of_prefix_slot hpre).symm
    · exact open_notMem_end hx.symm hnil (open_mem_start hv hpre)
  · rintro u hu hpre ⟨x, hx⟩
    by_cases hnil : x = []
    · rw [hnil, List.nil_append] at hx
      rw [hx] at hpre
      exact h (slot_eq_of_prefix_slot hpre)
    · exact open_notMem_end hx.symm hnil (open_mem_start hu hpre)

end Slots

/-! ## Filling at once -/

/-- The slot of an argument at the start of a text: how far it goes on behind its first character, and
the argument. -/
def slotRule (args : List Text) (rest : Text) : Option (Nat × Text) :=
  (List.range args.length).findSome? fun i =>
    if (argumentSlot i).isPrefixOf rest then some ((argumentSlot i).length - 1, args.getD i [])
    else none

/-- Fills the slots of a template in one pass from left to right; what has been filled in is not looked
at again. -/
def fillAtOnce (template : Text) (args : List Text) : Text :=
  Text.substitute (slotRule args) template

section AtOnce

variable {args : List Text} {i j k n : Nat} {t rest : Text} {segs : List (Segment Nat)}

theorem slotRule_eq_some (hi : i < args.length) (h : argumentSlot i <+: rest) :
    slotRule args rest = some ((argumentSlot i).length - 1, args.getD i []) := by
  cases hfound : slotRule args rest with
  | none =>
    have hnone := List.findSome?_eq_none_iff.mp hfound i (List.mem_range.mpr hi)
    rw [if_pos (List.isPrefixOf_iff_prefix.mpr h)] at hnone
    cases hnone
  | some found =>
    obtain ⟨i', -, hi'⟩ := List.exists_of_findSome?_eq_some hfound
    split at hi'
    · rename_i hpre
      rw [← slot_unique h (List.isPrefixOf_iff_prefix.mp hpre)] at hi'
      exact hi'.symm
    · cases hi'

theorem slotRule_eq_none (h : ∀ i < args.length, ¬ argumentSlot i <+: rest) :
    slotRule args rest = none := by
  rw [slotRule, List.findSome?_eq_none_iff]
  intro i hi
  rw [if_neg]
  rw [List.isPrefixOf_iff_prefix]
  exact h i (List.mem_range.mp hi)

/-- A template cut into the slots with numbers below `n` and the characters between them. -/
inductive Slotted (n : Nat) : Text → List (Segment Nat) → Prop
  | nil : Slotted n [] []
  | plain {c : Char} {rest : Text} {segs : List (Segment Nat)} :
      (∀ i < n, ¬ argumentSlot i <+: c :: rest) → Slotted n rest segs →
      Slotted n (c :: rest) (.plain c :: segs)
  | span {i : Nat} {rest : Text} {segs : List (Segment Nat)} :
      i < n → Slotted n rest segs → Slotted n (argumentSlot i ++ rest) (.span i :: segs)

theorem exists_slotted (n : Nat) (t : Text) : ∃ segs, Slotted n t segs := by
  -- each step of the reading shortens the text
  induction hlength : t.length using Nat.strongRecOn generalizing t with
  | ind l ih =>
    cases t with
    | nil => exact ⟨[], .nil⟩
    | cons c rest =>
      by_cases hslot : ∃ i < n, argumentSlot i <+: c :: rest
      · obtain ⟨i, hi, behind, hbehind⟩ := hslot
        have hshort : behind.length < l := by
          have hpos := List.length_pos_iff.mpr (argumentSlot_ne_nil i)
          rw [← hlength, ← hbehind, List.length_append]
          omega
        obtain ⟨segs, h⟩ := ih behind.length hshort behind rfl
        rw [← hbehind]
        exact ⟨.span i :: segs, .span hi h⟩
      · obtain ⟨segs, h⟩ := ih rest.length (by rw [← hlength]; exact Nat.lt_succ_self _) rest rfl
        exact ⟨.plain c :: segs, .plain (fun i hi hpre => hslot ⟨i, hi, hpre⟩) h⟩

namespace Slotted

theorem join_eq (h : Slotted n t segs) : Segment.join argumentSlot segs = t := by
  induction h with
  | nil => rfl
  | plain _ _ ih => rw [Segment.join_plain, ih]
  | span _ _ ih => rw [Segment.join_span, ih]

/-- The characters between the slots spell no slot. -/
theorem ne_append_slot (h : Slotted n t segs) (hj : j < n) (A B : List (Segment Nat)) :
    segs ≠ A ++ ((argumentSlot j).map .plain ++ B) := by
  induction h generalizing A with
  | nil => simp [argumentSlot_ne_nil]
  | @plain c rest segs hnot hrest ih =>
    intro hsplit
    cases A with
    | nil =>
      have hjoin := congrArg (Segment.join argumentSlot) hsplit
      rw [Segment.join_plain, hrest.join_eq, List.nil_append, Segment.join_append,
        Segment.join_map_plain] at hjoin
      exact hnot j hj ⟨_, hjoin.symm⟩
    | cons s A => exact ih A (List.cons.inj hsplit).2
  | @span i rest segs _ _ ih =>
    intro hsplit
    cases A with
    | nil =>
      have hhead := congrArg List.head? hsplit
      simp [argumentSlot] at hhead
    | cons s A => exact ih A (List.cons.inj hsplit).2

end Slotted

/-- What stands for the slot with number `i` after the first `k` turns. -/
def afterTurns (args : List Text) (k i : Nat) : Text := if i < k then args.getD i [] else argumentSlot i

/-- The first arguments are filled into their slots, and all other slots stay. -/
theorem Slotted.fillAtOnce_take (h : Slotted args.length t segs) (hk : k ≤ args.length) :
    fillAtOnce t (args.take k) = Segment.join (afterTurns args k) segs := by
  have hlength : (args.take k).length = k := by rw [List.length_take, Nat.min_eq_left hk]
  induction h with
  | nil => rfl
  | @plain c rest segs hnot _ ih =>
    have hrule : slotRule (args.take k) (c :: rest) = none := by
      refine slotRule_eq_none fun i hi => hnot i ?_
      omega
    rw [fillAtOnce, Text.substitute_of_none hrule, Segment.join_plain, ← ih]
    rfl
  | @span i rest segs _ _ ih =>
    rw [Segment.join_span, ← ih, afterTurns]
    by_cases hik : i < k
    · have hrule := slotRule_eq_some (hik.trans_eq hlength.symm)
        (List.prefix_append (argumentSlot i) rest)
      have harg : (args.take k).getD i [] = args.getD i [] := by
        simp [List.getD_eq_getElem?_getD, hik]
      obtain ⟨c, u, hcons⟩ := List.exists_cons_of_ne_nil (argumentSlot_ne_nil i)
      rw [harg, hcons, List.length_cons, Nat.add_sub_cancel] at hrule
      rw [if_pos hik, fillAtOnce, hcons, List.cons_append, Text.substitute_of_some hrule]
      rfl
    · rw [if_neg hik, fillAtOnce]
      refine Text.substitute_copy fun x z hsplit hz => slotRule_eq_none fun i' hi' hpre => ?_
      by_cases hx : x = []
      · rw [hx, List.nil_append] at hsplit
        rw [← hsplit] at hpre
        have hsame := slot_unique hpre (List.prefix_append (argumentSlot i) rest)
        omega
      · exact not_slot_prefix hz (open_notMem_end hsplit hx) rest hpre

end AtOnce

/-! ## One turn -/

section Turn

variable {args : List Text} {g : Nat → Text} {j k n : Nat} {m t : Text} {segs : List (Segment Nat)}

/-- The slots with number `j` as places of a replacement; other slots are the characters that `g` puts
there. -/
def turned (g : Nat → Text) (j : Nat) : List (Segment Nat) → List (Segment Unit)
  | [] => []
  | .plain c :: segs => .plain c :: turned g j segs
  | .span i :: segs => (if i = j then [.span ()] else (g i).map .plain) ++ turned g j segs

theorem fill_turned (u : Text) (g : Nat → Text) (j : Nat) (segs : List (Segment Nat)) :
    Text.fill u (turned g j segs) = Segment.join (fun i => if i = j then u else g i) segs := by
  induction segs with
  | nil => rfl
  | cons s segs ih =>
    cases s with
    | plain c => rw [turned, Text.fill_plain, ih, Segment.join_plain]
    | span i =>
      rw [turned, Text.fill_append, ih, Segment.join_span]
      split
      · rw [Text.fill_span, Text.fill_nil, List.append_nil]
      · rw [Text.fill_map_plain]

theorem length_spans_turned (g : Nat → Text) (j : Nat) (segs : List (Segment Nat)) :
    (Segment.spans (turned g j segs)).length = (Segment.spans segs).count j := by
  induction segs with
  | nil => rfl
  | cons s segs ih =>
    cases s with
    | plain c => exact ih
    | span i =>
      rw [turned, Segment.spans_append, List.length_append, ih, Segment.spans_span, List.count_cons]
      split
      · rename_i hij
        simp [hij, Nat.add_comm]
      · rename_i hij
        simp [hij]

/-- No mark starts at a character between slots, if the characters do not spell it and what stands
for a slot is the mark or does not touch it. -/
theorem not_prefix_join {c : Char} (hm : Text.IsMark m)
    (hplain : ∀ B, .plain c :: segs ≠ m.map .plain ++ B)
    (hcover : ∀ i ∈ Segment.spans segs, g i = m ∨ Text.ClearOf m (g i)) :
    ¬ m <+: c :: Segment.join g segs := by
  obtain ⟨run, tail, hrun, htail⟩ := Segment.exists_run (.plain c :: segs)
  have hjoin : c :: Segment.join g segs = run ++ Segment.join g tail := by
    rw [← Segment.join_plain, hrun, Segment.join_append, Segment.join_map_plain]
  rw [hjoin]
  intro hpre
  rcases Text.prefix_append_cases hpre with ⟨w, rfl⟩ | ⟨v, hv, hvtail, hsplit⟩
  · exact hplain (w.map .plain ++ tail) (by rw [hrun]; simp)
  · -- the mark would go on into what stands for the next slot
    rcases htail with rfl | ⟨i, more, rfl⟩
    · exact hv (List.prefix_nil.mp hvtail)
    · have hne : run ≠ [] := by
        rintro rfl
        cases hrun
      have hacross : Text.Across m run (g i ++ Segment.join g more) :=
        ⟨run, v, hne, hv, hsplit, List.suffix_rfl, hvtail⟩
      have hi : i ∈ Segment.spans (.plain c :: segs) := by
        rw [hrun]
        simp
      rcases hcover i hi with hmark | hclear
      · rw [hmark] at hacross
        exact hm.not_across_mark run _ hacross
      · exact hclear.not_across_before run _ hacross

/-- If nothing that stands for another slot touches the mark, a replacement finds the slots with
number `j` and nothing else. -/
theorem found_turned (hm : Text.IsMark m) (hplain : ∀ A B, segs ≠ A ++ (m.map .plain ++ B))
    (hj : g j = m) (hclear : ∀ i ≠ j, i ∈ Segment.spans segs → Text.ClearOf m (g i)) :
    Text.Found m (Segment.join g segs) (turned g j segs) := by
  induction segs with
  | nil => exact .nil
  | cons s segs ih =>
    have hbehind : Text.Found m (Segment.join g segs) (turned g j segs) := by
      refine ih (fun A B hsplit => hplain (s :: A) B (by rw [hsplit, List.cons_append])) ?_
      intro i hij hi
      refine hclear i hij ?_
      cases s <;> simp [hi]
    cases s with
    | plain c =>
      refine .plain (not_prefix_join hm (hplain []) fun i hi => ?_) hbehind
      by_cases hij : i = j
      · exact Or.inl (by rw [hij, hj])
      · exact Or.inr (hclear i hij hi)
    | span i =>
      rw [turned, Segment.join_span]
      by_cases hij : i = j
      · rw [if_pos hij, hij, hj]
        exact .span hbehind
      · have hi := hclear i hij (by simp)
        rw [if_neg hij]
        refine (Text.found_map_plain hi.not_around).append hbehind ?_
        simpa using hi.not_across_behind [] (Segment.join g segs)

theorem afterTurns_zero (args : List Text) : afterTurns args 0 = argumentSlot := by
  funext i
  exact if_neg (Nat.not_lt_zero i)

theorem afterTurns_self (args : List Text) (k : Nat) : afterTurns args k k = argumentSlot k := by
  rw [afterTurns, if_neg (Nat.lt_irrefl k)]

theorem afterTurns_succ (args : List Text) (k : Nat) :
    (fun i => if i = k then args.getD k [] else afterTurns args k i) = afterTurns args (k + 1) := by
  funext i
  by_cases hik : i = k
  · rw [if_pos hik, hik, afterTurns, if_pos (Nat.lt_succ_self k)]
  · rw [if_neg hik, afterTurns, afterTurns]
    have hsame : i < k ↔ i < k + 1 := by omega
    simp only [hsame]

/-- The slots of a template with a given number are its occurrences. -/
theorem Slotted.occurrences_eq (h : Slotted n t segs) (hj : j < n) :
    Text.occurrences (argumentSlot j) t = (Segment.spans segs).count j := by
  have hfound := found_turned (isMark_argumentSlot j) (h.ne_append_slot hj)
    (g := argumentSlot) rfl fun i hij _ => clearOf_argumentSlot hij
  rw [h.join_eq] at hfound
  rw [hfound.occurrences_eq (isMark_argumentSlot j), length_spans_turned]

/-- A turn fills the slots of the template with its number and nothing else exactly when it finds as
many slots as the template has, or when it fills them with themselves. -/
theorem Slotted.turn_eq_iff (h : Slotted args.length t segs) (hk : k < args.length) :
    Text.replace (argumentSlot k) (args.getD k []) (Segment.join (afterTurns args k) segs) =
        Segment.join (afterTurns args (k + 1)) segs ↔
      args.getD k [] = argumentSlot k ∨
        Text.occurrences (argumentSlot k) (Segment.join (afterTurns args k) segs) =
          Text.occurrences (argumentSlot k) t := by
  have hm := isMark_argumentSlot k
  obtain ⟨F, hF⟩ := Text.exists_found hm.ne_nil (Segment.join (afterTurns args k) segs)
  have hG : Text.fill (argumentSlot k) (turned (afterTurns args k) k segs) =
      Segment.join (afterTurns args k) segs := by
    rw [fill_turned]
    refine Segment.join_congr fun i _ => ?_
    by_cases hik : i = k
    · rw [if_pos hik, hik, afterTurns_self]
    · rw [if_neg hik]
  rw [hF.replace_eq hm.ne_nil, ← afterTurns_succ, ← fill_turned, hF.fill_eq_fill_iff hm hG,
    length_spans_turned, hF.occurrences_eq hm, h.occurrences_eq hk]
  exact or_congr_right eq_comm

end Turn

/-! ## All turns -/

section Turns

variable {args : List Text} {i j k : Nat} {a b t x y : Text} {segs : List (Segment Nat)}

theorem fillFrom_concat (i : Nat) (args : List Text) (a t : Text) :
    fillFrom i (args ++ [a]) t =
      Text.replace (argumentSlot (i + args.length)) a (fillFrom i args t) := by
  induction args generalizing i t with
  | nil => rfl
  | cons arg args ih =>
    rw [List.cons_append, fillFrom, ih, fillFrom, List.length_cons, Nat.add_assoc, Nat.add_comm 1]

/-- One more argument is one more turn. -/
theorem fillTemplate_take_succ (t : Text) (hk : k < args.length) :
    fillTemplate t (args.take (k + 1)) =
      Text.replace (argumentSlot k) (args.getD k []) (fillTemplate t (args.take k)) := by
  have harg : args.getD k [] = args[k] := by simp [hk]
  rw [fillTemplate, fillTemplate, List.take_succ_eq_append_getElem hk, fillFrom_concat, harg,
    List.length_take, Nat.min_eq_left (Nat.le_of_lt hk), Nat.zero_add]

/-- Filling slots in turn and at once agree, also on each start of the list of arguments, exactly when
every turn does what it does at once. -/
theorem Slotted.fillTemplate_eq_iff (h : Slotted args.length t segs) :
    (∀ k, fillTemplate t (args.take k) = fillAtOnce t (args.take k)) ↔
      ∀ k < args.length, Text.replace (argumentSlot k) (args.getD k [])
        (Segment.join (afterTurns args k) segs) = Segment.join (afterTurns args (k + 1)) segs := by
  constructor
  · intro heq k hk
    rw [← h.fillAtOnce_take (Nat.le_of_lt hk), ← h.fillAtOnce_take hk, ← heq k, ← heq (k + 1),
      fillTemplate_take_succ t hk]
  · intro hturn k
    induction k with
    | zero =>
      rw [h.fillAtOnce_take (Nat.zero_le _), afterTurns_zero, h.join_eq]
      rfl
    | succ k ih =>
      by_cases hk : k < args.length
      · rw [fillTemplate_take_succ t hk, ih, h.fillAtOnce_take (Nat.le_of_lt hk), hturn k hk,
          h.fillAtOnce_take hk]
      · rw [List.take_of_length_le (by omega), ← List.take_of_length_le (Nat.le_of_not_lt hk)]
        exact ih

theorem getD_of_getElem? (h : args[i]? = some a) : args.getD i [] = a := by
  rw [List.getD_eq_getElem?_getD, h, Option.getD_some]

/-- Both ways agree on every start of the list of arguments exactly when no turn finds more slots than
the template has. -/
theorem agree_iff_occurrences (args : List Text) (t : Text) :
    (∀ k, fillTemplate t (args.take k) = fillAtOnce t (args.take k)) ↔
      ∀ j a, args[j]? = some a → a = argumentSlot j ∨
        Text.occurrences (argumentSlot j) (fillAtOnce t (args.take j)) =
          Text.occurrences (argumentSlot j) t := by
  obtain ⟨segs, h⟩ := exists_slotted args.length t
  rw [h.fillTemplate_eq_iff]
  constructor
  · intro hturn j a ha
    obtain ⟨hj, -⟩ := List.getElem?_eq_some_iff.mp ha
    have hiff := (h.turn_eq_iff hj).mp (hturn j hj)
    rwa [getD_of_getElem? ha, ← h.fillAtOnce_take (Nat.le_of_lt hj)] at hiff
  · intro hocc k hk
    have hfound := hocc k (args.getD k []) (by simp [hk])
    rw [h.fillAtOnce_take (Nat.le_of_lt hk)] at hfound
    exact (h.turn_eq_iff hk).mpr hfound

/-- Arguments that do not touch a slot bring none in. -/
theorem occurrences_of_clearOf (t : Text) (hj : j < args.length)
    (hclear : ∀ i a, i < j → args[i]? = some a → Text.ClearOf (argumentSlot j) a) :
    Text.occurrences (argumentSlot j) (fillAtOnce t (args.take j)) =
      Text.occurrences (argumentSlot j) t := by
  obtain ⟨segs, h⟩ := exists_slotted args.length t
  have hother : ∀ i ≠ j, i ∈ Segment.spans segs →
      Text.ClearOf (argumentSlot j) (afterTurns args j i) := by
    intro i hij _
    rw [afterTurns]
    split
    · rename_i hlt
      exact hclear i (args.getD i []) hlt (by simp [hlt.trans hj])
    · exact clearOf_argumentSlot hij
  have hfound := found_turned (isMark_argumentSlot j) (h.ne_append_slot hj) (afterTurns_self args j)
    hother
  rw [h.fillAtOnce_take (Nat.le_of_lt hj), hfound.occurrences_eq (isMark_argumentSlot j),
    length_spans_turned, h.occurrences_eq hj]

theorem slotted_map_plain (n : Nat) (hy : '\x7b' ∉ y) : Slotted n y (y.map .plain) := by
  induction y with
  | nil => exact .nil
  | cons c y ih =>
    refine .plain (fun i _ hpre => ?_) (ih (List.not_mem_of_not_mem_cons hy))
    exact not_slot_prefix (List.cons_ne_nil c y) hy [] (by rwa [List.append_nil])

/-- A template that opens braces before a slot and closes them behind it has no other slot. -/
theorem slotted_around {n : Nat} (hx : '\x7d' ∉ x) (hy : '\x7b' ∉ y) (hi : i < n) :
    Slotted n (x ++ (argumentSlot i ++ y)) (x.map .plain ++ (.span i :: y.map .plain)) := by
  induction x with
  | nil => exact .span hi (slotted_map_plain n hy)
  | cons c x ih =>
    refine .plain (fun k _ hpre => ?_) (ih (List.not_mem_of_not_mem_cons hx))
    rcases Text.prefix_append_cases (a := c :: x) hpre with ⟨w, hw⟩ | ⟨v, hv, hvpre, hsplit⟩
    · refine hx ?_
      rw [← hw]
      simp [argumentSlot]
    · -- the slot would open a second brace
      refine open_notMem_end hsplit (List.cons_ne_nil c x) (?_ : '\x7b' ∈ v)
      obtain ⟨d, v, rfl⟩ := List.exists_cons_of_ne_nil hv
      have hd : d = '\x7b' :=
        (List.cons_prefix_cons.mp (show d :: v <+: '\x7b' :: _ from hvpre)).1
      rw [hd]
      exact List.mem_cons_self

/-- An argument touches a slot only if it makes up one with opened braces before it and closed braces
behind it. -/
theorem clearOf_of_around
    (h : ∀ x y, '\x7d' ∉ x → '\x7b' ∉ y → ¬ argumentSlot j <:+: x ++ (a ++ y)) :
    Text.ClearOf (argumentSlot j) a where
  not_within := by
    rintro ⟨x, y, hslot⟩
    rw [List.append_assoc] at hslot
    cases a with
    | nil =>
      have hclosed := open_notMem_end (u := ['\x7b']) (j := j) rfl (List.cons_ne_nil _ _)
      exact h ['\x7b'] _ (by decide) hclosed List.infix_rfl
    | cons c a =>
      have hsplit : argumentSlot j = (x ++ c :: a) ++ y := by rw [← hslot, List.append_assoc]
      exact h x y (close_notMem_start hslot.symm (List.cons_ne_nil c (a ++ y)))
        (open_notMem_end hsplit (by simp)) ⟨[], [], by rw [List.nil_append, List.append_nil, hslot]⟩
  not_around hin := h [] [] (by simp) (by simp) (by simpa using hin)
  not_behind := by
    rintro v hv ⟨x, hx⟩ ⟨w, rfl⟩
    refine h x [] (close_notMem_start hx.symm hv) (by simp) ⟨[], w, ?_⟩
    simp [← hx]
  not_before := by
    rintro u hu ⟨y, hy⟩ ⟨w, rfl⟩
    refine h [] y (by simp) (open_notMem_end hy.symm hu) ⟨w, [], ?_⟩
    simp [← hy]

/-- The template whose only slot stands among opened and closed braces tells an argument that touches
a later slot. -/
theorem clearOf_of_agree
    (h : ∀ template k, fillTemplate template (args.take k) = fillAtOnce template (args.take k))
    (hij : i < j) (ha : args[i]? = some a) (hb : args[j]? = some b) (hne : b ≠ argumentSlot j) :
    Text.ClearOf (argumentSlot j) a := by
  refine clearOf_of_around fun x y hx hy hin => ?_
  obtain ⟨hi, -⟩ := List.getElem?_eq_some_iff.mp ha
  obtain ⟨hj, -⟩ := List.getElem?_eq_some_iff.mp hb
  have hslotted := slotted_around (n := args.length) hx hy hi
  have hturns := (agree_iff_occurrences args (x ++ (argumentSlot i ++ y))).mp (h _)
  have hsame := (hturns j b hb).resolve_left hne
  have hfilled : fillAtOnce (x ++ (argumentSlot i ++ y)) (args.take j) = x ++ (a ++ y) := by
    rw [hslotted.fillAtOnce_take (Nat.le_of_lt hj), Segment.join_append, Segment.join_map_plain,
      Segment.join_span, Segment.join_map_plain, afterTurns, if_pos hij, getD_of_getElem? ha]
  have hnone : Text.occurrences (argumentSlot j) (x ++ (argumentSlot i ++ y)) = 0 := by
    rw [hslotted.occurrences_eq hj]
    simp [Nat.ne_of_lt hij]
  have hpos := Text.occurrences_pos (argumentSlot_ne_nil j) hin
  rw [hfilled, hnone] at hsame
  omega

/-- Filling slots in turn and at once give the same text, for a list of arguments and every start of
it, exactly when no turn but one that fills a slot with itself finds more slots than the template has.
They do so for every template exactly when no argument touches the slot of a later one. (Starts of the
list count, as a later turn can undo what an earlier one has done.) -/
theorem fillTemplate_eq_fillAtOnce_iff (args : List Text) :
    (∀ template, (∀ k, fillTemplate template (args.take k) = fillAtOnce template (args.take k)) ↔
      ∀ j a, args[j]? = some a → a = argumentSlot j ∨
        Text.occurrences (argumentSlot j) (fillAtOnce template (args.take j)) =
          Text.occurrences (argumentSlot j) template) ∧
    ((∀ template k, fillTemplate template (args.take k) = fillAtOnce template (args.take k)) ↔
      ∀ i j a b, i < j → args[i]? = some a → args[j]? = some b →
        b = argumentSlot j ∨ Text.ClearOf (argumentSlot j) a) := by
  refine ⟨agree_iff_occurrences args, fun h i j a b hij ha hb => ?_, fun h template => ?_⟩
  · by_cases hself : b = argumentSlot j
    · exact Or.inl hself
    · exact Or.inr (clearOf_of_agree h hij ha hb hself)
  · refine (agree_iff_occurrences args template).mpr fun j b hb => ?_
    obtain ⟨hj, -⟩ := List.getElem?_eq_some_iff.mp hb
    by_cases hself : b = argumentSlot j
    · exact Or.inl hself
    · exact Or.inr (occurrences_of_clearOf template hj
        fun i a hij ha => (h i j a b hij ha hb).resolve_left hself)

/-- An argument that spells the slot of the next one is filled in its turn. -/
theorem fillTemplate_rescans :
    fillTemplate "\x7b0\x7d".toList ["\x7b1\x7d".toList, "x".toList] = "x".toList ∧
      fillAtOnce "\x7b0\x7d".toList ["\x7b1\x7d".toList, "x".toList] = "\x7b1\x7d".toList := by
  decide

/-- A message with one argument is its template with the slot filled at once. -/
theorem Catalog.resolve_eq_fillAtOnce (c : Catalog) (key : MessageKey) (h : args.length ≤ 1) :
    c.resolve key args = fillAtOnce (c.template key) args := by
  have hagree := (agree_iff_occurrences args (c.template key)).mpr fun j a ha => by
    obtain ⟨hj, -⟩ := List.getElem?_eq_some_iff.mp ha
    exact Or.inr (occurrences_of_clearOf _ hj fun i _ hij _ => by omega)
  have hall := hagree args.length
  rwa [List.take_length] at hall

end Turns

end MutationPreview
