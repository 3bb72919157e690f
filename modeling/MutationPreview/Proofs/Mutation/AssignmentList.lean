import Mathlib.Data.List.Induction
import MutationPreview.Proofs.Clause.Plain

/-!
# Where a list of assignments is found

A list of assignments stands between `set` and `where`. It is read with the fewest characters up to its
first equals sign and the fewest behind it. So it ends before the first `where` on its own that has
something between it and the equals sign (`matchAt?_assignmentList`), without the blanks in front of
that word (`exists_assignments`).
-/

namespace MutationPreview

open Pattern

/-- A text that is not blank ends with a character that is none, but for blanks. -/
theorem Text.exists_shown {t : Text} (h : Text.isBlank t = false) :
    ∃ u back, t = u ++ back ∧ u ≠ [] ∧ u.getLast?.any MutationPreview.isBlank = false ∧
      ∀ c ∈ back, MutationPreview.isBlank c = true := by
  induction t using List.reverseRecOn with
  | nil => cases h
  | append_singleton t c ih =>
    by_cases hc : MutationPreview.isBlank c = true
    · have ht : Text.isBlank t = false := by simpa [Text.isBlank, hc] using h
      obtain ⟨u, back, rfl, hne, hlast, hback⟩ := ih ht
      exact ⟨u, back ++ [c], by simp, hne, hlast, by simpa [or_imp, forall_and, hc] using hback⟩
    · exact ⟨t ++ [c], [], by simp, by simp, by simpa using hc, by simp⟩

theorem assignments_notMem_where (q : Pattern) : (Part.assignments, q) ∉
    (chain [blanks, wholeWord "where".toList]).partsIn := by
  have hparts : (chain [blanks, wholeWord "where".toList]).partsIn = [] := rfl
  rw [hparts]
  exact List.not_mem_nil

/-- A list of assignments that is found is singled out. -/
theorem exists_assignments_of_hasMatch {t : Text} (h : Grammar.assignmentList.hasMatch t = true) :
    ∃ m list, Grammar.assignmentList.find? t = some m ∧ m.part? .assignments = some list := by
  obtain ⟨m, hm⟩ := Option.isSome_iff_exists.mp h
  obtain ⟨x, y, -, hmatch, -⟩ := findFrom?_some hm
  have hmatch : (chain ([wordEdge, word "set".toList, wordEdge, blanks] ++
      part .assignments (chain [few1, just '=', few1]) ::
        [blanks, wholeWord "where".toList])).matchAt? _ = some m := hmatch
  obtain ⟨-, -, -, -, -, -, -, -, -, list, hlist, -⟩ :=
    exists_part_of_matchAt? hmatch assignments_notMem_where
  exact ⟨m, list, hm, hlist⟩

section Found

variable {before k gap left right text rest : Text}

/-- The list starts behind the blanks after `set`, and ends as soon as blanks and `where` stand behind
its first equals sign and something more. -/
theorem matchAt?_assignmentList (hbefore : before.head?.any isWord = false)
    (hk : (word "set".toList).Spells k) (hgap : blanks1.Spells gap) (hleft : left ≠ [])
    (hstart : left.head?.any isBlank = false) (hsign : '=' ∉ left) (hright : right ≠ [])
    (hnone : ∀ a b, right = a ++ b → a ≠ [] → b ≠ [] → ∀ w y, b ++ rest = w ++ y →
      ¬ (chain [blanks, wholeWord "where".toList]).Reads
        (a.reverse ++ '=' :: (left.reverse ++ (gap.reverse ++ (k.reverse ++ before)))) w y)
    (hreads : ∃ w y, rest = w ++ y ∧ (chain [blanks, wholeWord "where".toList]).Reads
        (right.reverse ++ '=' :: (left.reverse ++ (gap.reverse ++ (k.reverse ++ before)))) w y) :
    ∃ m c, Grammar.assignmentList.matchAt?
        ⟨before, k ++ (gap ++ (left ++ '=' :: (right ++ rest)))⟩ = some m ∧
      m.part? .assignments = some c ∧ c.text = left ++ '=' :: right := by
  obtain ⟨w, y, rfl, hreads⟩ := hreads
  obtain ⟨s, hs, hm⟩ := exists_run_eq_some hreads
    [⟨.assignments, ⟨gap.reverse ++ (k.reverse ++ before), left ++ '=' :: (right ++ (w ++ y))⟩,
      ⟨right.reverse ++ '=' :: (left.reverse ++ (gap.reverse ++ (k.reverse ++ before))), w ++ y⟩⟩]
    ⟨before, k ++ (gap ++ (left ++ '=' :: (right ++ (w ++ y))))⟩
  have hword := isWord_of_mem_set hk
  have hgapHead := head?_blanks hgap (left ++ '=' :: (right ++ (w ++ y)))
  have hleftHead : (left ++ '=' :: (right ++ (w ++ y))).head?.any isBlank = false := by
    rwa [List.head?_append_of_ne_nil left hleft]
  have hrun : Grammar.assignmentList.matchAt?
      ⟨before, k ++ (gap ++ (left ++ '=' :: (right ++ (w ++ y))))⟩ =
        some ⟨⟨before, k ++ (gap ++ (left ++ '=' :: (right ++ (w ++ y))))⟩, s.here, s.parts⟩ := by
    rw [matchAt?, Grammar.assignmentList, run_chain_cons, run, if_pos, run_chain_cons, run_word hk,
      run_chain_cons, run, if_pos, run_chain_cons, blanks, run]
    · refine Cursor.farthest_of_maximal (spells_many1.mp hgap).2 hleftHead ?_
      rw [run_chain_cons, run, run_chain_cons]
      -- a shorter left side does not have the equals sign behind it
      refine run_few1 hleft (fun a b hsplit ha hb => ?_) ?_
      · obtain ⟨d, b, rfl⟩ := List.exists_cons_of_ne_nil hb
        have hd : d ≠ '=' := by
          rintro rfl
          exact hsign (by simp [hsplit])
        rw [run_chain_cons]
        simp [just, run, hd]
      · rw [run_chain_cons]
        simp only [just, run, beq_self_eq_true, if_true]
        refine run_few1 hright (fun a b hsplit ha hb => ?_) hm
        exact (run_eq_none_iff fun _ => rfl).mpr (hnone a b hsplit ha hb)
    · rw [atWordEdge_behind hword, hgapHead.2]
      rfl
    · rw [atWordEdge_before hword, hbefore]
      rfl
  have hcut : left ++ '=' :: (right ++ (w ++ y)) = (left ++ '=' :: right) ++ (w ++ y) := by simp
  refine ⟨_, _, hrun, find?_parts hs rfl assignments_notMem_where, ?_⟩
  have hlength : (left ++ '=' :: right ++ (w ++ y)).length - (w ++ y).length =
      (left ++ '=' :: right).length := by rw [List.length_append, Nat.add_sub_cancel]
  simp only [Capture.text, Cursor.upTo]
  rw [hcut, hlength, List.take_left]

/-- Behind a part of a text without the word `where`, blanks and that word are not read before the
last character that is no blank is passed. -/
theorem not_reads_where {a b back more : Text}
    (hfree : EachWord (fun w => ¬ (word "where".toList).Spells w) (a ++ (b ++ back))) (ha : a ≠ [])
    (hb : b ≠ []) (hlast : b.getLast?.any isBlank = false)
    (hmore : (back ++ more).head?.any isBlank = true) :
    ∀ w y, b ++ (back ++ more) = w ++ y →
      ¬ (chain [blanks, wholeWord "where".toList]).Reads (a.reverse ++ before) w y := by
  intro w y hsplit hreads
  obtain ⟨gap, v, rfl, hgap, hv⟩ := reads_chain_cons.mp hreads
  obtain ⟨hspells, hfront, hbehind⟩ := (reads_wholeWord_iff where_letters).mp hv
  obtain ⟨hne, hword⟩ := isWord_of_spells_word where_letters hspells
  rw [List.append_assoc] at hsplit
  rcases Text.append_cases hsplit with ⟨u, rfl, -⟩ | ⟨e, u, rfl, hvy⟩
  · have hblank := hgap _ (List.mem_append_left u (List.getLast_mem hb))
    rw [List.getLast?_eq_some_getLast hb, Option.any_some, hblank] at hlast
    cases hlast
  -- the word starts behind the blanks and ends before the next blank
  obtain ⟨v', hu, rfl⟩ : ∃ v', e :: u = v ++ v' ∧ y = v' ++ (back ++ more) := by
    rcases Text.append_cases hvy.symm with ⟨v', rfl, hy⟩ | ⟨d, v', hu, rfl⟩
    · cases v' with
      | nil => exact ⟨[], by simp, by simpa using hy.symm⟩
      | cons d v' =>
        have hd : isBlank d = true := by simpa [hy] using hmore
        rw [isBlank_of_isWord (hword d (by simp))] at hd
        cases hd
    · exact ⟨d :: v', hu, rfl⟩
  refine hfree (a ++ gap) v (v' ++ back) (by simp [hu]) hne hword ?_ ?_ hspells
  · rw [← List.append_assoc, ← List.reverse_append, List.head?_append_of_ne_nil _ (by simp [ha]),
      List.head?_reverse] at hfront
    exact hfront
  · rw [← List.append_assoc] at hbehind
    cases hnext : v' ++ back with
    | nil => rfl
    | cons d rest => simpa [hnext] using hbehind

/-- In front of `where` on its own, a text without this word is the list of assignments, but for the
blanks at its end. -/
theorem exists_assignments (hbefore : before.head?.any isWord = false)
    (hk : (word "set".toList).Spells k) (hgap : blanks1.Spells gap) (hleft : left ≠ [])
    (hstart : left.head?.any isBlank = false) (hsign : '=' ∉ left)
    (hfree : EachWord (fun w => ¬ (word "where".toList).Spells w) text)
    (hsome : Text.isBlank text = false) (tail : Text) :
    ∃ m c back, Grammar.assignmentList.matchAt?
        ⟨before, k ++ (gap ++ (left ++ '=' :: (text ++ (" where ".toList ++ tail))))⟩ = some m ∧
      m.part? .assignments = some c ∧ left ++ '=' :: text = c.text ++ back ∧
      ∀ x ∈ back, isBlank x = true := by
  obtain ⟨right, back, rfl, hright, hlast, hback⟩ := Text.exists_shown hsome
  have hmore : (back ++ (" where ".toList ++ tail)).head?.any isBlank = true := by
    cases back with
    | nil => exact (by decide : isBlank ' ' = true)
    | cons d back => exact hback d (by simp)
  have hreads : ∀ before, ∃ w y, back ++ (" where ".toList ++ tail) = w ++ y ∧
      (chain [blanks, wholeWord "where".toList]).Reads before w y := by
    intro before
    have hspace : ∀ x ∈ back ++ [' '], isBlank x = true := by
      rw [List.forall_mem_append]
      exact ⟨hback, by decide⟩
    have hedge : isWord ' ' = false := by decide
    refine ⟨back ++ ' ' :: "where".toList, ' ' :: tail, by simp, ?_⟩
    refine reads_chain_cons.mpr ⟨back ++ [' '], "where".toList, by simp, hspace, ?_⟩
    refine (reads_wholeWord_iff where_letters).mpr ⟨spells_of_readings (by decide), ?_, hedge⟩
    rw [List.reverse_append]
    exact hedge
  obtain ⟨m, c, hm, hc, htext⟩ := matchAt?_assignmentList hbefore hk hgap hleft hstart hsign hright
    (fun a b hsplit ha hb => by
      rw [hsplit, List.append_assoc] at hfree
      rw [hsplit, List.getLast?_append_of_ne_nil _ hb] at hlast
      exact not_reads_where hfree ha hb hlast hmore) (hreads _)
  exact ⟨m, c, back, by simpa using hm, hc, by rw [htext]; simp, hback⟩

end Found

end MutationPreview
