import Mathlib.Logic.Relation
import Mathlib.Order.Bounds.Basic
import MutationPreview.Proofs.Ledger.Basic

/-!
# The search for a fresh lead

A lead that is not fresh to a text gets one underscore after the other until it is. Nothing counts
these turns (`TokenFormat.Grows`). That they come to an end is due to the text alone: it does not
hold a lead that is longer than itself, so each turn leaves less room for the next one
(`TokenFormat.wellFounded_grows`).

The turns from a lead pass through all its shorter extensions, and each of them was rejected
(`TokenFormat.reaches_iff`). So the search ends at the least number of underscores with which the
lead is fresh, and nowhere else (`TokenFormat.endsWith_iff`).

Main statement: the search always ends, and it ends with the lead that `TokenFormat.avoiding` gives,
which is the shortest fresh one (`TokenFormat.avoiding_shortest`).
-/

namespace MutationPreview

namespace TokenFormat

variable {t lead longer last : Text}

/-! ## One turn -/

/-- One turn of the search: a lead that is empty, or that the text holds, gets an underscore. -/
inductive Grows (t : Text) : (lead longer : Text) → Prop
  | underscore {lead : Text} (h : lead = [] ∨ lead <:+: t) : Grows t lead (lead ++ ['_'])

theorem isFresh_eq_false_iff : isFresh t lead = false ↔ lead = [] ∨ lead <:+: t := by
  rw [Bool.eq_false_iff, ne_eq, isFresh_iff, not_and_or, not_not, not_not]

theorem grows_iff : Grows t lead longer ↔ isFresh t lead = false ∧ longer = lead ++ ['_'] := by
  constructor
  · rintro ⟨h⟩
    exact ⟨isFresh_eq_false_iff.mpr h, rfl⟩
  · rintro ⟨h, rfl⟩
    exact .underscore (isFresh_eq_false_iff.mp h)

theorem forall_not_grows_iff : (∀ longer, ¬ Grows t lead longer) ↔ isFresh t lead = true := by
  constructor
  · intro hstops
    rw [← Bool.not_eq_false]
    intro hstale
    exact hstops (lead ++ ['_']) (grows_iff.mpr ⟨hstale, rfl⟩)
  · intro hfresh longer hgrows
    rw [(grows_iff.mp hgrows).1] at hfresh
    cases hfresh

/-- Only a lead that is no longer than the text grows, so each turn leaves less room. -/
theorem Grows.room_lt (h : Grows t lead longer) :
    t.length + 1 - longer.length < t.length + 1 - lead.length := by
  obtain ⟨hlead⟩ := h
  have hle : lead.length ≤ t.length := by
    rcases hlead with rfl | hwithin
    · exact Nat.zero_le _
    · exact hwithin.length_le
  rw [List.length_append, List.length_singleton]
  omega

/-- No lead grows forever. -/
theorem wellFounded_grows (t : Text) : WellFounded fun longer lead => Grows t lead longer :=
  Subrelation.wf Grows.room_lt (measure fun lead : Text => t.length + 1 - lead.length).wf

/-! ## A whole run -/

/-- The turns from a lead add underscores, and no lead before the last one was fresh. -/
theorem reaches_iff :
    Relation.ReflTransGen (Grows t) lead last ↔
      ∃ k, last = lead ++ List.replicate k '_' ∧
        ∀ j < k, isFresh t (lead ++ List.replicate j '_') = false := by
  constructor
  · -- induction on the run from its start: the last turn leaves a lead that was not fresh
    intro h
    induction h with
    | refl => exact ⟨0, by simp, by simp⟩
    | tail _ hturn ih =>
      obtain ⟨k, rfl, hbefore⟩ := ih
      obtain ⟨hstale, rfl⟩ := grows_iff.mp hturn
      refine ⟨k + 1, by rw [List.replicate_succ', List.append_assoc], ?_⟩
      intro j hj
      rcases Nat.lt_succ_iff_lt_or_eq.mp hj with hlt | rfl
      · exact hbefore j hlt
      · exact hstale
  · -- each lead on the way was rejected, so there is a turn from it
    rintro ⟨k, rfl, hbefore⟩
    induction k with
    | zero =>
      rw [List.replicate_zero, List.append_nil]
    | succ k ih =>
      have hreach := ih fun j hj => hbefore j (by omega)
      have hturn : Grows t (lead ++ List.replicate k '_') (lead ++ List.replicate (k + 1) '_') :=
        grows_iff.mpr ⟨hbefore k (by omega), by rw [List.replicate_succ', List.append_assoc]⟩
      exact hreach.tail hturn

/-- Whether the search from one lead ends with another: turns get there, and no turn goes on. -/
structure EndsWith (t lead last : Text) : Prop where
  reached : Relation.ReflTransGen (Grows t) lead last
  stops : ∀ longer, ¬ Grows t last longer

/-- The search ends at the least number of underscores with which the lead is fresh. -/
theorem endsWith_iff :
    EndsWith t lead last ↔
      ∃ k, last = lead ++ List.replicate k '_' ∧
        IsLeast {n | isFresh t (lead ++ List.replicate n '_') = true} k := by
  constructor
  · rintro ⟨hreached, hstops⟩
    obtain ⟨k, rfl, hbefore⟩ := reaches_iff.mp hreached
    refine ⟨k, rfl, forall_not_grows_iff.mp hstops, ?_⟩
    intro n hfresh
    by_contra hlt
    -- a fresh lead with fewer underscores lies on the way, where all were rejected
    have hstale := hbefore n (by omega)
    exact Bool.eq_false_iff.mp hstale hfresh
  · rintro ⟨k, rfl, hfresh, hleast⟩
    refine ⟨reaches_iff.mpr ⟨k, rfl, ?_⟩, forall_not_grows_iff.mpr hfresh⟩
    -- no lead on the way is fresh, for `k` is the least number
    intro j hj
    rw [Bool.eq_false_iff]
    intro hearlier
    have hle := hleast hearlier
    omega

/-- The search from one lead ends with one lead only. -/
theorem EndsWith.unique {last' : Text} (h : EndsWith t lead last) (h' : EndsWith t lead last') :
    last = last' := by
  obtain ⟨k, rfl, hk⟩ := endsWith_iff.mp h
  obtain ⟨k', rfl, hk'⟩ := endsWith_iff.mp h'
  rw [hk.unique hk']

/-! ## The lead that is found -/

/-- The lead of `avoiding` is where the search stops by itself: the bound on it is never what ends
it. -/
theorem endsWith_avoiding (f : TokenFormat) (t : Text) :
    EndsWith t f.lead (f.avoiding t).lead :=
  ⟨reaches_iff.mpr (lengthen_spec t (t.length + 1) f.lead),
    forall_not_grows_iff.mpr (f.isFresh_avoiding t)⟩

/-- The search for a fresh lead ends for every text, from whatever lead. For a format it ends with
the lead of `avoiding` and with no other one. That lead is the format's own with the least number of
underscores behind it that makes it neither empty nor held by the text; the trail stays. -/
theorem avoiding_shortest (f : TokenFormat) (t : Text) :
    (WellFounded fun longer lead => Grows t lead longer) ∧
      (∀ last, EndsWith t f.lead last ↔ last = (f.avoiding t).lead) ∧
      (∃ k, (f.avoiding t).lead = f.lead ++ List.replicate k '_' ∧
        IsLeast {n | f.lead ++ List.replicate n '_' ≠ [] ∧
          ¬ f.lead ++ List.replicate n '_' <:+: t} k) ∧
      (f.avoiding t).trail = f.trail := by
  have hends := f.endsWith_avoiding t
  refine ⟨wellFounded_grows t, ?_, ?_, f.avoiding_trail t⟩
  · intro last
    constructor
    · intro h
      exact h.unique hends
    · rintro rfl
      exact hends
  · obtain ⟨k, hlead, hleast⟩ := endsWith_iff.mp hends
    simp only [isFresh_iff] at hleast
    exact ⟨k, hlead, hleast⟩

example :
    ((⟨"STR_".toList, []⟩ : TokenFormat).avoiding "STR_1 = STR__2".toList).token 1 =
      "STR___1".toList := by
  decide

end TokenFormat

end MutationPreview
