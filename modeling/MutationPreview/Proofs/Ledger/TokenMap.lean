import Mathlib.Data.List.Basic
import MutationPreview.Proofs.Ledger.InTurn

/-!
# Held text in a map

A ledger numbers its values by their place, so two of its tokens cannot clash. Held text can also be
kept in a map that has the values under their tokens: a value that is there already keeps its token,
and another one is inserted under the token whose number is one more than the size of the map
(`TokenMap.hold`).

Main statements: no insertion overwrites an entry (`Ledger.token_notMem_toMap`); a ledger and its map
stay together when a value is held (`Ledger.toMap_hold`) and when the spans of a text are
(`Ledger.toMap_holdSpans`); the map lists the entries of the ledger in the order of their tokens
(`Ledger.toList_toMap`).
-/

namespace MutationPreview

/-- Values under tokens, in the order of the tokens. -/
abbrev TokenMap := Std.ExtTreeMap Text Text

/-- Texts are compared as they are ordered. -/
theorem Text.compare_eq_lt {u v : Text} : compare u v = .lt ↔ u < v := by
  induction u generalizing v with
  | nil => cases v <;> simp
  | cons c u ih =>
    cases v with
    | nil => simp
    | cons d v =>
      have hchar : compare c d = .lt ↔ c < d := compareOfLessAndEq_eq_lt
      rw [List.compare_eq_compareLex, List.compareLex_cons_cons, ← List.compare_eq_compareLex,
        Ordering.then_eq_lt, ih, List.cons_lt_cons_iff, hchar, Std.compare_eq_iff_eq]

namespace TokenMap

/-- Holds a value and gives its token. A value that is held already keeps the first of its tokens. -/
def hold (f : TokenFormat) (m : TokenMap) (value : Text) : TokenMap × Text :=
  match m.toList.find? fun entry => entry.2 = value with
  | some entry => (m, entry.1)
  | none => (m.insert (f.token (m.size + 1)) value, f.token (m.size + 1))

/-- Holds the spans of a text from left to right and puts their tokens in their place; `tokens` has
the token of each value that came before. -/
def holdSpans {α : Type} (f : TokenFormat) (cover : α → Text) :
    (tokens m : TokenMap) → List (Segment α) → TokenMap × Text
  | _, m, [] => (m, [])
  | tokens, m, .plain c :: rest =>
    let (m, t) := holdSpans f cover tokens m rest
    (m, c :: t)
  | tokens, m, .span a :: rest =>
    match tokens[cover a]? with
    | some token =>
      let (m, t) := holdSpans f cover tokens m rest
      (m, token ++ t)
    | none =>
      let token := f.token (m.size + 1)
      let (m, t) :=
        holdSpans f cover (tokens.insert (cover a) token) (m.insert token (cover a)) rest
      (m, token ++ t)

end TokenMap

namespace Ledger

variable {l : Ledger} {token value : Text}

/-- The map of the held values under their tokens. -/
def toMap (l : Ledger) : TokenMap := .ofList l.entries

/-! ## The entries of the map -/

@[simp] theorem length_entries (l : Ledger) : l.entries.length = l.values.length := by
  rw [entries, List.length_mapIdx]

theorem entries_concat (l : Ledger) (value : Text) :
    (⟨l.format, l.values ++ [value]⟩ : Ledger).entries =
      l.entries ++ [(l.format.token (l.values.length + 1), value)] := by
  simp [entries, List.mapIdx_append]

theorem mem_entries_iff : (token, value) ∈ l.entries ↔ l.get? token = some value := by
  rw [entries, List.mem_mapIdx, get?_eq_some_iff]
  constructor
  · rintro ⟨i, hlt, hentry⟩
    obtain ⟨rfl, rfl⟩ := Prod.mk.inj hentry
    exact ⟨i, List.getElem?_eq_getElem hlt, rfl⟩
  · rintro ⟨i, hi, rfl⟩
    obtain ⟨hlt, rfl⟩ := List.getElem?_eq_some_iff.mp hi
    exact ⟨i, hlt, rfl⟩

private theorem pairwise_entries (l : Ledger) :
    l.entries.Pairwise fun a b => ¬ compare a.1 b.1 = .eq := by
  have hnodup := List.pairwise_map.mp l.nodup_tokens
  exact hnodup.imp fun hne heq => hne (Std.compare_eq_iff_eq.mp heq)

/-- The map gives the values that the ledger gives. -/
@[simp] theorem getElem?_toMap (l : Ledger) (token : Text) : l.toMap[token]? = l.get? token := by
  cases hget : l.get? token with
  | some value =>
    exact Std.ExtTreeMap.getElem?_ofList_of_mem Std.compare_self l.pairwise_entries
      (mem_entries_iff.mpr hget)
  | none =>
    refine Std.ExtTreeMap.getElem?_ofList_of_contains_eq_false ?_
    rw [Bool.eq_false_iff, ne_eq, List.contains_iff_mem, List.mem_map]
    rintro ⟨⟨token, value⟩, hentry, rfl⟩
    rw [mem_entries_iff.mp hentry] at hget
    cases hget

@[simp] theorem size_toMap (l : Ledger) : l.toMap.size = l.values.length := by
  rw [toMap, Std.ExtTreeMap.size_ofList l.pairwise_entries, length_entries]

@[simp] theorem toMap_nil (f : TokenFormat) : (⟨f, []⟩ : Ledger).toMap = ∅ := rfl

theorem mem_toMap : token ∈ l.toMap ↔ l.holds token = true := by
  rw [Std.ExtTreeMap.mem_iff_isSome_getElem?, getElem?_toMap, holds]

theorem mem_toList_toMap : (token, value) ∈ l.toMap.toList ↔ l.get? token = some value := by
  rw [Std.ExtTreeMap.mem_toList_iff_getElem?_eq_some, getElem?_toMap]

/-- The map lists the entries of the ledger in the order of their tokens. -/
theorem toList_toMap (l : Ledger) : l.toMap.toList = l.sortedEntries := by
  have hsorted : l.sortedEntries.Pairwise fun a b => compare a.1 b.1 = .lt := by
    have hdescending := l.pairwise_descending
    rw [descending, List.pairwise_reverse] at hdescending
    exact hdescending.imp fun hlt => Text.compare_eq_lt.mpr hlt
  have hne : ∀ {a b : Text × Text}, compare a.1 b.1 = .lt → a ≠ b := by
    rintro a b hlt rfl
    rw [Std.compare_self] at hlt
    cases hlt
  refine List.Perm.eq_of_pairwise ?_ l.toMap.ordered_keys_toList hsorted ?_
  · rintro a b - - hab hba
    rw [Text.compare_eq_lt] at hab hba
    exact absurd hab (List.lt_asymm hba)
  · rw [List.perm_ext_iff_of_nodup (l.toMap.ordered_keys_toList.imp hne) (hsorted.imp hne)]
    rintro ⟨token, value⟩
    rw [mem_toList_toMap, sortedEntries, (List.mergeSort_perm _ _).mem_iff, mem_entries_iff]

/-! ## Holding one value -/

/-- The next token is not in the map. -/
theorem token_notMem_toMap (l : Ledger) : l.format.token (l.values.length + 1) ∉ l.toMap := by
  rw [mem_toMap, holds_iff]
  rintro ⟨i, hi, htoken⟩
  have hsame := TokenFormat.token_injective htoken
  omega

/-- One more value is inserted under the next token. -/
theorem toMap_concat (l : Ledger) (value : Text) :
    (⟨l.format, l.values ++ [value]⟩ : Ledger).toMap =
      l.toMap.insert (l.format.token (l.values.length + 1)) value := by
  rw [toMap, toMap, entries_concat, Std.ExtTreeMap.ofList_eq_insertMany_empty,
    Std.ExtTreeMap.ofList_eq_insertMany_empty, Std.ExtTreeMap.insertMany_append,
    Std.ExtTreeMap.insertMany_list_singleton]

/-- A ledger without double values and its map hold a value in the same way. -/
theorem toMap_hold (h : l.values.Nodup) (value : Text) :
    l.toMap.hold l.format value = ((l.hold value).1.toMap, (l.hold value).2) := by
  rw [TokenMap.hold]
  cases hfind : l.toMap.toList.find? fun entry => entry.2 = value with
  | some entry =>
    obtain ⟨token, v⟩ := entry
    obtain rfl : v = value := by simpa using List.find?_some hfind
    have hget := mem_toList_toMap.mp (List.mem_of_find?_eq_some hfind)
    obtain ⟨i, hi, rfl⟩ := get?_eq_some_iff.mp hget
    -- a value without a double is found at its own place
    obtain ⟨hlt, rfl⟩ := List.getElem?_eq_some_iff.mp hi
    rw [hold_of_mem (List.getElem_mem hlt), tokenOf, h.idxOf_getElem]
  | none =>
    have hmem : value ∉ l.values := by
      intro hmem
      obtain ⟨i, hi⟩ := List.mem_iff_getElem?.mp hmem
      have hget : l.get? (l.format.token (i + 1)) = some value := by rw [get?_token, hi]
      have hne := List.find?_eq_none.mp hfind _ (mem_toList_toMap.mpr hget)
      simp at hne
    rw [hold_of_notMem hmem, toMap_concat, size_toMap]

/-! ## Holding the spans of a text -/

/-- Whether a map has the token of each held value, and nothing else. -/
def IsIndex (l : Ledger) (tokens : TokenMap) : Prop :=
  ∀ v token, tokens[v]? = some token ↔ v ∈ l.values ∧ token = l.tokenOf v

theorem isIndex_nil (f : TokenFormat) : (⟨f, []⟩ : Ledger).IsIndex ∅ := by
  intro v token
  simp

theorem IsIndex.get?_of_mem {tokens : TokenMap} (h : l.IsIndex tokens) (hmem : value ∈ l.values) :
    tokens[value]? = some (l.tokenOf value) :=
  (h value _).mpr ⟨hmem, rfl⟩

theorem IsIndex.get?_of_notMem {tokens : TokenMap} (h : l.IsIndex tokens)
    (hmem : value ∉ l.values) : tokens[value]? = none := by
  rw [Option.eq_none_iff_forall_ne_some]
  intro token hget
  exact hmem ((h value token).mp hget).1

/-- One more value with its token is put into the index. -/
theorem IsIndex.hold {tokens : TokenMap} (h : l.IsIndex tokens) (value : Text) :
    (l.hold value).1.IsIndex (tokens.insert value (l.hold value).2) := by
  have hspec := hold_spec l value
  intro v token
  rw [Std.ExtTreeMap.getElem?_insert]
  by_cases hv : value = v
  · subst hv
    rw [if_pos Std.compare_self, hspec.token_eq, Option.some.injEq, eq_comm]
    exact (and_iff_right hspec.held).symm
  · rw [if_neg fun heq => hv (Std.compare_eq_iff_eq.mp heq), h v token]
    have hmem : v ∈ l.values ↔ v ∈ (l.hold value).1.values :=
      ⟨fun hin => hspec.continues.values.subset hin,
        fun hin => (hspec.only v hin).resolve_right (Ne.symm hv)⟩
    rw [← hmem]
    exact and_congr_right fun hin => by rw [hspec.continues.tokenOf_eq hin]

/-- A ledger without double values and its map hold the spans of a text in the same way. -/
theorem toMap_holdSpans {α : Type} (cover : α → Text) {tokens : TokenMap} (h : l.values.Nodup)
    (htokens : l.IsIndex tokens) (segs : List (Segment α)) :
    TokenMap.holdSpans l.format cover tokens l.toMap segs =
      ((l.holdSpans cover segs).1.toMap, (l.holdSpans cover segs).2) := by
  induction segs generalizing l tokens with
  | nil => rfl
  | cons s segs ih =>
    cases s with
    | plain c => rw [TokenMap.holdSpans, holdSpans, ih h htokens]
    | span a =>
      rw [TokenMap.holdSpans, holdSpans]
      by_cases hmem : cover a ∈ l.values
      · rw [htokens.get?_of_mem hmem, hold_of_mem hmem, ih h htokens]
      · have hrec := ih ((hold_spec l (cover a)).nodup h) (htokens.hold (cover a))
        simp only [hold_of_notMem hmem, toMap_concat] at hrec
        simp only [htokens.get?_of_notMem hmem, hold_of_notMem hmem, size_toMap, hrec]

end Ledger

end MutationPreview
