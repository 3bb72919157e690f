import MutationPreview.Proofs.Ledger.TokenMap
import MutationPreview.Proofs.Standard

/-!
# The table of held literals

A held text starts with the literals that it had, and every further literal that is held goes into
the same table. `Ledger.IsTable` says what the table is at any time, whatever the format of its
tokens: the keys are the tokens with the numbers from 1 up to the size of the table, and no value
stands in it twice. `TokenMap.IsTable` says so of a map that the literals are inserted into one after
the other (`Held.literalMap`). `Held.Adds` says what one more literal does.

Main statement: all of them hold after every sequence of literals, and table and map have the same
entries (`Held.holdLiterals_isTable`). The table that a text starts with is one
(`Held.isTable_ofText`), and one more literal keeps it so (`Held.Adds`, `Held.adds_holdLiteral`).
-/

namespace MutationPreview

/-- A table of values under the tokens of a format, kept as a map: the keys are the tokens numbered
from 1 up to the size of the map, and no value comes twice. -/
structure TokenMap.IsTable (m : TokenMap) (f : TokenFormat) : Prop where
  keys : ∀ key, key ∈ m ↔ ∃ n, 1 ≤ n ∧ n ≤ m.size ∧ key = f.token n
  distinct_values : (m.toList.map Prod.snd).Nodup

namespace Ledger

/-- The same of a ledger, with its format. -/
structure IsTable (l : Ledger) (f : TokenFormat) : Prop where
  format : l.format = f
  keys : ∀ key, l.holds key = true ↔ ∃ n, 1 ≤ n ∧ n ≤ l.entries.length ∧ key = f.token n
  distinct_keys : (l.entries.map Prod.fst).Nodup
  distinct_values : (l.entries.map Prod.snd).Nodup

@[simp] theorem map_snd_entries (l : Ledger) : l.entries.map Prod.snd = l.values := by
  apply List.ext_getElem
  · simp
  · intro i hi hi'
    simp [entries]

/-- A ledger is a table as soon as its values differ. -/
theorem isTable_of_nodup {l : Ledger} (h : l.values.Nodup) : l.IsTable l.format := by
  refine ⟨rfl, ?_, l.nodup_tokens, by rwa [map_snd_entries]⟩
  intro key
  rw [holds_iff, length_entries]
  constructor
  · rintro ⟨i, hi, hkey⟩
    exact ⟨i + 1, by omega, by omega, hkey⟩
  · rintro ⟨n, hpos, hle, hkey⟩
    refine ⟨n - 1, by omega, ?_⟩
    rwa [Nat.sub_add_cancel hpos]

theorem IsTable.nodup_values {l : Ledger} {f : TokenFormat} (h : l.IsTable f) : l.values.Nodup := by
  rw [← map_snd_entries]
  exact h.distinct_values

/-- The map of a table is one. -/
theorem IsTable.toMap {l : Ledger} {f : TokenFormat} (h : l.IsTable f) : l.toMap.IsTable f := by
  constructor
  · intro key
    rw [mem_toMap, h.keys, length_entries, size_toMap]
  · have hperm : l.sortedEntries.Perm l.entries := List.mergeSort_perm _ _
    rw [toList_toMap, (hperm.map Prod.snd).nodup_iff]
    exact h.distinct_values

/-- A token with nothing behind it is not read as a longer one, whatever the trail is made of. -/
theorem not_overread_nil (l : Ledger) (i : Nat) : ¬ l.Overread i [] := by
  rintro ⟨ds, j, hds, -, hpre, -, -⟩
  have hlen := hpre.length_le
  have hpos := List.length_pos_iff.mpr hds
  simp only [List.length_append, List.length_nil] at hlen
  omega

/-- A token on its own is reverted to its value. -/
theorem revert_token {l : Ledger} (hne : l.format.lead ≠ []) {i : Nat} {value : Text}
    (h : l.values[i]? = some value) : l.revert (l.format.token (i + 1)) = value := by
  have hstep := substitute_token h (l.not_overread_nil i)
  rw [List.append_nil, Text.substitute_nil, List.append_nil] at hstep
  rw [revert_eq_substitute hne, hstep]

/-- The token that holding gives stands for the value in the ledger that it leaves. -/
theorem exists_number_of_hold (l : Ledger) (value : Text) :
    ∃ i, (l.hold value).1.values[i]? = some value ∧
      (l.hold value).2 = (l.hold value).1.format.token (i + 1) := by
  have hspec := hold_spec l value
  have hlt := List.idxOf_lt_length_of_mem hspec.held
  refine ⟨(l.hold value).1.values.idxOf value, ?_, hspec.token_eq⟩
  rw [List.getElem?_eq_getElem hlt, List.getElem_idxOf hlt]

/-- A token keeps its value in every ledger that continues its own. -/
theorem Extends.get?_eq_some {l l' : Ledger} (h : l.Extends l') {key value : Text}
    (hget : l.get? key = some value) : l'.get? key = some value := by
  obtain ⟨i, hi, hkey⟩ := get?_eq_some_iff.mp hget
  obtain ⟨more, hmore⟩ := h.values
  have hlt := (List.getElem?_eq_some_iff.mp hi).1
  refine get?_eq_some_iff.mpr ⟨i, ?_, by rw [hkey, h.format]⟩
  rw [← hmore, List.getElem?_append_left hlt, hi]

/-- Holding adds an entry for a value that is not held yet, and nothing else. -/
theorem entries_hold (l : Ledger) (value : Text) :
    (l.hold value).1.entries =
      if value ∈ l.values then l.entries else l.entries ++ [((l.hold value).2, value)] := by
  by_cases hmem : value ∈ l.values
  · rw [hold_of_mem hmem, if_pos hmem]
  · rw [hold_of_notMem hmem, if_neg hmem, entries_concat]

end Ledger

namespace Held

/-- What holding one more literal does: it gives a token that stands for the literal, adds an entry
only if the literal was not held before, and changes neither the earlier entries nor the text nor
the subqueries. -/
structure Adds (h : Held) (literal : Text) (h' : Held) (token : Text) : Prop where
  reverts : h'.literals.revert token = literal
  kept : ∀ key value, h.literals.get? key = some value → h'.literals.get? key = some value
  entries : h'.literals.entries =
    if literal ∈ h.literals.entries.map Prod.snd then h.literals.entries
    else h.literals.entries ++ [(token, literal)]
  text : h'.text = h.text
  subqueries : h'.subqueries = h.subqueries

/-- Holds literals one after the other. -/
def holdLiterals (h : Held) (literals : List Text) : Held :=
  literals.foldl (fun h literal => (h.holdLiteral literal).1) h

/-- The literals of a text and further ones, held in a map one after the other. -/
def literalMap (f : TokenFormat) (t : Text) (literals : List Text) : TokenMap :=
  literals.foldl (fun m literal => (m.hold f literal).1)
    (TokenMap.holdSpans f Match.text ∅ ∅ (Grammar.literal.segments t)).1

/-- The literals of a text are held in a table. -/
theorem isTable_ofText (literalFormat subqueryFormat : TokenFormat) (raw : Text) :
    (Held.ofText literalFormat subqueryFormat raw).literals.IsTable
      (literalFormat.avoiding (joinLines raw)) := by
  have hspec := Ledger.holdSpans_spec Match.text ⟨literalFormat.avoiding (joinLines raw), []⟩
    (Grammar.literal.segments (joinLines raw))
  have htable := Ledger.isTable_of_nodup (hspec.nodup List.nodup_nil)
  rw [hspec.continues.format] at htable
  exact htable

/-- One more literal leaves a table. -/
theorem isTable_holdLiteral {h : Held} {f : TokenFormat} (htable : h.literals.IsTable f)
    (literal : Text) : (h.holdLiteral literal).1.literals.IsTable f := by
  have hspec := Ledger.hold_spec h.literals literal
  have hnext := Ledger.isTable_of_nodup (hspec.nodup htable.nodup_values)
  rw [hspec.continues.format, htable.format] at hnext
  exact hnext

/-- What one more literal does to a table. -/
theorem adds_holdLiteral {h : Held} {f : TokenFormat} (htable : h.literals.IsTable f)
    (hlead : f.lead ≠ []) (literal : Text) :
    h.Adds literal (h.holdLiteral literal).1 (h.holdLiteral literal).2 := by
  have hspec := Ledger.hold_spec h.literals literal
  have hformat : (h.literals.hold literal).1.format = f :=
    hspec.continues.format.trans htable.format
  refine ⟨?_, fun key value => hspec.continues.get?_eq_some, ?_, rfl, rfl⟩
  · obtain ⟨i, hi, htoken⟩ := Ledger.exists_number_of_hold h.literals literal
    have hreverts := Ledger.revert_token (by rw [hformat]; exact hlead) hi
    rw [← htoken] at hreverts
    exact hreverts
  · rw [Ledger.map_snd_entries]
    exact Ledger.entries_hold h.literals literal

/-- A sequence of literals leaves a table. -/
theorem isTable_holdLiterals {h : Held} {f : TokenFormat} (htable : h.literals.IsTable f)
    (literals : List Text) : (h.holdLiterals literals).literals.IsTable f := by
  induction literals generalizing h with
  | nil => exact htable
  | cons literal literals ih => exact ih (isTable_holdLiteral htable literal)

/-- The map of the literals of a text. -/
theorem toMap_ofText (literalFormat subqueryFormat : TokenFormat) (raw : Text) :
    (Held.ofText literalFormat subqueryFormat raw).literals.toMap =
      literalMap (literalFormat.avoiding (joinLines raw)) (joinLines raw) [] := by
  have hmap := Ledger.toMap_holdSpans Match.text List.nodup_nil
    (Ledger.isIndex_nil (literalFormat.avoiding (joinLines raw)))
    (Grammar.literal.segments (joinLines raw))
  rw [Ledger.toMap_nil] at hmap
  rw [literalMap, List.foldl_nil, hmap]
  rfl

/-- One more literal is held in the map as in the table. -/
theorem hold_toMap {h : Held} {f : TokenFormat} (htable : h.literals.IsTable f) (literal : Text) :
    h.literals.toMap.hold f literal =
      ((h.holdLiteral literal).1.literals.toMap, (h.holdLiteral literal).2) := by
  rw [← htable.format]
  exact Ledger.toMap_hold htable.nodup_values literal

/-- A sequence of literals is held in the map as in the table. -/
theorem toMap_holdLiterals {h : Held} {f : TokenFormat} (htable : h.literals.IsTable f)
    (literals : List Text) :
    (h.holdLiterals literals).literals.toMap =
      literals.foldl (fun m literal => (m.hold f literal).1) h.literals.toMap := by
  induction literals generalizing h with
  | nil => rfl
  | cons literal literals ih =>
    have hrest := ih (isTable_holdLiteral htable literal)
    rw [holdLiterals, List.foldl_cons, ← holdLiterals, hrest, List.foldl_cons, hold_toMap htable]

/-- After every sequence of literals, the table of literals has the tokens numbered from 1 up to its
size as keys and no value twice, and so has the map that the literals are inserted into. The next
literal is given a token that reverts to it, gets an entry only if it has none, and leaves everything
else as it is; the map gives it the same token and has the same entries then. -/
theorem holdLiterals_isTable (profile : Profile) (raw : Text) (literals : List Text) :
    let f := profile.literalFormat.avoiding (joinLines raw)
    let h := (Held.ofText profile.literalFormat profile.subqueryFormat raw).holdLiterals literals
    let m := literalMap f (joinLines raw) literals
    h.literals.IsTable f ∧ m.IsTable f ∧ h.literals.toMap = m ∧
      ∀ literal, h.Adds literal (h.holdLiteral literal).1 (h.holdLiteral literal).2 ∧
        m.hold f literal =
          ((h.holdLiteral literal).1.literals.toMap, (h.holdLiteral literal).2) := by
  intro f h m
  have hstart := isTable_ofText profile.literalFormat profile.subqueryFormat raw
  have htable : h.literals.IsTable f := isTable_holdLiterals hstart literals
  have hmap : h.literals.toMap = m := by
    rw [toMap_holdLiterals hstart, toMap_ofText]
    rfl
  refine ⟨htable, hmap ▸ htable.toMap, hmap, fun literal => ⟨?_, ?_⟩⟩
  · exact adds_holdLiteral htable (TokenFormat.avoiding_ne_nil _ _) literal
  · rw [← hmap]
    exact hold_toMap htable literal

/-- With a trail that is a digit, the token of the tenth literal starts with that of the first one. -/
theorem holdLiterals_isTable_digit_trail :
    let profile := { Profile.standard with literalFormat := ⟨"L".toList, "0".toList⟩ }
    let raw := "a = 'a'".toList
    let literals := "bcdefghi".toList.map fun c => [c]
    let h := (Held.ofText profile.literalFormat profile.subqueryFormat raw).holdLiterals literals
    let m := literalMap (profile.literalFormat.avoiding (joinLines raw)) (joinLines raw) literals
    m["L10".toList]? = some "'a'".toList ∧
      (m.hold (profile.literalFormat.avoiding (joinLines raw)) ['j']).2 = "L100".toList ∧
      (h.holdLiteral ['j']).1.literals.revert "L100".toList = ['j'] ∧
      (h.holdLiteral ['j']).1.literals.get? "L10".toList = some "'a'".toList := by
  intro profile raw literals h m
  have hfirst : h.literals.get? "L10".toList = some "'a'".toList := by decide
  have htoken : (h.holdLiteral ['j']).2 = "L100".toList := by decide
  obtain ⟨-, -, hmap, hnext⟩ := holdLiterals_isTable profile raw literals
  obtain ⟨hadds, hhold⟩ := hnext ['j']
  simp only [h] at hfirst htoken
  rw [htoken] at hadds hhold
  simp only [h, m, hhold, true_and]
  rw [← hmap, Ledger.getElem?_toMap]
  exact ⟨hfirst, hadds.reverts, hadds.kept _ _ hfirst⟩

end Held

end MutationPreview
