/-
**Plain data.**

Plain data are what every store keeps as it is: the absent value, truth values, integers, finite
numbers, texts, lists of plain data, and dictionaries of plain data whose keys are texts, each of
them once.

Main definitions:

* `Entries.textKeyed` — dictionaries whose keys are texts, each once;
* `Value.isPlain` — plain data.

Main results:

* `Entries.insert_of_absent` — a write under a new text adds an entry at the end;
* `Entries.ofPairs_of_textKeyed` — **a dictionary whose keys are texts, each once, is what its own
  entries written one after the other leave.**
-/

import EntitySchema.Value.Equality

set_option autoImplicit false

namespace EntitySchema

/-! ### Dictionaries under texts -/

namespace Entries

/-- Whether the keys of a dictionary are texts, each of them once. -/
def textKeyed : Entries → Bool
  | [] => true
  | (k, _) :: es =>
    match k with
    | .str s => (getStr? es s).isNone && textKeyed es
    | _ => false

/-- A write under a text that is not there adds an entry at the end. -/
theorem insert_of_absent (es : Entries) {name : String} (h : getStr? es name = none) (v : Value) :
    insert es (.str name) v = es ++ [(.str name, v)] := by
  induction es with
  | nil => rfl
  | cons e es ih =>
    obtain ⟨k, w⟩ := e
    rw [getStr?_cons] at h
    by_cases hk : Value.isText name k = true
    · simp [hk] at h
    · have hrest : getStr? es name = none := by simpa [hk] using h
      simp [insert, hk, ih hrest]

/-- A text is found in two dictionaries one after the other if it is found in one of them. -/
theorem getStr?_append_eq_none {es fs : Entries} {name : String} :
    getStr? (es ++ fs) name = none ↔ getStr? es name = none ∧ getStr? fs name = none := by
  simp [getStr?, List.find?_append]

/-- Writes under new texts, each once, add their entries at the end. -/
theorem insertAll_of_textKeyed (es : Entries) (h : textKeyed es = true) :
    ∀ acc : Entries, (∀ name, getStr? es name ≠ none → getStr? acc name = none) →
      insertAll acc es = acc ++ es := by
  induction es with
  | nil => intro acc _; simp [insertAll]
  | cons e es ih =>
    intro acc hacc
    obtain ⟨k, v⟩ := e
    cases k with
    | str s =>
      simp only [textKeyed, Bool.and_eq_true, Option.isNone_iff_eq_none] at h
      have hs : getStr? acc s = none := hacc s (by simp [getStr?_cons, Value.isText])
      have step : insertAll acc ((.str s, v) :: es) = insertAll (acc ++ [(.str s, v)]) es := by
        simp [insertAll, insert_of_absent acc hs]
      refine step.trans ((ih h.2 _ ?_).trans ?_)
      · intro name hname
        rw [getStr?_append_eq_none]
        have hne : s ≠ name := fun hsn => hname (hsn ▸ h.1)
        refine ⟨hacc name ?_, ?_⟩
        · rw [getStr?_cons]
          split
          · simp
          · exact hname
        · simp [getStr?_cons, Value.isText, hne]
      · simp
    | _ => simp [textKeyed] at h

/-- Written entry by entry, a dictionary whose keys are texts, each once, is itself. -/
theorem ofPairs_of_textKeyed {es : Entries} (h : textKeyed es = true) : ofPairs es = es := by
  rw [ofPairs, insertAll_of_textKeyed es h [] (fun _ _ => rfl), List.nil_append]

end Entries

/-! ### Plain data -/

namespace Value

mutual

/-- Whether a value is plain data. -/
def isPlain : Value → Bool
  | .null => true
  | .bool _ => true
  | .int _ => true
  | .float x => x.isFinite
  | .str _ => true
  | .list xs => plainItems xs
  | .dict es => Entries.textKeyed es && plainEntries es
  | _ => false
termination_by structural v => v

/-- Whether all values of a list are plain data. -/
def plainItems : List Value → Bool
  | [] => true
  | x :: xs => isPlain x && plainItems xs
termination_by structural xs => xs

/-- Whether all values of a dictionary are plain data. -/
def plainEntries : Entries → Bool
  | [] => true
  | (_, v) :: es => isPlain v && plainEntries es
termination_by structural es => es

end

end Value

end EntitySchema
