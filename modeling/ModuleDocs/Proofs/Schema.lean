import Mathlib
import ModuleDocs.Normalize

/-!
# Schemas with further lines

Lines are added to a schema one after the other, and of several lines about one key the last
counts.  So an extended schema gives a key the shape that the last line about it names, and every
other key the shape that it had (`Schema.get?_extend`).  Only a word that names no shape is refused
(`Schema.exists_extend_iff`).
-/

namespace ModuleDocs

namespace Shape

/-- The word names a shape. -/
def IsName (name : Text) : Prop := name = Shape.text.name ∨ name = Shape.textList.name

theorem isName_iff {name : Text} : IsName name ↔ ∀ word, ofName name ≠ .unknown word := by
  unfold IsName ofName
  split
  · exact iff_of_true (Or.inl ‹_›) nofun
  split
  · exact iff_of_true (Or.inr ‹_›) nofun
  · rename_i htext htextList
    exact iff_of_false (fun h => h.elim htext htextList) fun h => h name rfl

end Shape

namespace Schema

variable {schema schema' : Schema} {key name : Text} {lines : List (Text × Text)}

theorem get?_cons (line : Text × Shape) (schema : Schema) :
    get? name (line :: schema) = if line.1 = name then some line.2 else get? name schema := by
  by_cases h : line.1 = name <;> simp [get?, h]

/-- A key that is written has its new shape, and all others have the one that they had. -/
theorem get?_set (key : Text) (shape : Shape) (schema : Schema) :
    get? name (set key shape schema) = if key = name then some shape else get? name schema := by
  induction schema with
  | nil => exact get?_cons (key, shape) []
  | cons line rest ih =>
    rw [set]
    split
    · rename_i hkey
      rw [get?_cons, get?_cons, hkey]
      split <;> rfl
    · rename_i hkey
      rw [get?_cons, get?_cons, ih]
      by_cases hname : line.1 = name
      · rw [if_pos hname, if_pos hname, if_neg fun h => hkey (hname.trans h.symm)]
      · rw [if_neg hname, if_neg hname]

theorem extend_cons_eq_ok_iff {word : Text} : extend schema ((key, word) :: lines) = .ok schema' ↔
    Shape.IsName word ∧ extend (set key (Shape.ofName word) schema) lines = .ok schema' := by
  rw [extend]
  split
  · rename_i other hshape
    exact iff_of_false nofun fun h => Shape.isName_iff.1 h.1 other hshape
  · rename_i hshape
    rw [and_iff_right (Shape.isName_iff.2 hshape)]

/-- A schema is extended by lines that each name a shape, and by no others. -/
theorem exists_extend_iff :
    (∃ schema', extend schema lines = .ok schema') ↔ ∀ line ∈ lines, Shape.IsName line.2 := by
  induction lines generalizing schema with
  | nil => simp [extend]
  | cons line lines ih =>
    obtain ⟨key, word⟩ := line
    simp only [extend_cons_eq_ok_iff, exists_and_left, ih, List.forall_mem_cons]

/-- The last line about a key gives its shape; a key that no line is about has the one that it
had. -/
theorem get?_extend (h : extend schema lines = .ok schema') (name : Text) :
    get? name schema' = ((lines.reverse.lookup name).map Shape.ofName).or (get? name schema) := by
  induction lines generalizing schema with
  | nil =>
    cases h
    rfl
  | cons line lines ih =>
    obtain ⟨key, word⟩ := line
    rw [ih (extend_cons_eq_ok_iff.1 h).2, get?_set, List.reverse_cons, List.lookup_append,
      Option.map_or, Option.or_assoc]
    congr 1
    by_cases hkey : key = name
    · simp [hkey]
    · have hother : (name == key) = false := by simpa using Ne.symm hkey
      simp [hkey, List.lookup, hother]

end Schema

end ModuleDocs
