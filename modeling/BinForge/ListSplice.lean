import Mathlib

/-!
# Slices of a list and writing over them

`slice` copies a range out of a list and `splice` copies a list over a range,
as a block copy does on an array.  The laws say what a later slice sees and
that writing an old slice back undoes any write of the same range.
-/

namespace ListSplice

variable {α : Type}

/-- The `length` items starting at `offset`. -/
def slice (items : List α) (offset length : ℕ) : List α :=
  (items.drop offset).take length

/-- Copy `patch` over the items starting at `offset`. -/
def splice (items : List α) (offset : ℕ) (patch : List α) : List α :=
  items.take offset ++ patch ++ items.drop (offset + patch.length)

theorem slice_length {items : List α} {offset length : ℕ}
    (hfit : offset + length ≤ items.length) :
    (slice items offset length).length = length := by
  simp only [slice, List.length_take, List.length_drop]
  omega

theorem slice_getElem? (items : List α) (offset length i : ℕ) :
    (slice items offset length)[i]? =
      if i < length then items[offset + i]? else none := by
  simp only [slice, List.getElem?_take, List.getElem?_drop]

/-- A range inside a range. -/
theorem slice_slice {items : List α} {offset length start count : ℕ}
    (hfit : start + count ≤ length) :
    slice (slice items offset length) start count =
      slice items (offset + start) count := by
  rw [slice, slice, slice, List.drop_take, List.drop_drop, List.take_take,
    Nat.min_eq_left (by omega)]

/-- A range inside the front of a list. -/
theorem slice_append_left {front back : List α} {offset length : ℕ}
    (hfit : offset + length ≤ front.length) :
    slice (front ++ back) offset length = slice front offset length := by
  rw [slice, slice, List.drop_append_of_le_length (by omega),
    List.take_append_of_le_length (by rw [List.length_drop]; omega)]

theorem take_slice_drop (items : List α) (offset length : ℕ) :
    items.take offset ++ slice items offset length ++
      items.drop (offset + length) = items := by
  rw [slice, List.append_assoc, ← List.drop_drop, List.take_append_drop,
    List.take_append_drop]

theorem take_congr {first second : List α} {count : ℕ}
    (hagree : ∀ i < count, second[i]? = first[i]?) :
    second.take count = first.take count := by
  refine List.ext_getElem? fun i => ?_
  rw [List.getElem?_take, List.getElem?_take]
  split
  · next hi => exact hagree i hi
  · rfl

theorem drop_congr {first second : List α} {count : ℕ}
    (hagree : ∀ i, count ≤ i → second[i]? = first[i]?) :
    second.drop count = first.drop count := by
  refine List.ext_getElem? fun i => ?_
  rw [List.getElem?_drop, List.getElem?_drop]
  exact hagree _ (Nat.le_add_right _ _)

theorem splice_length {items patch : List α} {offset : ℕ}
    (hfit : offset + patch.length ≤ items.length) :
    (splice items offset patch).length = items.length := by
  simp only [splice, List.length_append, List.length_take, List.length_drop]
  omega

theorem splice_getElem? {items patch : List α} {offset : ℕ}
    (hfit : offset + patch.length ≤ items.length) (i : ℕ) :
    (splice items offset patch)[i]? =
      if offset ≤ i ∧ i < offset + patch.length then patch[i - offset]?
      else items[i]? := by
  have htake : (items.take offset).length = offset := by
    rw [List.length_take]
    omega
  by_cases hbefore : i < offset
  · rw [if_neg (by omega), splice, List.append_assoc,
      List.getElem?_append_left (by omega), List.getElem?_take,
      if_pos hbefore]
  · by_cases hinside : i < offset + patch.length
    · rw [if_pos (by omega), splice, List.append_assoc,
        List.getElem?_append_right (by omega), htake,
        List.getElem?_append_left (by omega)]
    · rw [if_neg (by omega), splice,
        List.getElem?_append_right (by simp only [List.length_append]; omega),
        List.getElem?_drop, List.length_append, htake]
      congr 1
      omega

theorem splice_splice_self {items first second : List α} {offset : ℕ}
    (hfit : offset + first.length ≤ items.length)
    (hlength : first.length = second.length) :
    splice (splice items offset first) offset second =
      splice items offset second := by
  have hsecond : offset + second.length ≤ items.length := by omega
  have houter : offset + second.length ≤
      (splice items offset first).length := by
    rw [splice_length hfit]
    exact hsecond
  apply List.ext_getElem?
  intro i
  rw [splice_getElem? houter, splice_getElem? hfit, splice_getElem? hsecond,
    hlength]
  split <;> rfl

theorem splice_slice_self {items : List α} {offset length : ℕ}
    (hfit : offset + length ≤ items.length) :
    splice items offset (slice items offset length) = items := by
  have hlength := slice_length hfit
  apply List.ext_getElem?
  intro i
  rw [splice_getElem? (by omega), slice_getElem?, hlength]
  by_cases hinside : offset ≤ i ∧ i < offset + length
  · rw [if_pos hinside, if_pos (by omega), Nat.add_sub_cancel' hinside.1]
  · rw [if_neg hinside]

theorem splice_undo {items patch : List α} {offset length : ℕ}
    (hfit : offset + length ≤ items.length) (hlength : patch.length = length) :
    splice (splice items offset patch) offset (slice items offset length) =
      items := by
  rw [splice_splice_self (by omega) (by rw [slice_length hfit, hlength]),
    splice_slice_self hfit]

theorem splice_whole {items patch : List α}
    (hlength : patch.length = items.length) : splice items 0 patch = patch := by
  simp [splice, hlength]

theorem splice_nil (items : List α) (offset : ℕ) :
    splice items offset [] = items := by
  simp [splice]

end ListSplice
