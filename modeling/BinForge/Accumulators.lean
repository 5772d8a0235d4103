import BinForge.PreferredMap

/-!
# Maps of accumulators

A map that is filled item by item, where an item changes the value under its
key and a new key starts from an initial value.  What stands under a key in the
end is the initial value changed by the items of that key, in order.  A set is
a map without values.
-/

namespace OrderedMap

variable {κ α β : Type} [LinearOrder κ] {initial : α} {map : OrderedMap κ α}
  {key other : κ} {change : α → α}

/-- Change the value under a key that is inserted if it is not there. -/
def accumulate (initial : α) (map : OrderedMap κ α) (key : κ)
    (change : α → α) : OrderedMap κ α :=
  (map.emplace key initial).adjust key change

theorem emplace_of_present {value : α} (hpresent : map.find? key = some value)
    (initial : α) : map.emplace key initial = map := by
  rw [emplace_eq_emplaceOr, emplaceOr, hpresent]
  exact if_neg Bool.false_ne_true

theorem find?_adjust_self :
    (map.adjust key change).find? key = (map.find? key).map change := by
  apply Option.ext
  intro value
  rw [find?_eq_some, mem_adjust, Option.map_eq_some_iff]
  constructor
  · rintro (⟨-, hother⟩ | ⟨found, hfound, hvalue⟩)
    · exact absurd rfl hother
    · exact ⟨found, find?_eq_some.mpr hfound, (Prod.mk.inj hvalue).2.symm⟩
  · rintro ⟨found, hfound, rfl⟩
    exact Or.inr ⟨found, find?_eq_some.mp hfound, rfl⟩

theorem find?_adjust_of_ne (hother : other ≠ key) :
    (map.adjust key change).find? other = map.find? other := by
  apply find?_congr
  intro value
  rw [mem_adjust]
  simp [hother]

theorem find?_accumulate_self :
    (accumulate initial map key change).find? key =
      some (change ((map.find? key).getD initial)) := by
  rw [accumulate, find?_adjust_self]
  cases hfind : map.find? key with
  | none => rw [find?_emplace_self initial hfind]; rfl
  | some value => rw [emplace_of_present hfind, hfind]; rfl

theorem find?_accumulate_of_ne (hother : other ≠ key) :
    (accumulate initial map key change).find? other = map.find? other := by
  rw [accumulate, find?_adjust_of_ne hother, emplace_eq_emplaceOr,
    find?_emplaceOr_of_ne initial _ hother]

/-! ## Many items -/

/-- The items put into a map, each under its key. -/
def gather (initial : α) (key : β → κ) (change : β → α → α) (items : List β) :
    OrderedMap κ α :=
  items.foldl (fun map item =>
    accumulate initial map (key item) (change item)) empty

variable {keyOf : β → κ} {changeOf : β → α → α} {items : List β}

theorem gather_concat (items : List β) (item : β) :
    gather initial keyOf changeOf (items ++ [item]) =
      accumulate initial (gather initial keyOf changeOf items) (keyOf item)
        (changeOf item) :=
  List.foldl_append

/-- Under a key stands what the items of that key make of the initial value. -/
theorem find?_gather :
    (gather initial keyOf changeOf items).find? key =
      if ∃ item ∈ items, keyOf item = key then
        some ((items.filter fun item => keyOf item = key).foldl
          (fun value item => changeOf item value) initial)
      else none := by
  induction items using List.reverseRecOn with
  | nil => rfl
  | append_singleton items item ih =>
      rw [gather_concat, List.filter_append, List.foldl_append]
      by_cases hkey : keyOf item = key
      · subst hkey
        have hlast : [item].filter (fun other => keyOf other = keyOf item) =
            [item] := by simp
        rw [find?_accumulate_self, ih, hlast,
          if_pos (c := ∃ other ∈ items ++ [item], keyOf other = keyOf item)
            ⟨item, by simp, rfl⟩]
        by_cases hpresent : ∃ other ∈ items, keyOf other = keyOf item
        · rw [if_pos hpresent]
          rfl
        · rw [if_neg hpresent, List.filter_eq_nil_iff.mpr]
          · rfl
          · intro other hother hsame
            exact hpresent ⟨other, hother, of_decide_eq_true hsame⟩
      · have hlast : [item].filter (fun other => keyOf other = key) = [] := by
          simp [hkey]
        rw [find?_accumulate_of_ne (Ne.symm hkey), ih, hlast, List.foldl_nil]
        refine if_congr ?_ rfl rfl
        simp [or_and_right, exists_or, hkey]

/-! ## Sets -/

theorem contains_iff :
    map.contains key = true ↔ ∃ value, map.find? key = some value :=
  Option.isSome_iff_exists

theorem contains_emplace {value : α} :
    (map.emplace key value).contains other = true ↔
      other = key ∨ map.contains other = true := by
  by_cases hother : other = key
  · subst hother
    refine iff_of_true ?_ (Or.inl rfl)
    cases hfind : map.find? other with
    | none => exact contains_iff.mpr ⟨_, find?_emplace_self value hfind⟩
    | some found =>
        rw [emplace_of_present hfind]
        exact contains_iff.mpr ⟨_, hfind⟩
  · rw [or_iff_right hother, contains, contains, emplace_eq_emplaceOr,
      find?_emplaceOr_of_ne value _ hother]

theorem contains_assign {value : α} :
    (map.assign key value).contains other = true ↔
      other = key ∨ map.contains other = true := by
  rw [assign, ← @contains_emplace _ _ _ map key other value, contains, contains]
  by_cases hother : other = key
  · rw [hother, find?_adjust_self, Option.isSome_map]
  · rw [find?_adjust_of_ne hother]

end OrderedMap
