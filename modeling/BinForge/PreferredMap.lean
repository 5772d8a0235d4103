import BinForge.OrderedMap

/-!
# Maps that keep one value of several under a key

The first value under a key stays until a preferred one comes, and the first
preferred one stays for good.  A list collected this way holds, under each key
of its values, the first preferred value with that key, or the first one when
none of them is preferred.
-/

namespace OrderedMap

variable {κ α : Type} [LinearOrder κ]

/-- Insert a value, or let it take the place of the one under its key. -/
def emplaceOr (map : OrderedMap κ α) (key : κ) (value : α)
    (replaces : α → Bool) : OrderedMap κ α :=
  match map.find? key with
  | none => map.emplace key value
  | some existing =>
      if replaces existing then map.adjust key fun _ => value else map

theorem emplace_eq_emplaceOr (map : OrderedMap κ α) (key : κ) (value : α) :
    map.emplace key value = map.emplaceOr key value fun _ => false := by
  unfold emplaceOr
  split
  · rfl
  · next existing hfind =>
      rw [if_neg Bool.false_ne_true]
      apply dif_neg
      intro habsent
      exact habsent (key, existing) (find?_eq_some.mp hfind) rfl

theorem find?_emplace_self {map : OrderedMap κ α} {key : κ} (value : α)
    (habsent : map.find? key = none) :
    (map.emplace key value).find? key = some value :=
  find?_eq_some.mpr
    ((mem_emplace (find?_eq_none.mp habsent)).mpr (Or.inl rfl))

theorem find?_congr {left right : OrderedMap κ α} {key : κ}
    (hsame : ∀ value,
      (key, value) ∈ left.entries ↔ (key, value) ∈ right.entries) :
    left.find? key = right.find? key := by
  apply Option.ext
  intro value
  rw [find?_eq_some, find?_eq_some, hsame]

theorem find?_emplaceOr_of_ne {map : OrderedMap κ α} {key other : κ}
    (value : α) (replaces : α → Bool) (hother : other ≠ key) :
    (map.emplaceOr key value replaces).find? other = map.find? other := by
  unfold emplaceOr
  split
  · apply find?_congr
    intro found
    rw [mem_emplace (find?_eq_none.mp ‹_›)]
    simp [hother]
  · split
    · apply find?_congr
      intro found
      rw [mem_adjust]
      simp [hother]
    · rfl

theorem find?_emplaceOr_self {map : OrderedMap κ α} {key : κ} (value : α)
    (replaces : α → Bool) :
    (map.emplaceOr key value replaces).find? key =
      match map.find? key with
      | none => some value
      | some existing => some (if replaces existing then value else existing) := by
  unfold emplaceOr
  cases hfind : map.find? key with
  | none => exact find?_emplace_self value hfind
  | some existing =>
      simp only
      split_ifs
      · rw [find?_eq_some, mem_adjust]
        exact Or.inr ⟨existing, find?_eq_some.mp hfind, rfl⟩
      · exact hfind

end OrderedMap

namespace PreferredMap

open OrderedMap

variable {κ α : Type} [LinearOrder κ] (key : α → κ) (prefers : α → Bool)

def add (map : OrderedMap κ α) (value : α) : OrderedMap κ α :=
  map.emplaceOr (key value) value fun existing =>
    !prefers existing && prefers value

def collect (values : List α) : OrderedMap κ α :=
  values.foldl (add key prefers) empty

/-- The first preferred value, or else the first. -/
def preferred (values : List α) : Option α :=
  (values.find? prefers).or values.head?

variable {key prefers}

theorem preferred_eq_none {values : List α} :
    preferred prefers values = none ↔ values = [] := by
  cases values <;> simp [preferred]

theorem preferred_mem {values : List α} {value : α}
    (hvalue : preferred prefers values = some value) : value ∈ values := by
  rcases Option.or_eq_some_iff.mp hvalue with hfind | ⟨-, hhead⟩
  · exact List.mem_of_find?_eq_some hfind
  · exact List.mem_of_head? hhead

theorem preferred_append_singleton (values : List α) (value : α) :
    preferred prefers (values ++ [value]) =
      match preferred prefers values with
      | none => some value
      | some existing =>
          some (if !prefers existing && prefers value then value
            else existing) := by
  unfold preferred
  rw [List.find?_append, List.head?_append]
  cases hfind : values.find? prefers with
  | some found =>
      have hpreferred : prefers found = true := List.find?_some hfind
      simp [hpreferred]
  | none =>
      cases hhead : values.head? with
      | none =>
          by_cases hvalue : prefers value = true <;> simp [hvalue]
      | some first =>
          have hfirst : ¬prefers first = true := List.find?_eq_none.mp hfind
            first (List.mem_of_head? hhead)
          by_cases hvalue : prefers value = true <;> simp [hvalue, hfirst]

theorem collect_append_singleton (values : List α) (value : α) :
    collect key prefers (values ++ [value]) =
      add key prefers (collect key prefers values) value := by
  rw [collect, List.foldl_append]
  rfl

/-- What a collected list holds under a key, by any test for the key. -/
theorem find?_collect {values : List α} {wanted : κ} {test : α → Bool}
    (htest : ∀ value ∈ values, test value = true ↔ key value = wanted) :
    (collect key prefers values).find? wanted =
      preferred prefers (values.filter test) := by
  induction values using List.reverseRecOn with
  | nil => rfl
  | append_singleton values value ih =>
      have hlast := htest value (by simp)
      have hfront := ih fun other hother =>
        htest other (List.mem_append_left _ hother)
      rw [collect_append_singleton, add, List.filter_append,
        List.filter_singleton]
      by_cases hkey : key value = wanted
      · rw [hlast.mpr hkey, cond_true, preferred_append_singleton]
        subst hkey
        rw [find?_emplaceOr_self, hfront]
      · rw [Bool.eq_false_iff.mpr (mt hlast.mp hkey), cond_false,
          List.append_nil, find?_emplaceOr_of_ne _ _ (Ne.symm hkey), hfront]

theorem find?_collect_eq_none {values : List α} {wanted : κ} :
    (collect key prefers values).find? wanted = none ↔
      ∀ value ∈ values, key value ≠ wanted := by
  rw [find?_collect fun _ _ => decide_eq_true_iff, preferred_eq_none,
    List.filter_eq_nil_iff]
  simp

theorem exists_entry_iff {values : List α} {wanted : κ} :
    (∃ entry ∈ (collect key prefers values).entries, entry.1 = wanted) ↔
      ∃ value ∈ values, key value = wanted := by
  have hnone : (∀ entry ∈ (collect key prefers values).entries,
      entry.1 ≠ wanted) ↔ ∀ value ∈ values, key value ≠ wanted :=
    find?_eq_none.symm.trans find?_collect_eq_none
  simpa using not_congr hnone

theorem preferred_eq_head?_iff {values : List α} :
    preferred prefers values = values.head? ↔
      ∀ first ∈ values.head?, prefers first = false →
        ∀ value ∈ values, prefers value = false := by
  cases values with
  | nil => simp [preferred]
  | cons first rest =>
      rw [preferred, List.head?_cons]
      by_cases hfirst : prefers first = true
      · simp [hfirst]
      · rw [List.find?_cons_of_neg hfirst]
        cases hfind : rest.find? prefers with
        | none => simp_all
        | some found =>
            have hfound : prefers found = true := List.find?_some hfind
            have hmem := List.mem_of_find?_eq_some hfind
            have hother : found ≠ first := by
              rintro rfl
              exact hfirst hfound
            simp only [Option.some_or, Option.some.injEq, hother, false_iff]
            intro hall
            have hnone := hall first rfl (Bool.eq_false_iff.mpr hfirst) found
              (List.mem_cons_of_mem _ hmem)
            exact Bool.false_ne_true (hnone.symm.trans hfound)

end PreferredMap
