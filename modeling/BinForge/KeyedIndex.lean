import BinForge.OrderedMap

/-!
# Indexing a list by a key

Emplacing the values of a list under their keys keeps the first value of every
key and drops the values that repeat one.  This file splits a list into the
two parts and compares two indexes through a view of their values.
-/

namespace OrderedMap

variable {κ α β : Type} [LinearOrder κ]

/-- The values under their keys, the first value of every key. -/
def index (key : α → κ) (values : List α) : OrderedMap κ α :=
  values.foldl (fun map value => map.emplace (key value) value) empty

end OrderedMap

namespace KeyedIndex

open OrderedMap

variable {κ α β : Type} [LinearOrder κ] {key : α → κ}

/-- The values whose key is new, given the keys seen before. -/
def firsts (key : α → κ) : List κ → List α → List α
  | _, [] => []
  | seen, value :: rest =>
      if seen.contains (key value) then firsts key seen rest
      else value :: firsts key (key value :: seen) rest

/-- The values whose key was seen before. -/
def repeats (key : α → κ) : List κ → List α → List α
  | _, [] => []
  | seen, value :: rest =>
      if seen.contains (key value) then value :: repeats key seen rest
      else repeats key (key value :: seen) rest

theorem repeats_of_mem {seen : List κ} {value : α} (hseen : key value ∈ seen)
    (rest : List α) :
    repeats key seen (value :: rest) = value :: repeats key seen rest := by
  rw [repeats, if_pos (List.contains_iff_mem.mpr hseen)]

theorem repeats_of_not_mem {seen : List κ} {value : α}
    (hseen : key value ∉ seen) (rest : List α) :
    repeats key seen (value :: rest) =
      repeats key (key value :: seen) rest := by
  rw [repeats, if_neg (mt List.contains_iff_mem.mp hseen)]

theorem firsts_append_repeats (seen : List κ) (values : List α) :
    (firsts key seen values ++ repeats key seen values).Perm values := by
  induction values generalizing seen with
  | nil => exact List.Perm.refl _
  | cons value rest ih =>
      rw [firsts, repeats]
      split_ifs
      · exact List.perm_middle.trans ((ih seen).cons value)
      · exact (ih (key value :: seen)).cons value

/-- Emplacing keeps the firsts. -/
theorem foldl_emplace_perm (values : List α) (map : OrderedMap κ α)
    (seen : List κ)
    (hseen : ∀ candidate, candidate ∈ seen ↔
      ∃ entry ∈ map.entries, entry.1 = candidate) :
    (values.foldl (fun map value => map.emplace (key value) value)
        map).entries.Perm
      (map.entries ++
        (firsts key seen values).map fun value => (key value, value)) := by
  induction values generalizing map seen with
  | nil => simp [firsts]
  | cons value rest ih =>
      rw [List.foldl_cons, firsts]
      by_cases hpresent : key value ∈ seen
      · obtain ⟨entry, hentry, hkey⟩ := (hseen _).mp hpresent
        have hsame : map.emplace (key value) value = map :=
          dif_neg fun habsent => habsent entry hentry hkey
        rw [if_pos (List.contains_iff_mem.mpr hpresent), hsame]
        exact ih map seen hseen
      · have habsent : ∀ entry ∈ map.entries, entry.1 ≠ key value :=
          fun entry hentry hkey =>
            hpresent ((hseen _).mpr ⟨entry, hentry, hkey⟩)
        rw [if_neg (mt List.contains_iff_mem.mp hpresent)]
        refine (ih _ (key value :: seen) fun candidate => ?_).trans ?_
        · simp only [mem_emplace habsent, List.mem_cons, hseen]
          constructor
          · rintro (rfl | ⟨entry, hentry, rfl⟩)
            · exact ⟨_, Or.inl rfl, rfl⟩
            · exact ⟨entry, Or.inr hentry, rfl⟩
          · rintro ⟨entry, rfl | hentry, rfl⟩
            · exact Or.inl rfl
            · exact Or.inr ⟨entry, hentry, rfl⟩
        · rw [List.map_cons]
          exact ((emplace_perm value habsent).append_right _).trans
            List.perm_middle.symm

theorem index_perm (values : List α) :
    (index key values).entries.Perm
      ((firsts key [] values).map fun value => (key value, value)) :=
  foldl_emplace_perm values empty [] (by simp [empty])

/-! ## Comparing two maps through a view of their values -/

variable (view : α → β) {left right : OrderedMap κ α}

theorem keys_nodup (map : OrderedMap κ α) :
    (map.entries.map Prod.fst).Nodup :=
  List.pairwise_map.mpr (map.sorted.imp fun hlt => hlt.ne)

/-- Every key of either map is a key of the other, with the same view. -/
def Agree (left right : OrderedMap κ α) : Prop :=
  (∀ entry ∈ left.entries, ∃ value, right.find? entry.1 = some value ∧
      view entry.2 = view value) ∧
    ∀ entry ∈ right.entries, left.contains entry.1 = true

theorem Agree.entries_subset (hagree : Agree view left right) :
    ∀ item, item ∈ left.entries.map (fun entry => (entry.1, view entry.2)) ↔
      item ∈ right.entries.map fun entry => (entry.1, view entry.2) := by
  intro item
  simp only [List.mem_map]
  constructor
  · rintro ⟨entry, hentry, rfl⟩
    obtain ⟨value, hfind, hview⟩ := hagree.1 entry hentry
    exact ⟨_, find?_eq_some.mp hfind, by rw [hview]⟩
  · rintro ⟨entry, hentry, rfl⟩
    obtain ⟨value, hfind⟩ := Option.isSome_iff_exists.mp (hagree.2 entry hentry)
    obtain ⟨other, hother, hview⟩ := hagree.1 _ (find?_eq_some.mp hfind)
    have hsame := hother.symm.trans (find?_eq_some.mpr hentry)
    obtain rfl := Option.some.inj hsame
    exact ⟨_, find?_eq_some.mp hfind, by rw [hview]⟩

/-- Two maps agree when they list the same keys with the same views. -/
theorem agree_iff_perm :
    Agree view left right ↔
      (left.entries.map fun entry => (entry.1, view entry.2)).Perm
        (right.entries.map fun entry => (entry.1, view entry.2)) := by
  have hnodup : ∀ map : OrderedMap κ α,
      (map.entries.map fun entry => (entry.1, view entry.2)).Nodup := by
    intro map
    refine List.Nodup.of_map Prod.fst ?_
    rw [List.map_map]
    exact keys_nodup map
  constructor
  · intro hagree
    exact (List.perm_ext_iff_of_nodup (hnodup left) (hnodup right)).mpr
      hagree.entries_subset
  · intro hperm
    constructor
    · intro entry hentry
      have hitem := hperm.mem_iff.mp (List.mem_map_of_mem hentry)
      obtain ⟨other, hother, hsame⟩ := List.mem_map.mp hitem
      obtain ⟨hkey, hview⟩ := Prod.mk.inj hsame
      exact ⟨other.2, find?_eq_some.mpr (by rw [← hkey]; exact hother),
        hview.symm⟩
    · intro entry hentry
      have hitem := hperm.mem_iff.mpr (List.mem_map_of_mem hentry)
      obtain ⟨other, hother, hsame⟩ := List.mem_map.mp hitem
      obtain ⟨hkey, -⟩ := Prod.mk.inj hsame
      exact Option.isSome_iff_exists.mpr
        ⟨other.2, find?_eq_some.mpr (by rw [← hkey]; exact hother)⟩

/-- Two indexes agree when the first values of their keys do. -/
theorem agree_index_iff {first second : List α} :
    Agree view (index key first) (index key second) ↔
      ((firsts key [] first).map fun value => (key value, view value)).Perm
        ((firsts key [] second).map fun value => (key value, view value)) := by
  have hmap : ∀ values : List α,
      ((index key values).entries.map fun entry =>
        (entry.1, view entry.2)).Perm
          ((firsts key [] values).map fun value => (key value, view value)) := by
    intro values
    have hperm := (@index_perm _ _ _ key values).map
      fun entry => (entry.1, view entry.2)
    rwa [List.map_map] at hperm
  rw [agree_iff_perm]
  exact ⟨fun hperm => (hmap first).symm.trans (hperm.trans (hmap second)),
    fun hperm => (hmap first).trans (hperm.trans (hmap second).symm)⟩

/-! ## Counting what differs -/

variable [DecidableEq β]

/-- The entry's key is in the other map, with another view. -/
def changedIn (other : OrderedMap κ α) (entry : κ × α) : Bool :=
  match other.find? entry.1 with
  | none => false
  | some value => decide (view entry.2 ≠ view value)

theorem mem_changed {map other : OrderedMap κ α} {candidate : κ} :
    candidate ∈ (map.entries.filter (changedIn view other)).map Prod.fst ↔
      ∃ first second, map.find? candidate = some first ∧
        other.find? candidate = some second ∧ view first ≠ view second := by
  simp only [List.mem_map, List.mem_filter]
  constructor
  · rintro ⟨entry, ⟨hentry, hchanged⟩, rfl⟩
    unfold changedIn at hchanged
    cases hfind : other.find? entry.1 with
    | none =>
        rw [hfind] at hchanged
        contradiction
    | some value =>
        rw [hfind] at hchanged
        exact ⟨entry.2, value, find?_eq_some.mpr hentry, rfl,
          of_decide_eq_true hchanged⟩
  · rintro ⟨first, second, hfirst, hsecond, hne⟩
    refine ⟨(candidate, first), ⟨find?_eq_some.mp hfirst, ?_⟩, rfl⟩
    rw [changedIn, hsecond]
    exact decide_eq_true hne

/-- As many keys are changed in one direction as in the other. -/
theorem countP_changed_comm (left right : OrderedMap κ α) :
    left.entries.countP (changedIn view right) =
      right.entries.countP (changedIn view left) := by
  have hnodup : ∀ map other : OrderedMap κ α,
      ((map.entries.filter (changedIn view other)).map Prod.fst).Nodup :=
    fun map other => (keys_nodup map).sublist
      (List.filter_sublist.map Prod.fst)
  have hperm := (List.perm_ext_iff_of_nodup (hnodup left right)
    (hnodup right left)).mpr fun candidate => by
      rw [mem_changed, mem_changed]
      constructor
      · rintro ⟨first, second, hfirst, hsecond, hne⟩
        exact ⟨second, first, hsecond, hfirst, hne.symm⟩
      · rintro ⟨first, second, hfirst, hsecond, hne⟩
        exact ⟨second, first, hsecond, hfirst, hne.symm⟩
  have hlength := hperm.length_eq
  rwa [List.length_map, List.length_map, ← List.countP_eq_length_filter,
    ← List.countP_eq_length_filter] at hlength

end KeyedIndex
