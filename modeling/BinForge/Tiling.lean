import Mathlib

/-!
# Tilings

Items that have a first position and a size tile a range when each begins
where the one before it ends.  A position inside the range then belongs to one
item, and an item is known by its first position.
-/

namespace Tiling

variable {α : Type} {first size : α → ℕ}

/-- The items cover the range from `start` to `stop`, one behind the other. -/
def Tiles (first size : α → ℕ) : ℕ → List α → ℕ → Prop
  | start, [], stop => start = stop
  | start, item :: items, stop =>
      first item = start ∧ 0 < size item ∧
        Tiles first size (start + size item) items stop

namespace Tiles

variable {start stop : ℕ} {item : α} {items more : List α}

theorem stop_eq (htiles : Tiles first size start items stop) :
    stop = start + (items.map size).sum := by
  induction items generalizing start with
  | nil => exact htiles.symm
  | cons item items ih =>
      obtain ⟨-, -, hrest⟩ := htiles
      rw [ih hrest, List.map_cons, List.sum_cons, Nat.add_assoc]

theorem le (htiles : Tiles first size start items stop) : start ≤ stop := by
  rw [htiles.stop_eq]
  exact Nat.le_add_right _ _

theorem append_iff : Tiles first size start (items ++ more) stop ↔
    ∃ middle, Tiles first size start items middle ∧
      Tiles first size middle more stop := by
  induction items generalizing start with
  | nil => simp [Tiles]
  | cons item items ih =>
      simp only [List.cons_append, Tiles, ih]
      constructor
      · rintro ⟨hfirst, hpositive, middle, hitems, hmore⟩
        exact ⟨middle, ⟨hfirst, hpositive, hitems⟩, hmore⟩
      · rintro ⟨middle, ⟨hfirst, hpositive, hitems⟩, hmore⟩
        exact ⟨hfirst, hpositive, middle, hitems, hmore⟩

theorem within (htiles : Tiles first size start items stop)
    (hitem : item ∈ items) :
    start ≤ first item ∧ 0 < size item ∧ first item + size item ≤ stop := by
  obtain ⟨before, after, rfl⟩ := List.append_of_mem hitem
  obtain ⟨middle, hbefore, hfirst, hpositive, hafter⟩ := append_iff.mp htiles
  have hstart := hbefore.le
  have hstop := hafter.le
  omega

theorem lt_of_ne_nil (htiles : Tiles first size start items stop)
    (hitems : items ≠ []) : start < stop := by
  obtain ⟨item, hitem⟩ := List.exists_mem_of_ne_nil items hitems
  have hwithin := htiles.within hitem
  omega

/-- Cut a tiling at one of its items. -/
theorem around {before after : List α}
    (htiles : Tiles first size start (before ++ item :: after) stop) :
    Tiles first size start before (first item) ∧
      Tiles first size (first item + size item) after stop := by
  obtain ⟨middle, hbefore, hfirst, -, hafter⟩ := append_iff.mp htiles
  rw [hfirst]
  exact ⟨hbefore, hafter⟩

/-- A tiling stops where its last item ends. -/
theorem stop_eq_getLast (htiles : Tiles first size start items stop)
    (hitems : items ≠ []) :
    stop = first (items.getLast hitems) + size (items.getLast hitems) := by
  rw [← List.dropLast_append_getLast hitems] at htiles
  exact htiles.around.2.symm

/-- The item that ends where the tiling stops is the last one. -/
theorem eq_getLast (htiles : Tiles first size start items stop)
    (hitems : items ≠ []) (hitem : item ∈ items)
    (hend : first item + size item = stop) : item = items.getLast hitems := by
  have hstop := htiles.stop_eq_getLast hitems
  have hpositive := (htiles.within (List.getLast_mem hitems)).2.1
  have hsplit := List.dropLast_append_getLast hitems
  rw [← hsplit] at hitem
  rcases List.mem_append.mp hitem with hitem | hitem
  · rw [← hsplit] at htiles
    have hearlier := htiles.around.1.within hitem
    omega
  · exact List.mem_singleton.mp hitem

theorem first_head (htiles : Tiles first size start (item :: items) stop) :
    first item = start :=
  htiles.1

/-- Of two neighbours the second begins where the first ends. -/
theorem first_next {before after : List α} {next : α}
    (htiles : Tiles first size start (before ++ item :: next :: after) stop) :
    first next = first item + size item :=
  htiles.around.2.first_head

/-- Of two different items one lies behind the other. -/
theorem eq_or_apart (htiles : Tiles first size start items stop) {other : α}
    (hitem : item ∈ items) (hother : other ∈ items) :
    item = other ∨ first other + size other ≤ first item ∨
      first item + size item ≤ first other := by
  obtain ⟨before, after, rfl⟩ := List.append_of_mem hitem
  obtain ⟨hbefore, hafter⟩ := htiles.around
  rcases List.mem_append.mp hother with hother | hother
  · exact Or.inr (Or.inl (hbefore.within hother).2.2)
  · rcases List.mem_cons.mp hother with rfl | hother
    · exact Or.inl rfl
    · exact Or.inr (Or.inr (hafter.within hother).1)

/-- An item is known by its first position. -/
theorem eq_of_first (htiles : Tiles first size start items stop) {other : α}
    (hitem : item ∈ items) (hother : other ∈ items)
    (hsame : first item = first other) : item = other := by
  have hpositive := (htiles.within hitem).2.1
  have hpositiveOther := (htiles.within hother).2.1
  rcases htiles.eq_or_apart hitem hother with heq | hbefore | hbehind
  · exact heq
  · omega
  · omega

/-- The items that begin in the range of some neighbours are these. -/
theorem mem_middle {before rest : List α} {low high : ℕ}
    (htiles : Tiles first size start (before ++ (items ++ rest)) stop)
    (hmiddle : Tiles first size low items high) (hitems : items ≠ [])
    (hitem : item ∈ before ++ (items ++ rest)) (hlow : low ≤ first item)
    (hhigh : first item < high) : item ∈ items := by
  obtain ⟨middle, hbefore, hbehind⟩ := append_iff.mp htiles
  obtain ⟨upTo, hmiddle', hrest⟩ := append_iff.mp hbehind
  have hfrom : middle = low := by
    cases items with
    | nil => contradiction
    | cons head items => rw [← hmiddle'.first_head, hmiddle.first_head]
  have hupTo : upTo = high := by
    rw [hmiddle'.stop_eq, hmiddle.stop_eq, hfrom]
  rcases List.mem_append.mp hitem with hitem | hitem
  · have hearlier := hbefore.within hitem
    omega
  · rcases List.mem_append.mp hitem with hitem | hitem
    · exact hitem
    · have hlater := hrest.within hitem
      omega

/-- No item ends inside another one. -/
theorem not_inside (htiles : Tiles first size start items stop) {other : α}
    (hitem : item ∈ items) (hother : other ∈ items) :
    ¬(first item < first other + size other ∧
      first other + size other < first item + size item) := by
  rcases htiles.eq_or_apart hitem hother with rfl | hbefore | hbehind
  · omega
  · omega
  · omega

/-- The item that begins where another one ends is its neighbour. -/
theorem next_of_first (htiles : Tiles first size start items stop)
    {other : α} (hitem : item ∈ items) (hother : other ∈ items)
    (hnext : first other = first item + size item) :
    ∃ before after, items = before ++ item :: other :: after := by
  obtain ⟨before, after, rfl⟩ := List.append_of_mem hitem
  obtain ⟨hbefore, hafter⟩ := htiles.around
  have hpositive := (htiles.within hitem).2.1
  have hbehind : other ∈ after := by
    rcases List.mem_append.mp hother with hother | hother
    · have hearlier := hbefore.within hother
      omega
    · rcases List.mem_cons.mp hother with rfl | hother
      · omega
      · exact hother
  cases after with
  | nil => contradiction
  | cons next after =>
      have hsame : first next = first other := by
        rw [hafter.first_head, hnext]
      rw [hafter.eq_of_first List.mem_cons_self hbehind hsame]
      exact ⟨before, after, rfl⟩

end Tiles
end Tiling
