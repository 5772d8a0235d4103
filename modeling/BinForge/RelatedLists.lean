import Mathlib

/-!
# Lists related item by item

What one of two lists that are related position by position says about the
other: membership, positions and order.
-/

namespace RelatedLists

variable {α β : Type} {related : α → β → Prop} {lefts : List α}
  {rights : List β} {left : α} {right : β} {position : ℕ}

theorem exists_right (hall : List.Forall₂ related lefts rights)
    (hleft : left ∈ lefts) : ∃ right ∈ rights, related left right := by
  induction hall with
  | nil => contradiction
  | @cons first found _ rights hfirst _ ih =>
      rcases List.mem_cons.mp hleft with rfl | hrest
      · exact ⟨found, List.mem_cons_self, hfirst⟩
      · obtain ⟨right, hright, hrelated⟩ := ih hrest
        exact ⟨right, List.mem_cons_of_mem _ hright, hrelated⟩

theorem exists_left (hall : List.Forall₂ related lefts rights)
    (hright : right ∈ rights) : ∃ left ∈ lefts, related left right :=
  exists_right hall.flip hright

theorem exists_getElem? (hall : List.Forall₂ related lefts rights)
    (hright : rights[position]? = some right) :
    ∃ left, lefts[position]? = some left ∧ related left right := by
  induction hall generalizing position with
  | nil => simp at hright
  | @cons first _ _ _ hfirst _ ih =>
      cases position with
      | zero =>
          obtain rfl := Option.some.inj hright
          exact ⟨first, rfl, hfirst⟩
      | succ position => exact ih hright

/-- An order of the first list that the relation carries over. -/
theorem pairwise {before : α → α → Prop} {after : β → β → Prop}
    (hall : List.Forall₂ related lefts rights)
    (hstep : ∀ left right, related left right → ∀ left' right',
      related left' right' → before left left' → after right right')
    (hlefts : lefts.Pairwise before) : rights.Pairwise after := by
  induction hall with
  | nil => exact .nil
  | cons hfirst hrest ih =>
      obtain ⟨hhead, htail⟩ := List.pairwise_cons.mp hlefts
      refine List.pairwise_cons.mpr ⟨?_, ih htail⟩
      intro right hright
      obtain ⟨left, hleft, hrelated⟩ := exists_left hrest hright
      exact hstep _ _ hfirst _ _ hrelated (hhead left hleft)

/-- What holds of all of one list, said of the other. -/
theorem forall_mem_iff {valid : β → Prop} {allowed : α → Prop}
    (hall : List.Forall₂ related lefts rights)
    (hiff : ∀ left ∈ lefts, ∀ right, related left right →
      (valid right ↔ allowed left)) :
    (∀ right ∈ rights, valid right) ↔ ∀ left ∈ lefts, allowed left := by
  induction hall with
  | nil => simp
  | cons hfirst _ ih =>
      rw [List.forall_mem_cons] at hiff
      rw [List.forall_mem_cons, List.forall_mem_cons, ih hiff.2,
        hiff.1 _ hfirst]

/-- A further relation that amounts to a property of the first list. -/
theorem forall₂_iff {named : α → β → Prop} {leads : α → Prop}
    (hall : List.Forall₂ related lefts rights)
    (hiff : ∀ left right, related left right → (named left right ↔ leads left)) :
    List.Forall₂ named lefts rights ↔ ∀ left ∈ lefts, leads left := by
  induction hall with
  | nil => simp
  | cons hfirst _ ih =>
      rw [List.forall₂_cons, List.forall_mem_cons, ih, hiff _ _ hfirst]

end RelatedLists
