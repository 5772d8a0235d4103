import Mathlib

/-!
# Ranges in order

The items of a list occupy ranges of the natural numbers.  Ranges that are
sorted by where they start and do not overlap stand one before the other, and
there is one such arrangement of given nonempty ranges.  Its ends are the ends
of its first and its last range.
-/

namespace RangeOrder

variable {α : Type} {start stop : α → ℕ} {left right first last : α}
  {items others : List α}

/-- The first range ends before the second one starts. -/
def Before (start stop : α → ℕ) (left right : α) : Prop :=
  stop left ≤ start right

/-- Some point lies in both ranges. -/
def Overlap (start stop : α → ℕ) (left right : α) : Prop :=
  ∃ point, (start left ≤ point ∧ point < stop left) ∧
    start right ≤ point ∧ point < stop right

/-- Every range has a point. -/
def Nonempty (start stop : α → ℕ) (items : List α) : Prop :=
  ∀ item ∈ items, start item < stop item

theorem Overlap.symm (hoverlap : Overlap start stop left right) :
    Overlap start stop right left := by
  obtain ⟨point, hleft, hright⟩ := hoverlap
  exact ⟨point, hright, hleft⟩

theorem Before.not_overlap (hbefore : Before start stop left right) :
    ¬Overlap start stop left right := by
  rintro ⟨point, ⟨-, hstop⟩, hstart, -⟩
  unfold Before at hbefore
  omega

theorem before_of_not_overlap (hsorted : start left ≤ start right)
    (hright : start right < stop right)
    (hapart : ¬Overlap start stop left right) :
    Before start stop left right := by
  by_contra hbefore
  apply hapart
  refine ⟨start right, ⟨hsorted, ?_⟩, le_refl _, hright⟩
  exact Nat.lt_of_not_le hbefore

theorem Nonempty.perm (hnonempty : Nonempty start stop items)
    (hperm : items.Perm others) : Nonempty start stop others :=
  fun item hitem => hnonempty item (hperm.mem_iff.mpr hitem)

/-- That no two items overlap does not depend on their order. -/
theorem pairwise_not_overlap_perm (hperm : items.Perm others) :
    (items.Pairwise fun left right => ¬Overlap start stop left right) ↔
      others.Pairwise fun left right => ¬Overlap start stop left right :=
  hperm.pairwise_iff fun hapart hoverlap => hapart hoverlap.symm

/-- Sorted by where they start, ranges without overlaps are in order. -/
theorem pairwise_before_of_sorted (hnonempty : Nonempty start stop items)
    (hsorted : items.Pairwise fun left right => start left ≤ start right)
    (hapart : items.Pairwise fun left right => ¬Overlap start stop left right) :
    items.Pairwise (Before start stop) := by
  apply (hsorted.and hapart).imp_of_mem
  intro left right _ hright ⟨hle, hdisjoint⟩
  exact before_of_not_overlap hle (hnonempty right hright) hdisjoint

/-- Nonempty ranges can be put in order in one way. -/
theorem eq_of_perm (hnonempty : Nonempty start stop items)
    (hitems : items.Pairwise (Before start stop))
    (hothers : others.Pairwise (Before start stop))
    (hperm : items.Perm others) : items = others := by
  refine hperm.eq_of_pairwise ?_ hitems hothers
  intro left right hleft hright hbefore hafter
  have hfirst := hnonempty left hleft
  have hsecond := hnonempty right (hperm.mem_iff.mpr hright)
  unfold Before at hbefore hafter
  omega

/-! ## The two ends -/

theorem isLeast_start (hnonempty : Nonempty start stop items)
    (hitems : items.Pairwise (Before start stop))
    (hfirst : items.head? = some first) :
    IsLeast {point | ∃ item ∈ items, start item = point} (start first) := by
  obtain ⟨rest, rfl⟩ := List.head?_eq_some_iff.mp hfirst
  refine ⟨⟨first, List.mem_cons_self, rfl⟩, ?_⟩
  rintro point ⟨item, hitem, rfl⟩
  rcases List.mem_cons.mp hitem with rfl | hrest
  · exact le_refl _
  · have hbefore : stop first ≤ start item :=
      (List.pairwise_cons.mp hitems).1 item hrest
    have hpoint := hnonempty first List.mem_cons_self
    omega

theorem isGreatest_stop (hnonempty : Nonempty start stop items)
    (hitems : items.Pairwise (Before start stop))
    (hlast : items.getLast? = some last) :
    IsGreatest {point | ∃ item ∈ items, stop item = point} (stop last) := by
  obtain ⟨front, rfl⟩ := List.getLast?_eq_some_iff.mp hlast
  have hmem : last ∈ front ++ [last] := by simp
  refine ⟨⟨last, hmem, rfl⟩, ?_⟩
  rintro point ⟨item, hitem, rfl⟩
  rcases List.mem_append.mp hitem with hfront | hsame
  · have hbefore : stop item ≤ start last :=
      (List.pairwise_append.mp hitems).2.2 item hfront last (by simp)
    have hpoint := hnonempty last hmem
    omega
  · rw [List.mem_singleton.mp hsame]

end RangeOrder
