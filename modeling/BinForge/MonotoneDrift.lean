import Mathlib

/-!
# Values carried along a monotone displacement

Some of the positions of a tape are displaced, in an order-preserving way, and
every displaced position shows the value it came from.  All other positions
show one fixed value.  Since a monotone displacement has no cycles but its
fixed points, a value that really moves would have to move on for ever; so only
fixed points can show anything but the fixed value.
-/

namespace MonotoneDrift

variable {α : Type} {moves : ℕ → ℕ → Prop} {value : ℕ → α} {rest : α}

/-- Displacements keep the order of positions. -/
def Monotone (moves : ℕ → ℕ → Prop) : Prop :=
  ∀ x y x' y', moves x y → moves x' y' → x < x' → y < y'

theorem eq_rest_of_lt (hmonotone : Monotone moves) {bound : ℕ}
    (hbound : ∀ x y, moves x y → x < bound)
    (hkeep : ∀ x y, moves x y → value y = value x)
    (hrest : ∀ x, (∀ y, ¬moves x y) → value x = rest) {x y : ℕ}
    (hmoves : moves x y) (hup : x < y) : value x = rest := by
  -- Induction on the distance to the bound: the next position is nearer.
  induction hdistance : bound - x using Nat.strong_induction_on generalizing x y with
  | _ distance ih =>
      rw [← hkeep x y hmoves]
      by_cases hnext : ∃ z, moves y z
      · obtain ⟨z, hz⟩ := hnext
        have hx := hbound x y hmoves
        have hy := hbound y z hz
        exact ih (bound - y) (by omega) hz (hmonotone x y y z hmoves hz hup) rfl
      · exact hrest y (not_exists.mp hnext)

theorem eq_rest_of_gt (hmonotone : Monotone moves)
    (hkeep : ∀ x y, moves x y → value y = value x)
    (hrest : ∀ x, (∀ y, ¬moves x y) → value x = rest) {x y : ℕ}
    (hmoves : moves x y) (hdown : y < x) : value x = rest := by
  induction x using Nat.strong_induction_on generalizing y with
  | _ x ih =>
      rw [← hkeep x y hmoves]
      by_cases hnext : ∃ z, moves y z
      · obtain ⟨z, hz⟩ := hnext
        exact ih y hdown hz (hmonotone y z x y hz hmoves hdown)
      · exact hrest y (not_exists.mp hnext)

/-- A value that moves is the fixed one. -/
theorem eq_rest_of_moves (hmonotone : Monotone moves) {bound : ℕ}
    (hbound : ∀ x y, moves x y → x < bound)
    (hkeep : ∀ x y, moves x y → value y = value x)
    (hrest : ∀ x, (∀ y, ¬moves x y) → value x = rest) {x y : ℕ}
    (hmoves : moves x y) (hmoved : x ≠ y) : value x = rest := by
  rcases Nat.lt_or_gt_of_ne hmoved with hup | hdown
  · exact eq_rest_of_lt hmonotone hbound hkeep hrest hmoves hup
  · exact eq_rest_of_gt hmonotone hkeep hrest hmoves hdown

/-! ## Shifts -/

/-- The stored positions, displaced by a fixed distance. -/
def Shift (stored : ℕ → Prop) (here there : ℕ) (x y : ℕ) : Prop :=
  stored x ∧ y + here = x + there

theorem shift_monotone (stored : ℕ → Prop) (here there : ℕ) :
    Monotone (Shift stored here there) := by
  rintro x y x' y' ⟨_, hy⟩ ⟨_, hy'⟩ hless
  omega

/-- Stored positions that show their values a fixed distance away too hold the
fixed value. -/
theorem eq_rest_of_shift {stored : ℕ → Prop} {bound here there : ℕ}
    (hmoved : here ≠ there) (hbound : ∀ x, stored x → x < bound)
    (hreach : ∀ x, stored x → here ≤ x + there)
    (hkeep : ∀ x, stored x → ∀ y, y + here = x + there → value y = value x)
    (hrest : ∀ x, ¬stored x → value x = rest) {x : ℕ} (hx : stored x) :
    value x = rest := by
  have hplace := hreach x hx
  have hmoves : Shift stored here there x (x + there - here) :=
    ⟨hx, Nat.sub_add_cancel hplace⟩
  refine eq_rest_of_moves (shift_monotone stored here there)
    (fun x y h => hbound x h.1) (fun x y h => hkeep x h.1 y h.2)
    (fun x hstill => hrest x fun hstored => ?_) hmoves (by omega)
  exact hstill _ ⟨hstored, Nat.sub_add_cancel (hreach x hstored)⟩

end MonotoneDrift
