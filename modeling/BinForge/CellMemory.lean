import Mathlib

/-!
# Partial memories of single cells

A partial memory assigns a cell to each mapped address.  Storing a run of
cells and loading one are its only operations; everything a block copy does to
an implementation is stated against them.
-/

/-- A cell for each mapped address. -/
abbrev CellMemory (β : Type) := ℕ → Option β

namespace CellMemory

variable {β : Type}

/-- Put `cells` at the addresses from `address` on. -/
def store (memory : CellMemory β) (address : ℕ) (cells : List β) :
    CellMemory β := fun target =>
  if address ≤ target ∧ target < address + cells.length then
    cells[target - address]?
  else memory target

/-- The mapped cells among the `length` addresses from `address` on. -/
def load (memory : CellMemory β) (address : ℕ) : ℕ → List β
  | 0 => []
  | length + 1 => (memory address).toList ++ load memory (address + 1) length

/-- A load sees the cells of its range only. -/
theorem load_congr {first second : CellMemory β} {address length : ℕ}
    (hsame : ∀ target, address ≤ target → target < address + length →
      first target = second target) :
    first.load address length = second.load address length := by
  induction length generalizing address with
  | zero => rfl
  | succ length ih =>
      rw [load, load, hsame address (by omega) (by omega),
        ih fun target hlow hhigh => hsame target (by omega) (by omega)]

theorem store_inside {memory : CellMemory β} {address target : ℕ}
    {cells : List β} (hlow : address ≤ target)
    (hhigh : target < address + cells.length) :
    memory.store address cells target = cells[target - address]? := by
  rw [store, if_pos ⟨hlow, hhigh⟩]

theorem store_outside {memory : CellMemory β} {address target : ℕ}
    {cells : List β}
    (houtside : target < address ∨ address + cells.length ≤ target) :
    memory.store address cells target = memory target := by
  rw [store, if_neg (by omega)]

@[simp] theorem store_nil (memory : CellMemory β) (address : ℕ) :
    memory.store address [] = memory := by
  funext target
  exact store_outside (by simp only [List.length_nil]; omega)

/-- Stores to ranges that do not meet may be made in either order. -/
theorem store_comm {memory : CellMemory β} {left right : ℕ}
    {first second : List β}
    (hapart : left + first.length ≤ right ∨ right + second.length ≤ left) :
    (memory.store left first).store right second =
      (memory.store right second).store left first := by
  funext target
  by_cases hleft : left ≤ target ∧ target < left + first.length
  · rw [@store_outside _ (memory.store left first) _ _ _ (by omega),
      store_inside hleft.1 hleft.2, store_inside hleft.1 hleft.2]
  · have hmissed : target < left ∨ left + first.length ≤ target := by omega
    rw [@store_outside _ (memory.store right second) _ _ _ hmissed]
    by_cases hright : right ≤ target ∧ target < right + second.length
    · rw [store_inside hright.1 hright.2, store_inside hright.1 hright.2]
    · rw [store_outside (by omega), store_outside hmissed,
        store_outside (by omega)]

theorem load_eq {memory : CellMemory β} {address : ℕ} {cells : List β}
    (hcells : ∀ i, i < cells.length → memory (address + i) = cells[i]?) :
    memory.load address cells.length = cells := by
  induction cells generalizing address with
  | nil => rfl
  | cons cell cells ih =>
      have hhead : memory address = some cell := by
        simpa using hcells 0 (by simp)
      have htail : memory.load (address + 1) cells.length = cells := ih fun i hi => by
        have hnext := hcells (i + 1) (by simpa using hi)
        rw [List.getElem?_cons_succ] at hnext
        rw [← hnext]
        congr 1
        omega
      rw [List.length_cons, load, hhead, htail]
      rfl

theorem load_store_self (memory : CellMemory β) (address : ℕ)
    (cells : List β) :
    (memory.store address cells).load address cells.length = cells := by
  apply load_eq
  intro i hi
  rw [store_inside (by omega) (by omega), Nat.add_sub_cancel_left]

theorem load_length_le (memory : CellMemory β) (address length : ℕ) :
    (memory.load address length).length ≤ length := by
  induction length generalizing address with
  | zero => simp [load]
  | succ length ih =>
      have hrest := ih (address + 1)
      have hcell : (memory address).toList.length ≤ 1 := by
        cases memory address <;> simp
      rw [load, List.length_append]
      omega

end CellMemory
