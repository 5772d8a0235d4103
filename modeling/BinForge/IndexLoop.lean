import Mathlib

/-!
# Loops with a 32-bit index

A loop over a container whose index is a 32-bit word and whose size is not.
It visits the elements in order when their number can be an index.  Otherwise
the index comes back to zero before it reaches the size, and the loop goes on
for ever.
-/

variable {α σ : Type}

/-- The loop, for a number of passes. -/
def indexLoop (items : List α) (body : UInt32 → α → σ → σ) :
    ℕ → UInt32 → σ → Option σ
  | 0, _, _ => none
  | passes + 1, index, state =>
      match items[index.toNat]? with
      | none => some state
      | some item => indexLoop items body passes (index + 1)
          (body index item state)

namespace IndexLoop

variable {items : List α} {body : UInt32 → α → σ → σ}

/-- What the body does to the elements with their places. -/
def visit (body : UInt32 → α → σ → σ) (state : σ) (entry : α × ℕ) : σ :=
  body (UInt32.ofNat entry.2) entry.1 state

/-- The index cannot leave a container of this size. -/
theorem never_ends (hlarge : 2 ^ 32 ≤ items.length) (passes : ℕ)
    (index : UInt32) (state : σ) :
    indexLoop items body passes index state = none := by
  induction passes generalizing index state with
  | zero => rfl
  | succ passes ih =>
      have hinside : index.toNat < items.length :=
        index.toNat_lt.trans_le hlarge
      rw [indexLoop, List.getElem?_eq_getElem hinside]
      exact ih _ _

theorem toNat_succ {index : UInt32} (hinside : index.toNat < items.length)
    (hsmall : items.length < 2 ^ 32) : (index + 1).toNat = index.toNat + 1 := by
  rw [UInt32.toNat_add]
  exact Nat.mod_eq_of_lt (by simp; omega)

theorem eq_foldl (hsmall : items.length < 2 ^ 32) {passes : ℕ}
    {index : UInt32} {state final : σ}
    (hends : indexLoop items body passes index state = some final) :
    final = ((items.drop index.toNat).zipIdx index.toNat).foldl (visit body)
      state := by
  induction passes generalizing index state with
  | zero => contradiction
  | succ passes ih =>
      rw [indexLoop] at hends
      by_cases hinside : index.toNat < items.length
      · rw [List.getElem?_eq_getElem hinside] at hends
        have hnext := toNat_succ hinside hsmall
        rw [ih hends, hnext, List.drop_eq_getElem_cons hinside,
          List.zipIdx_cons, List.foldl_cons, visit, UInt32.ofNat_toNat]
      · have hstop := not_lt.mp hinside
        rw [List.getElem?_eq_none hstop] at hends
        rw [List.drop_eq_nil_of_le hstop]
        exact (Option.some.inj hends).symm

theorem ends (hsmall : items.length < 2 ^ 32) {passes : ℕ} {index : UInt32}
    (hpasses : items.length - index.toNat < passes) (state : σ) :
    ∃ final, indexLoop items body passes index state = some final := by
  induction passes generalizing index state with
  | zero => contradiction
  | succ passes ih =>
      rw [indexLoop]
      by_cases hinside : index.toNat < items.length
      · rw [List.getElem?_eq_getElem hinside]
        have hnext := toNat_succ hinside hsmall
        apply ih
        omega
      · rw [List.getElem?_eq_none (not_lt.mp hinside)]
        exact ⟨state, rfl⟩

/-- The loop from the first element on ends when the size can be an index. -/
theorem ends_iff {state : σ} :
    (∃ passes final, indexLoop items body passes 0 state = some final) ↔
      items.length < 2 ^ 32 := by
  constructor
  · intro hends
    obtain ⟨passes, final, hfinal⟩ := hends
    by_contra hlarge
    rw [never_ends (not_lt.mp hlarge)] at hfinal
    contradiction
  · intro hsmall
    exact ⟨items.length + 1, ends hsmall (by simp) state⟩

theorem eq_foldl_zero {passes : ℕ} {state final : σ}
    (hends : indexLoop items body passes 0 state = some final) :
    final = items.zipIdx.foldl (visit body) state :=
  eq_foldl (ends_iff.mp ⟨passes, final, hends⟩) hends

end IndexLoop
