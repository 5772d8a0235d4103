import Mathlib

/-!
# Registers that keep the last value written

A pass over a list updates a register at the items that write to it.  What the
register holds in the end is the value of the last of these items.
-/

variable {α β σ : Type}

/-- The register after a pass. -/
def lastWrite (written : α → Option β) (items : List α) (start : β) : β :=
  items.foldl (fun held item => (written item).getD held) start

namespace LastWrite

variable {written : α → Option β} {items front back : List α} {item : α}
  {start value : β}

theorem append (front back : List α) :
    lastWrite written (front ++ back) start =
      lastWrite written back (lastWrite written front start) :=
  List.foldl_append

/-- A part of a state that every step writes in this way is a register. -/
theorem foldl_view (step : σ → α → σ) (view : σ → β)
    (hstep : ∀ state item,
      view (step state item) = (written item).getD (view state))
    (items : List α) (state : σ) :
    view (items.foldl step state) = lastWrite written items (view state) := by
  induction items generalizing state with
  | nil => rfl
  | cons item items ih => rw [List.foldl_cons, ih, hstep, lastWrite, lastWrite,
      List.foldl_cons]

/-- Items that write nothing but the value already held. -/
theorem of_agrees
    (hitems : ∀ item ∈ items, ∀ other, written item = some other →
      other = value) :
    lastWrite written items value = value := by
  induction items with
  | nil => rfl
  | cons item items ih =>
      have hhead : (written item).getD value = value := by
        cases hitem : written item with
        | none => rfl
        | some other => exact hitems item (by simp) other hitem
      rw [lastWrite, List.foldl_cons, hhead]
      apply ih
      intro later hlater
      exact hitems later (by simp [hlater])

theorem of_silent (hitems : ∀ item ∈ items, written item = none) :
    lastWrite written items start = start := by
  apply of_agrees
  intro item hitem other hwritten
  rw [hitems item hitem] at hwritten
  contradiction

theorem of_split (hitem : written item = some value)
    (hback : ∀ later ∈ back, ∀ other, written later = some other →
      other = value) :
    lastWrite written (front ++ item :: back) start = value := by
  rw [append, lastWrite, List.foldl_cons, hitem]
  exact of_agrees hback

/-- The last item that writes, when there is one. -/
theorem silent_or_split (written : α → Option β) (items : List α) :
    (∀ item ∈ items, written item = none) ∨
      ∃ front item back value, items = front ++ item :: back ∧
        written item = some value ∧ ∀ later ∈ back, written later = none := by
  induction items with
  | nil => simp
  | cons head items ih =>
      rcases ih with hsilent | ⟨front, item, back, value, rfl, hitem, hback⟩
      · cases hhead : written head with
        | none => exact .inl (by simpa [hhead] using hsilent)
        | some value => exact .inr ⟨[], head, items, value, rfl, hhead, hsilent⟩
      · exact .inr ⟨head :: front, item, back, value, rfl, hitem, hback⟩

/-- What the register held before matters only when nothing is written. -/
theorem eq_iff {first second : β} :
    lastWrite written items first = lastWrite written items second ↔
      ((∀ item ∈ items, written item = none) → first = second) := by
  constructor
  · intro hsame hsilent
    rwa [of_silent hsilent, of_silent hsilent] at hsame
  · intro hsame
    rcases silent_or_split written items with
      hsilent | ⟨front, item, back, value, rfl, hitem, hback⟩
    · rw [hsame hsilent]
    · have hagrees : ∀ later ∈ back, ∀ other, written later = some other →
          other = value := by
        intro later hlater other hwritten
        rw [hback later hlater] at hwritten
        contradiction
      rw [of_split hitem hagrees, of_split hitem hagrees]

end LastWrite
