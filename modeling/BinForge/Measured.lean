import BinForge.Checklist

/-!
# Calls measured by where they end

An object that is moved along positions stands at one of them.  A call on it
may be measured by a function on positions: where the call ends when it
succeeds, and nothing where it fails.  Such functions are put together as the
calls are.
-/

namespace Measured

open StatefulExcept
open Checklist

variable {ε ε' σ α β : Type} {place : ℕ → σ} {start : ℕ}

/-- Where what starts at a position ends, when it is there. -/
abbrev Extent := ℕ → Option ℕ

/-- Some things in a row. -/
def inRow : List Extent → Extent
  | [] => some
  | extent :: extents => fun start => (extent start).bind (inRow extents)

/-- A number of things of one kind in a row. -/
def inRowOf (extent : Extent) (count : ℕ) : Extent :=
  inRow (List.replicate count extent)

/-- The call at `start` ends as said. -/
def EndsAt (place : ℕ → σ) (action : EStateM ε σ α) (start : ℕ) :
    Option ℕ → Prop
  | some stop => ∃ value, action (place start) = .ok value (place stop)
  | none => ∃ failure next, action (place start) = .error failure next

def Measures (place : ℕ → σ) (action : EStateM ε σ α) (extent : Extent) : Prop :=
  ∀ start, EndsAt place action start (extent start)

/-! ## One call -/

section One

variable {action : EStateM ε σ α} {stop : Option ℕ}

theorem EndsAt.succeeds_iff (hends : EndsAt place action start stop) :
    (∃ value next, action (place start) = .ok value next) ↔ stop.isSome := by
  cases stop with
  | none =>
      obtain ⟨failure, next, hrun⟩ := hends
      simp [hrun]
  | some stop =>
      obtain ⟨value, hrun⟩ := hends
      simp [hrun]

theorem EndsAt.of_ok (hends : EndsAt place action start stop) {value : α}
    {next : σ} (hrun : action (place start) = .ok value next) :
    ∃ position, stop = some position ∧ next = place position := by
  cases stop with
  | none =>
      obtain ⟨_, _, hfailed⟩ := hends
      rw [hrun] at hfailed
      contradiction
  | some stop =>
      obtain ⟨_, hended⟩ := hends
      rw [hrun, EStateM.Result.ok.injEq] at hended
      exact ⟨stop, rfl, hended.2⟩

/-- A call that succeeds on a condition. -/
theorem EndsAt.of_iff {condition : Prop} [Decidable condition] {last : ℕ}
    (hsucceeds : (∃ value next, action (place start) = .ok value next) ↔
      condition)
    (hnext : ∀ value next, action (place start) = .ok value next →
      next = place last) :
    EndsAt place action start (if condition then some last else none) := by
  by_cases hcondition : condition
  · rw [if_pos hcondition]
    obtain ⟨value, next, hrun⟩ := hsucceeds.mpr hcondition
    exact ⟨value, hnext value next hrun ▸ hrun⟩
  · rw [if_neg hcondition]
    cases hrun : action (place start) with
    | ok value next => exact absurd (hsucceeds.mp ⟨value, next, hrun⟩) hcondition
    | error failure next => exact ⟨failure, next, hrun⟩

theorem EndsAt.bind {first : EStateM ε σ α} {rest : α → EStateM ε σ β}
    {extent : Extent} (hfirst : EndsAt place first start stop)
    (hrest : ∀ value position, stop = some position →
      first (place start) = .ok value (place position) →
      EndsAt place (rest value) position (extent position)) :
    EndsAt place (first >>= rest) start (stop.bind extent) := by
  cases stop with
  | none =>
      obtain ⟨failure, next, hrun⟩ := hfirst
      exact ⟨failure, next, by rw [bind_apply, hrun]⟩
  | some stop =>
      obtain ⟨value, hrun⟩ := hfirst
      have hends := hrest value stop rfl hrun
      rw [Option.bind_some]
      unfold EndsAt at hends ⊢
      rw [bind_of_ok hrun]
      exact hends

theorem EndsAt.adaptError {action : EStateM ε' σ α} {describe : σ → ε' → ε}
    (hends : EndsAt place action start stop) :
    EndsAt place (adaptError describe action) start stop := by
  cases stop with
  | none =>
      obtain ⟨failure, next, hrun⟩ := hends
      refine ⟨describe next failure, next, ?_⟩
      rw [StatefulExcept.adaptError, hrun]
  | some stop =>
      obtain ⟨value, hrun⟩ := hends
      exact ⟨value, adaptError_eq_ok.mpr hrun⟩

/-- A call that is refused on a condition, and does not move for it. -/
theorem EndsAt.guard {condition refused : Prop} [Decidable condition]
    [Decidable refused] {failure : ε} {rest : Unit → EStateM ε σ α}
    (hrefused : condition ↔ refused)
    (hrest : ¬refused → EndsAt place (rest ()) start stop) :
    EndsAt place (rejectIf condition failure >>= rest) start
      (if refused then none else stop) := by
  by_cases hcondition : condition
  · rw [if_pos (hrefused.mp hcondition)]
    refine ⟨failure, place start, ?_⟩
    rw [bind_apply, rejectIf_of failure _ hcondition]
  · have hpassed := mt hrefused.mpr hcondition
    rw [if_neg hpassed]
    have hends := hrest hpassed
    unfold EndsAt at hends ⊢
    rw [rejectIf_bind_of_not hcondition]
    exact hends

end One

/-! ## Calls in a row -/

theorem Measures.nil (value : α) :
    Measures place (pure value : EStateM ε σ α) (inRow []) :=
  fun _ => ⟨value, rfl⟩

theorem Measures.cons {first : EStateM ε σ α} {rest : α → EStateM ε σ β}
    {extent : Extent} {extents : List Extent}
    (hfirst : Measures place first extent)
    (hrest : ∀ value, Measures place (rest value) (inRow extents)) :
    Measures place (first >>= rest) (inRow (extent :: extents)) :=
  fun start => (hfirst start).bind fun value position _ _ =>
    hrest value position

theorem inRow_singleton (extent : Extent) : inRow [extent] = extent :=
  funext fun _ => Option.bind_fun_some _

/-- A call whose result is only changed. -/
theorem Measures.returning {action : EStateM ε σ α} {extent : Extent}
    {view : α → β} (haction : Measures place action extent) :
    Measures place (action >>= fun value => pure (view value)) extent := by
  rw [← inRow_singleton extent]
  exact haction.cons fun value => Measures.nil (view value)

theorem Measures.adaptError {action : EStateM ε' σ α} {describe : σ → ε' → ε}
    {extent : Extent} (haction : Measures place action extent) :
    Measures place (StatefulExcept.adaptError describe action) extent :=
  fun start => (haction start).adaptError

theorem Measures.collect {item : EStateM ε σ α} {extent : Extent}
    (hitem : Measures place item extent) (count : ℕ) :
    Measures place (collect item count) (inRowOf extent count) := by
  induction count with
  | zero => exact Measures.nil []
  | succ count ih =>
      intro start
      refine (hitem start).bind fun head position _ _ => ?_
      have htail := (ih position).bind fun tail stop _ _ =>
        Measures.nil (head :: tail) stop
      rw [inRow, Option.bind_fun_some] at htail
      exact htail

theorem collect_length {item : EStateM ε σ α} {count : ℕ} {state next : σ}
    {values : List α} (hrun : collect item count state = .ok values next) :
    values.length = count := by
  induction count generalizing state next values with
  | zero =>
      rw [StatefulExcept.collect, pure_eq_ok] at hrun
      rw [← hrun.1, List.length_nil]
  | succ count ih =>
      rw [StatefulExcept.collect, bind_eq_ok] at hrun
      obtain ⟨head, middle, -, hrun⟩ := hrun
      obtain ⟨tail, last, htail, hrun⟩ := bind_eq_ok.mp hrun
      rw [pure_eq_ok] at hrun
      rw [← hrun.1, List.length_cons, ih htail]

/-! ## The checks of measured calls -/

section Checks

variable {tells : ε → Prop} {action : EStateM ε σ α} {stop : Option ℕ}

theorem EndsAt.told (hends : EndsAt place action start stop)
    (hreported : Reported tells (evaluate action (place start))) :
    Follows tells (evaluate action (place start)) [told (stop.isSome = true)] := by
  apply Follows.told _ hreported
  rw [← hends.succeeds_iff]
  simp only [evaluate_eq_ok]

theorem EndsAt.untold (hends : EndsAt place action start stop)
    (hsilent : Reported (fun failure => ¬tells failure)
      (evaluate action (place start))) :
    Follows tells (evaluate action (place start))
      [untold (stop.isSome = true)] := by
  apply Follows.untold _ hsilent
  rw [← hends.succeeds_iff]
  simp only [evaluate_eq_ok]

end Checks

end Measured
