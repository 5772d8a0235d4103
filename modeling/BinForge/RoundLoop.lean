import BinForge.StatefulExcept

/-!
# Loops that end by a measure

The body of a `while` loop carries a value along, changes an object, and says
whether the loop goes on.  A run of the loop is a relation, without a bound on
its rounds.  The function below makes a number of rounds; it computes the run
as soon as the rounds exceed a measure that every round which goes on lowers.
-/

namespace RoundLoop

open StatefulExcept

variable {ε σ β : Type}

/-- One round: the value it leaves, and whether it was the last one. -/
abbrev Body (ε σ β : Type) := β → EStateM ε σ (ForInStep β)

/-- The loop, for at most this many rounds. -/
def loop (body : Body ε σ β) : ℕ → β → EStateM ε σ β
  | 0, carried => pure carried
  | rounds + 1, carried => do
      match ← body carried with
      | .done last => pure last
      | .yield passed => loop body rounds passed

theorem loop_of_done {body : Body ε σ β} {rounds : ℕ} {carried last : β}
    {state next : σ} (hbody : body carried state = .ok (.done last) next) :
    loop body (rounds + 1) carried state = .ok last next := by
  rw [loop, bind_of_ok hbody]
  rfl

theorem loop_of_yield {body : Body ε σ β} {rounds : ℕ} {carried passed : β}
    {state next : σ} (hbody : body carried state = .ok (.yield passed) next) :
    loop body (rounds + 1) carried state = loop body rounds passed next := by
  rw [loop, bind_of_ok hbody]

/-! ## Runs -/

/-- A round leads from one place in the loop to the next. -/
def Continues (body : Body ε σ β) (here there : β × σ) : Prop :=
  body here.1 here.2 = .ok (.yield there.1) there.2

/-- A run of the loop from a place on, with its outcome. -/
inductive Runs (body : Body ε σ β) : β × σ → EStateM.Result ε σ β → Prop
  | ends {carried last : β} {state next : σ}
      (hbody : body carried state = .ok (.done last) next) :
      Runs body (carried, state) (.ok last next)
  | fails {carried : β} {state next : σ} {failure : ε}
      (hbody : body carried state = .error failure next) :
      Runs body (carried, state) (.error failure next)
  | continues {here there : β × σ} {outcome : EStateM.Result ε σ β}
      (hround : Continues body here there) (hrest : Runs body there outcome) :
      Runs body here outcome

variable {body : Body ε σ β}

/-- The first round of a run decides how it goes on. -/
theorem runs_iff {carried : β} {state : σ} {outcome : EStateM.Result ε σ β} :
    Runs body (carried, state) outcome ↔
      match body carried state with
      | .ok (.done last) next => .ok last next = outcome
      | .ok (.yield passed) next => Runs body (passed, next) outcome
      | .error failure next => .error failure next = outcome := by
  constructor
  · intro hrun
    cases hrun with
    | ends hbody => rw [hbody]
    | fails hbody => rw [hbody]
    | @continues _ there _ hround hrest =>
        have hbody : body carried state = .ok (.yield there.1) there.2 := hround
        rw [hbody]
        exact hrest
  · cases hbody : body carried state with
    | error failure next =>
        rintro rfl
        exact .fails hbody
    | ok step next =>
        cases step with
        | done last =>
            rintro rfl
            exact .ends hbody
        | yield passed =>
            intro hrest
            have hround : Continues body (carried, state) (passed, next) :=
              hbody
            exact .continues hround hrest

/-- Behind its first round the loop has a round less. -/
theorem runs_iff_loop_succ {rounds : ℕ} {carried : β} {state : σ}
    {outcome : EStateM.Result ε σ β}
    (hrest : ∀ {passed next}, Continues body (carried, state) (passed, next) →
      (Runs body (passed, next) outcome ↔
        loop body rounds passed next = outcome)) :
    Runs body (carried, state) outcome ↔
      loop body (rounds + 1) carried state = outcome := by
  rw [runs_iff, loop, bind_apply]
  cases hbody : body carried state with
  | error failure next => exact Iff.rfl
  | ok step next =>
      cases step with
      | done last => exact Iff.rfl
      | yield passed => exact hrest hbody

/-- With more rounds than a measure that every further round lowers, the loop
has exactly one run, and the function computes it. -/
theorem runs_iff_loop (good : β × σ → Prop) (measure : β × σ → ℕ)
    (hround : ∀ {here there}, good here → Continues body here there →
      good there ∧ measure there < measure here)
    {rounds : ℕ} {carried : β} {state : σ} (hstart : good (carried, state))
    (hrounds : measure (carried, state) < rounds)
    {outcome : EStateM.Result ε σ β} :
    Runs body (carried, state) outcome ↔
      loop body rounds carried state = outcome := by
  induction rounds generalizing carried state with
  | zero => contradiction
  | succ rounds ih =>
      refine runs_iff_loop_succ fun hnext => ?_
      obtain ⟨hgood, hless⟩ := hround hstart hnext
      exact ih hgood (by omega)

/-- As many rounds as the measure says are enough when the loop ends, with
nothing done, where the measure is zero. -/
theorem runs_iff_loop_of_still (measure : β × σ → ℕ)
    (hround : ∀ {here there}, Continues body here there →
      measure there < measure here)
    (hstill : ∀ {carried state}, measure (carried, state) = 0 →
      body carried state = .ok (.done carried) state)
    {rounds : ℕ} {carried : β} {state : σ}
    (hrounds : measure (carried, state) ≤ rounds)
    {outcome : EStateM.Result ε σ β} :
    Runs body (carried, state) outcome ↔
      loop body rounds carried state = outcome := by
  induction rounds generalizing carried state with
  | zero =>
      rw [runs_iff, hstill (Nat.le_zero.mp hrounds)]
      exact Iff.rfl
  | succ rounds ih =>
      refine runs_iff_loop_succ fun hnext => ?_
      have hless := hround hnext
      exact ih (by omega)

/-! ## Invariants -/

/-- The places that the loop comes through. -/
def Visits (body : Body ε σ β) : β × σ → β × σ → Prop :=
  Relation.ReflTransGen (Continues body)

theorem Visits.invariant (good : β × σ → Prop) {start here : β × σ}
    (hvisits : Visits body start here) (hstart : good start)
    (hround : ∀ {here there}, good here → Continues body here there →
      good there) : good here := by
  induction hvisits with
  | refl => exact hstart
  | tail _ hstep ih => exact hround ih hstep

/-- What every round leaves, the last one included, holds behind the loop. -/
theorem loop_ok_induction (good : β → σ → Prop) {rounds : ℕ}
    {carried last : β} {state next : σ}
    (hrun : loop body rounds carried state = .ok last next)
    (hstart : good carried state)
    (hround : ∀ {carried step state next}, good carried state →
      body carried state = .ok step next → good step.value next) :
    good last next := by
  induction rounds generalizing carried state with
  | zero =>
      rw [loop, pure_eq_ok] at hrun
      obtain ⟨rfl, rfl⟩ := hrun
      exact hstart
  | succ rounds ih =>
      rw [loop, bind_eq_ok] at hrun
      obtain ⟨step, middle, hbody, hrest⟩ := hrun
      have hpassed := hround hstart hbody
      cases step with
      | done value =>
          obtain ⟨rfl, rfl⟩ := EStateM.Result.ok.inj hrest
          exact hpassed
      | yield value => exact ih hrest hpassed

end RoundLoop
