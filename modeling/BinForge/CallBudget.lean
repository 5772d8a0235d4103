import BinForge.StatefulExcept

/-!
# Budgets of fallible computations

A cost that is read off the state grows by at most a budget when a computation
succeeds, and by at most a fixed slack more when it fails.  A failure ends the
computation around it, so the slack is paid once and budgets add up.
-/

namespace StatefulExcept

variable {ε ε' σ α β : Type}

/-- The cost after the call is within the budget, or within budget and slack
when the call fails. -/
def Spends (cost : σ → ℕ) (slack : ℕ) (action : EStateM ε σ α) (budget : ℕ) :
    Prop :=
  ∀ state, cost (finalState (action state)) ≤ cost state + budget +
    if succeeded (action state) then 0 else slack

section Rules

variable {cost : σ → ℕ} {slack budget rest : ℕ} {action : EStateM ε σ α}

theorem Spends.mono (hspends : Spends cost slack action budget)
    (hle : budget ≤ rest) : Spends cost slack action rest := by
  intro state
  have hstate := hspends state
  omega

/-- A call that never changes the cost needs no budget. -/
theorem Spends.of_free
    (hfree : ∀ state, cost (finalState (action state)) = cost state) :
    Spends cost slack action 0 := by
  intro state
  rw [hfree state]
  omega

theorem Spends.of_readOnly (haction : ReadOnly action) :
    Spends cost slack action 0 := by
  apply Spends.of_free
  intro state
  rw [haction state]

theorem Spends.pure (value : α) :
    Spends cost slack (pure value : EStateM ε σ α) 0 :=
  .of_readOnly (readOnly_pure value)

/-- Only the values that the first call returns matter for the second. -/
theorem Spends.bind_returned {next : α → EStateM ε σ β}
    (haction : Spends cost slack action budget)
    (hnext : ∀ value state middle, action state = .ok value middle →
      Spends cost slack (next value) rest) :
    Spends cost slack (action >>= next) (budget + rest) := by
  intro state
  have hfirst := haction state
  rw [bind_apply]
  cases hrun : action state with
  | ok value middle =>
      have hsecond := hnext value state middle hrun middle
      simp only [hrun, finalState_ok, succeeded, if_true] at hfirst
      dsimp only
      omega
  | error failure middle =>
      simp only [hrun, finalState_error, succeeded, Bool.false_eq_true,
        if_false] at hfirst ⊢
      omega

theorem Spends.bind {next : α → EStateM ε σ β}
    (haction : Spends cost slack action budget)
    (hnext : ∀ value, Spends cost slack (next value) rest) :
    Spends cost slack (action >>= next) (budget + rest) :=
  haction.bind_returned fun value _ _ _ => hnext value

/-- A step without a cost in front of another. -/
theorem Spends.after {next : α → EStateM ε σ β}
    (haction : Spends cost slack action 0)
    (hnext : ∀ value, Spends cost slack (next value) budget) :
    Spends cost slack (action >>= next) budget := by
  have hbind := haction.bind hnext
  rwa [Nat.zero_add] at hbind

theorem Spends.ite {condition : Prop} [Decidable condition]
    {other : EStateM ε σ α} (htrue : Spends cost slack action budget)
    (hfalse : Spends cost slack other budget) :
    Spends cost slack (if condition then action else other) budget := by
  split
  · exact htrue
  · exact hfalse

theorem Spends.withCleanup {cleanup : σ → σ}
    (haction : Spends cost slack action budget)
    (hcleanup : ∀ state, cost (cleanup state) = cost state) :
    Spends cost slack (withCleanup cleanup action) budget := by
  intro state
  have hstate := haction state
  unfold StatefulExcept.withCleanup
  cases hrun : action state with
  | ok value next => rwa [hrun] at hstate
  | error failure next =>
      simp only [hrun, finalState_error, succeeded] at hstate ⊢
      rwa [hcleanup]

theorem Spends.forM {body : β → EStateM ε σ PUnit} (items : List β)
    (hbody : ∀ item, Spends cost slack (body item) budget) :
    Spends cost slack (items.forM body) (items.length * budget) := by
  induction items with
  | nil =>
      rw [List.length_nil, Nat.zero_mul]
      exact .pure _
  | cons item items ih =>
      rw [List.length_cons, Nat.add_mul, Nat.one_mul, Nat.add_comm]
      exact (hbody item).bind fun _ => ih

end Rules
end StatefulExcept
