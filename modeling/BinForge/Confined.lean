import BinForge.StatefulExcept

/-!
# Calls confined to a relation

A call is confined to a relation when it leaves the state related to the one it
found, whether it succeeds or fails on the way.  For a preorder the property
passes through sequencing, loops and clean-up handlers, so that it has to be
checked only for the primitive calls a routine is made of.
-/

namespace StatefulExcept

variable {ε σ α β γ : Type} {related : σ → σ → Prop}

/-- Whatever the outcome, the state left behind is related to the first. -/
def Confined (related : σ → σ → Prop) (action : EStateM ε σ α) : Prop :=
  ∀ state, related state (finalState (action state))

theorem Confined.of_ok {action : EStateM ε σ α}
    (haction : Confined related action) {state next : σ} {value : α}
    (hrun : action state = .ok value next) : related state next := by
  have hstate := haction state
  rwa [hrun] at hstate

theorem Confined.of_error {action : EStateM ε σ α}
    (haction : Confined related action) {state next : σ} {failure : ε}
    (hrun : action state = .error failure next) : related state next := by
  have hstate := haction state
  rwa [hrun] at hstate

/-- The rest of the call may use what the first part established. -/
theorem Confined.bind_of_ok {first : EStateM ε σ α} {rest : α → EStateM ε σ β}
    (hfirst : Confined related first)
    (hrest : ∀ state value next, first state = .ok value next →
      related state (finalState (rest value next))) :
    Confined related (first >>= rest) := by
  intro state
  rw [bind_apply]
  cases hresult : first state with
  | ok value next => exact hrest state value next hresult
  | error failure next => exact hfirst.of_error hresult

section Preorder

variable [IsPreorder σ related]

theorem ReadOnly.confined {action : EStateM ε σ α} (haction : ReadOnly action) :
    Confined related action := by
  intro state
  rw [haction state]
  exact refl_of related state

theorem Confined.bind {first : EStateM ε σ α} {rest : α → EStateM ε σ β}
    (hfirst : Confined related first)
    (hrest : ∀ value, Confined related (rest value)) :
    Confined related (first >>= rest) := by
  intro state
  rw [bind_apply]
  cases hresult : first state with
  | ok value next =>
      exact trans_of related (hfirst.of_ok hresult) (hrest value next)
  | error failure next => exact hfirst.of_error hresult

/-- Of a call that fails without a trace only the success matters. -/
theorem Atomic.confined {action : EStateM ε σ α} (haction : Atomic action)
    (hok : ∀ state value next, action state = .ok value next →
      related state next) : Confined related action := by
  intro state
  cases hrun : action state with
  | ok value next => exact hok state value next hrun
  | error failure next =>
      rw [haction state failure next hrun]
      exact refl_of related state

theorem Confined.demand_bind {value : Option α} {failure : ε}
    {rest : α → EStateM ε σ β}
    (hrest : ∀ found, value = some found → Confined related (rest found)) :
    Confined related (demand value failure >>= rest) := by
  cases value with
  | none => exact (readOnly_throw failure).confined
  | some found => exact hrest found rfl

theorem Confined.liftExcept_bind {result : Except ε α}
    {rest : α → EStateM ε σ β}
    (hrest : ∀ value, result = .ok value → Confined related (rest value)) :
    Confined related (liftExcept result >>= rest) := by
  cases result with
  | error failure => exact (readOnly_throw failure).confined
  | ok value => exact hrest value rfl

theorem Confined.rejectIf_bind {condition : Prop} [Decidable condition]
    {failure : ε} {rest : Unit → EStateM ε σ β}
    (hrest : ¬condition → Confined related (rest ())) :
    Confined related (rejectIf condition failure >>= rest) := by
  by_cases htrue : condition
  · intro state
    rw [bind_apply, rejectIf_of failure state htrue]
    exact refl_of related state
  · intro state
    rw [rejectIf_bind_of_not htrue]
    exact hrest htrue state

theorem Confined.withCleanup {cleanup : σ → σ} {action : EStateM ε σ α}
    (haction : Confined related action)
    (hcleanup : ∀ state, related state (cleanup state)) :
    Confined related (withCleanup cleanup action) := by
  intro state
  unfold StatefulExcept.withCleanup
  cases hresult : action state with
  | ok value next => exact haction.of_ok hresult
  | error failure next =>
      exact trans_of related (haction.of_error hresult) (hcleanup next)

theorem Confined.foldlM {body : β → α → EStateM ε σ β} {items : List α}
    (hbody : ∀ item ∈ items, ∀ carried, Confined related (body carried item))
    (first : β) : Confined related (items.foldlM body first) := by
  induction items generalizing first with
  | nil => exact (readOnly_pure first).confined
  | cons item items ih =>
      rw [List.foldlM_cons]
      refine (hbody item List.mem_cons_self first).bind fun passed => ?_
      exact ih (fun other hother => hbody other (List.mem_cons_of_mem _ hother))
        passed

/-- A tally of confined steps. -/
theorem Confined.tally {step : α → EStateM ε σ β} {add : γ → β → γ}
    {items : List α} (hstep : ∀ item ∈ items, Confined related (step item))
    (first : γ) :
    Confined related (items.foldlM ((fun total item => do
      let amount ← step item
      return add total amount) : γ → α → EStateM ε σ γ) first) :=
  Confined.foldlM (fun item hitem _ =>
    (hstep item hitem).bind fun _ => (readOnly_pure _).confined) first

end Preorder

/-! ## Invariants -/

/-- The second state has the property if the first one has. -/
def Keeps (property : σ → Prop) (state next : σ) : Prop :=
  property state → property next

instance (property : σ → Prop) : IsPreorder σ (Keeps property) where
  refl _ := id
  trans _ _ _ hleft hright := hright ∘ hleft

/-- What every call of a run keeps holds after the run. -/
theorem foldl_keeps {step : σ → α → σ} {property : σ → Prop} {items : List α}
    (hstep : ∀ item ∈ items, ∀ state, Keeps property state (step state item))
    {start : σ} (hstart : property start) :
    property (items.foldl step start) := by
  induction items generalizing start with
  | nil => exact hstart
  | cons item items ih =>
      refine ih (fun other hother => hstep other (List.mem_cons_of_mem _ hother))
        ?_
      exact hstep item List.mem_cons_self start hstart

end StatefulExcept
