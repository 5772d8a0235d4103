import Mathlib

/-!
# Fallible computations whose state survives a failure

`EStateM ε σ` runs like a routine with an error result and a mutable object:
after a failure the object is whatever the routine had made of it.  This file
adds the inversion rules of its sequencing, a guard, two ways of reacting to a
failure, and the induction rules of its loops.
-/

namespace StatefulExcept

variable {ε ε' σ α β γ : Type}

/-- The object after the call, whether or not the call succeeded. -/
def finalState : EStateM.Result ε σ α → σ
  | .ok _ state => state
  | .error _ state => state

@[simp] theorem finalState_ok (value : α) (state : σ) :
    finalState (.ok value state : EStateM.Result ε σ α) = state := rfl

@[simp] theorem finalState_error (failure : ε) (state : σ) :
    finalState (.error failure state : EStateM.Result ε σ α) = state := rfl

def succeeded : EStateM.Result ε σ α → Bool
  | .ok _ _ => true
  | .error _ _ => false

theorem succeeded_iff {result : EStateM.Result ε σ α} :
    succeeded result = true ↔ ∃ value state, result = .ok value state := by
  cases result <;> simp [succeeded]

theorem not_succeeded_iff {result : EStateM.Result ε σ α} :
    succeeded result = false ↔ ∃ failure state, result = .error failure state := by
  cases result <;> simp [succeeded]

/-- The outcome of a call whose object is discarded. -/
def evaluate (action : EStateM ε σ α) (state : σ) : Except ε α :=
  match action state with
  | .ok value _ => .ok value
  | .error failure _ => .error failure

theorem evaluate_of_ok {action : EStateM ε σ α} {state next : σ} {value : α}
    (hrun : action state = .ok value next) :
    evaluate action state = .ok value := by
  rw [evaluate, hrun]

theorem evaluate_eq_ok {action : EStateM ε σ α} {state : σ} {value : α} :
    evaluate action state = .ok value ↔
      ∃ next, action state = .ok value next := by
  unfold evaluate
  cases action state <;> simp

/-! ## Sequencing -/

theorem pure_apply (value : α) (state : σ) :
    (pure value : EStateM ε σ α) state = .ok value state := rfl

theorem pure_eq_ok {value result : α} {state last : σ} :
    (pure value : EStateM ε σ α) state = .ok result last ↔
      value = result ∧ state = last := by
  rw [pure_apply, EStateM.Result.ok.injEq]

theorem throw_apply (failure : ε) (state : σ) :
    (throw failure : EStateM ε σ α) state = .error failure state := rfl

theorem get_apply (state : σ) :
    (get : EStateM ε σ σ) state = .ok state state := rfl

theorem set_apply (next state : σ) :
    (set next : EStateM ε σ PUnit) state = .ok ⟨⟩ next := rfl

theorem modify_apply (change : σ → σ) (state : σ) :
    (modify change : EStateM ε σ PUnit) state = .ok ⟨⟩ (change state) := rfl

theorem bind_apply (first : EStateM ε σ α) (rest : α → EStateM ε σ β)
    (state : σ) :
    (first >>= rest) state =
      match first state with
      | .ok value next => rest value next
      | .error failure next => .error failure next := rfl

theorem bind_of_ok {first : EStateM ε σ α} {rest : α → EStateM ε σ β}
    {state next : σ} {value : α} (hfirst : first state = .ok value next) :
    (first >>= rest) state = rest value next := by
  rw [bind_apply, hfirst]

theorem bind_eq_ok {first : EStateM ε σ α} {rest : α → EStateM ε σ β}
    {state last : σ} {result : β} :
    (first >>= rest) state = .ok result last ↔
      ∃ value next, first state = .ok value next ∧
        rest value next = .ok result last := by
  rw [bind_apply]
  cases first state <;> simp

theorem bind_eq_error {first : EStateM ε σ α} {rest : α → EStateM ε σ β}
    {state last : σ} {failure : ε} :
    (first >>= rest) state = .error failure last ↔
      first state = .error failure last ∨
        ∃ value next, first state = .ok value next ∧
          rest value next = .error failure last := by
  rw [bind_apply]
  cases first state <;> simp

/-! ## Stateless steps

A step that cannot change the object runs in `Except`; the guards below serve
both monads. -/

/-- A result that is read off a success. -/
theorem toOption_bind_eq_some {result : Except ε α} {view : α → Option β}
    {seen : β} :
    result.toOption.bind view = some seen ↔
      ∃ value, result = .ok value ∧ view value = some seen := by
  cases result <;> simp [Except.toOption]

/-- A successful result, from a test that only looks at successes. -/
theorem exists_ok_of_any {result : Except ε α} {test : α → Prop}
    [DecidablePred test]
    (htest : result.toOption.any (fun value => test value) = true) :
    ∃ value, result = .ok value ∧ test value := by
  cases result with
  | error failure => contradiction
  | ok value => exact ⟨value, rfl, of_decide_eq_true htest⟩

theorem except_bind_eq_ok {first : Except ε α} {rest : α → Except ε β}
    {result : β} :
    (first >>= rest) = .ok result ↔
      ∃ value, first = .ok value ∧ rest value = .ok result := by
  cases first <;> simp [bind, Except.bind]

theorem liftExcept_eq_ok {result : Except ε α} {state last : σ} {value : α} :
    (liftExcept result : EStateM ε σ α) state = .ok value last ↔
      result = .ok value ∧ last = state := by
  cases result with
  | ok found => simp [liftExcept, pure_apply, eq_comm]
  | error failure => simp [liftExcept, throw_apply]

theorem liftExcept_bind_eq_ok {first : Except ε α} {rest : α → EStateM ε σ β}
    {state last : σ} {result : β} :
    (liftExcept first >>= rest) state = .ok result last ↔
      ∃ value, first = .ok value ∧ rest value state = .ok result last := by
  cases first with
  | ok value => simp [liftExcept, bind_apply, pure_apply]
  | error failure => simp [liftExcept, bind_apply, throw_apply]

theorem liftExcept_bind_of_ok {first : Except ε α} {rest : α → EStateM ε σ β}
    {value : α} (hfirst : first = .ok value) (state : σ) :
    (liftExcept first >>= rest) state = rest value state := by
  rw [hfirst]
  rfl

theorem liftExcept_bind_of_error {first : Except ε α}
    {rest : α → EStateM ε σ β} {failure : ε} (hfirst : first = .error failure)
    (state : σ) :
    (liftExcept first >>= rest) state = .error failure state := by
  rw [hfirst]
  rfl

/-! ## Guards -/

section Guards

variable {m : Type → Type} [Monad m] [MonadExcept ε m]

/-- Stop with `failure` when the condition holds. -/
def rejectIf (condition : Prop) [Decidable condition] (failure : ε) : m Unit :=
  if condition then throw failure else pure ()

/-- Stop with `failure` when there is no value. -/
def demand (value : Option α) (failure : ε) : m α :=
  value.elim (throw failure) pure

end Guards

variable {condition : Prop} [Decidable condition]

theorem rejectIf_except_bind_eq_ok {failure : ε} {rest : Unit → Except ε β}
    {result : β} :
    (rejectIf condition failure >>= rest) = .ok result ↔
      ¬condition ∧ rest () = .ok result := by
  by_cases htrue : condition <;>
    simp [rejectIf, htrue, bind, Except.bind, throw, throwThe,
      MonadExceptOf.throw, pure, Except.pure]

theorem demand_except_bind_eq_ok {value : Option α} {failure : ε}
    {rest : α → Except ε β} {result : β} :
    (demand value failure >>= rest) = .ok result ↔
      ∃ found, value = some found ∧ rest found = .ok result := by
  cases value <;>
    simp [demand, bind, Except.bind, throw, throwThe, MonadExceptOf.throw, pure,
      Except.pure]

theorem demand_except_eq_ok {value : Option α} {failure : ε} {found : α} :
    (demand value failure : Except ε α) = .ok found ↔ value = some found := by
  cases value <;> simp [demand, throw, throwThe, MonadExceptOf.throw, pure,
    Except.pure]

theorem demand_eq_ok {value : Option α} {failure : ε} {found : α}
    {state last : σ} :
    (demand value failure : EStateM ε σ α) state = .ok found last ↔
      value = some found ∧ last = state := by
  cases value <;> simp [demand, pure_apply, throw_apply, eq_comm]

theorem demand_bind_eq_ok {value : Option α} {failure : ε}
    {rest : α → EStateM ε σ β} {state last : σ} {result : β} :
    (demand value failure >>= rest) state = .ok result last ↔
      ∃ found, value = some found ∧ rest found state = .ok result last := by
  cases value <;> simp [demand, bind_apply, pure_apply, throw_apply]

theorem demand_bind_of_some {value : Option α} {found : α} {failure : ε}
    {rest : α → EStateM ε σ β} (hvalue : value = some found) (state : σ) :
    (demand value failure >>= rest) state = rest found state := by
  rw [hvalue]
  rfl

theorem rejectIf_of_not (failure : ε) (state : σ) (hfalse : ¬condition) :
    (rejectIf condition failure : EStateM ε σ Unit) state = .ok () state := by
  simp [rejectIf, hfalse, pure_apply]

theorem rejectIf_of (failure : ε) (state : σ) (htrue : condition) :
    (rejectIf condition failure : EStateM ε σ Unit) state =
      .error failure state := by
  simp [rejectIf, htrue, throw_apply]

theorem rejectIf_eq_ok {failure : ε} {state next : σ} {value : Unit} :
    (rejectIf condition failure : EStateM ε σ Unit) state = .ok value next ↔
      ¬condition ∧ next = state := by
  by_cases htrue : condition
  · rw [rejectIf_of failure state htrue]
    simp [htrue]
  · rw [rejectIf_of_not failure state htrue]
    simp [htrue, eq_comm]

theorem rejectIf_eq_error {failure failure' : ε} {state next : σ} :
    (rejectIf condition failure : EStateM ε σ Unit) state =
        .error failure' next ↔
      condition ∧ failure' = failure ∧ next = state := by
  by_cases htrue : condition
  · rw [rejectIf_of failure state htrue]
    simp [htrue, eq_comm]
  · rw [rejectIf_of_not failure state htrue]
    simp [htrue]

theorem rejectIf_bind_eq_ok {failure : ε} {rest : Unit → EStateM ε σ β}
    {state last : σ} {result : β} :
    (rejectIf condition failure >>= rest) state = .ok result last ↔
      ¬condition ∧ rest () state = .ok result last := by
  rw [bind_eq_ok]
  constructor
  · rintro ⟨value, next, hguard, hrest⟩
    obtain ⟨hfalse, rfl⟩ := rejectIf_eq_ok.mp hguard
    exact ⟨hfalse, hrest⟩
  · rintro ⟨hfalse, hrest⟩
    exact ⟨(), state, rejectIf_of_not failure state hfalse, hrest⟩

theorem rejectIf_bind_of_not {failure : ε} {rest : Unit → EStateM ε σ β}
    {state : σ} (hfalse : ¬condition) :
    (rejectIf condition failure >>= rest) state = rest () state :=
  bind_of_ok (rejectIf_of_not failure state hfalse)

/-- A property of the object that a refused call leaves alone. -/
theorem finalState_rejectIf_bind {failure : ε} {rest : Unit → EStateM ε σ α}
    {state : σ} (good : σ → Prop) (hstate : good state)
    (hrest : ¬condition → good (finalState (rest () state))) :
    good (finalState ((rejectIf condition failure >>= rest) state)) := by
  by_cases hcondition : condition
  · rw [bind_apply, rejectIf_of failure state hcondition]
    exact hstate
  · rw [rejectIf_bind_of_not hcondition]
    exact hrest hcondition

theorem finalState_demand_bind {value : Option α} {failure : ε}
    {rest : α → EStateM ε σ β} {state : σ} (good : σ → Prop)
    (hstate : good state)
    (hrest : ∀ found, value = some found →
      good (finalState (rest found state))) :
    good (finalState ((demand value failure >>= rest) state)) := by
  cases value with
  | none => exact hstate
  | some found => exact hrest found rfl

/-! ## Reacting to a failure -/

/-- Describe the failure by the state in which it happened. -/
def adaptError (describe : σ → ε → ε') (action : EStateM ε σ α) :
    EStateM ε' σ α := fun state =>
  match action state with
  | .ok value next => .ok value next
  | .error failure next => .error (describe next failure) next

/-- Change the state when, and only when, the action fails. -/
def withCleanup (cleanup : σ → σ) (action : EStateM ε σ α) :
    EStateM ε σ α := fun state =>
  match action state with
  | .ok value next => .ok value next
  | .error failure next => .error failure (cleanup next)

/-- A call whose failure is ignored: no value, and the state as it left it. -/
def attempt (action : EStateM ε σ α) : EStateM ε' σ (Option α) := fun state =>
  match action state with
  | .ok value next => .ok (some value) next
  | .error _ next => .ok none next

theorem attempt_of_ok {action : EStateM ε σ α} {state next : σ} {value : α}
    (hrun : action state = .ok value next) :
    (attempt action : EStateM ε' σ (Option α)) state =
      .ok (some value) next := by
  rw [attempt, hrun]

theorem adaptError_eq_ok {describe : σ → ε → ε'} {action : EStateM ε σ α}
    {state next : σ} {value : α} :
    adaptError describe action state = .ok value next ↔
      action state = .ok value next := by
  unfold adaptError
  cases action state <;> simp

theorem withCleanup_eq_ok {cleanup : σ → σ} {action : EStateM ε σ α}
    {state next : σ} {value : α} :
    withCleanup cleanup action state = .ok value next ↔
      action state = .ok value next := by
  unfold withCleanup
  cases action state <;> simp

theorem withCleanup_eq_error {cleanup : σ → σ} {action : EStateM ε σ α}
    {state last : σ} {failure : ε} :
    withCleanup cleanup action state = .error failure last ↔
      ∃ next, action state = .error failure next ∧ cleanup next = last := by
  unfold withCleanup
  cases action state <;> simp

/-! ## Calls that fail without a trace -/

/-- The call never changes the state. -/
def ReadOnly (action : EStateM ε σ α) : Prop :=
  ∀ state, finalState (action state) = state

/-- A failing call leaves the state as it found it. -/
def Atomic (action : EStateM ε σ α) : Prop :=
  ∀ state failure next, action state = .error failure next → next = state

theorem readOnly_get : ReadOnly (get : EStateM ε σ σ) := fun _ => rfl

theorem readOnly_pure (value : α) : ReadOnly (pure value : EStateM ε σ α) :=
  fun _ => rfl

theorem readOnly_throw (failure : ε) :
    ReadOnly (throw failure : EStateM ε σ α) := fun _ => rfl

theorem readOnly_liftExcept (result : Except ε α) :
    ReadOnly (liftExcept result : EStateM ε σ α) := by
  intro state
  cases result <;> rfl

theorem readOnly_demand (value : Option α) (failure : ε) :
    ReadOnly (demand value failure : EStateM ε σ α) := by
  intro state
  cases value <;> rfl

theorem readOnly_rejectIf (failure : ε) :
    ReadOnly (rejectIf condition failure : EStateM ε σ Unit) := by
  intro state
  by_cases htrue : condition
  · rw [rejectIf_of failure state htrue]
    rfl
  · rw [rejectIf_of_not failure state htrue]
    rfl

theorem ReadOnly.bind {first : EStateM ε σ α} {rest : α → EStateM ε σ β}
    (hfirst : ReadOnly first) (hrest : ∀ value, ReadOnly (rest value)) :
    ReadOnly (first >>= rest) := by
  intro state
  have hstate := hfirst state
  rw [bind_apply]
  cases hresult : first state with
  | ok value next =>
      rw [hresult, finalState_ok] at hstate
      rw [hstate]
      exact hrest value state
  | error failure next =>
      rw [hresult, finalState_error] at hstate
      exact hstate

theorem ReadOnly.atomic {action : EStateM ε σ α} (haction : ReadOnly action) :
    Atomic action := by
  intro state failure next hrun
  have hstate := haction state
  rwa [hrun, finalState_error] at hstate

theorem atomic_set (next : σ) : Atomic (set next : EStateM ε σ PUnit) := by
  intro state failure last hrun
  simp [set_apply] at hrun

/-- Checks and queries before an atomic call keep it atomic. -/
theorem ReadOnly.bind_atomic {first : EStateM ε σ α}
    {rest : α → EStateM ε σ β} (hfirst : ReadOnly first)
    (hrest : ∀ value, Atomic (rest value)) : Atomic (first >>= rest) := by
  intro state failure last hrun
  have hstate := hfirst state
  rcases bind_eq_error.mp hrun with hhead | ⟨value, next, hhead, htail⟩
  · exact hfirst.atomic state failure last hhead
  · rw [hhead, finalState_ok] at hstate
    rw [← hstate]
    exact hrest value next failure last htail

/-! ## Loops -/

/-- The rule for a completed loop that carries a value along. -/
theorem foldlM_ok_induction {body : β → α → EStateM ε σ β}
    (motive : List α → β → σ → Prop) {items : List α} {first value : β}
    {start last : σ}
    (hrun : items.foldlM body first start = .ok value last)
    (hstart : motive [] first start)
    (hstep : ∀ done item rest carried state passed next,
      items = done ++ item :: rest → motive done carried state →
        body carried item state = .ok passed next →
          motive (done ++ [item]) passed next) :
    motive items value last := by
  suffices hall : ∀ rest done carried state, items = done ++ rest →
      motive done carried state →
        rest.foldlM body carried state = .ok value last →
          motive items value last from
    hall items [] first start rfl hstart hrun
  intro rest
  induction rest with
  | nil =>
      intro done carried state hsplit hdone hloop
      rw [List.foldlM_nil, pure_apply, EStateM.Result.ok.injEq] at hloop
      obtain ⟨rfl, rfl⟩ := hloop
      simpa [hsplit] using hdone
  | cons item rest ih =>
      intro done carried state hsplit hdone hloop
      rw [List.foldlM_cons, bind_eq_ok] at hloop
      obtain ⟨passed, next, hbody, htail⟩ := hloop
      exact ih (done ++ [item]) passed next (by simp [hsplit])
        (hstep done item rest carried state passed next hsplit hdone hbody) htail

/-- A counting loop that succeeds has passed every one of its rounds. -/
theorem foldlM_range_round {body : β → ℕ → EStateM ε σ β} {count n : ℕ}
    {first value : β} {start last : σ} (hn : n < count)
    (hrun : (List.range count).foldlM body first start = .ok value last) :
    ∃ carried state after next,
      (List.range n).foldlM body first start = .ok carried state ∧
        body carried n state = .ok after next := by
  induction count generalizing value last with
  | zero => contradiction
  | succ count ih =>
      simp only [List.range_succ, List.foldlM_append, List.foldlM_cons,
        List.foldlM_nil, bind_pure] at hrun
      obtain ⟨carried, state, hdone, hstep⟩ := bind_eq_ok.mp hrun
      rcases Nat.lt_succ_iff_lt_or_eq.mp hn with hlt | rfl
      · exact ih hlt hdone
      · exact ⟨carried, state, value, last, hdone, hstep⟩

theorem foldlM_except_induction {body : β → α → Except ε β}
    (motive : List α → β → Prop) {items : List α} {first value : β}
    (hrun : items.foldlM body first = .ok value) (hstart : motive [] first)
    (hstep : ∀ done item rest carried passed, items = done ++ item :: rest →
      motive done carried → body carried item = .ok passed →
        motive (done ++ [item]) passed) :
    motive items value := by
  suffices hall : ∀ rest done carried, items = done ++ rest →
      motive done carried → rest.foldlM body carried = .ok value →
        motive items value from hall items [] first rfl hstart hrun
  intro rest
  induction rest with
  | nil =>
      intro done carried hsplit hdone hloop
      rw [List.foldlM_nil] at hloop
      obtain rfl := Except.ok.inj hloop
      simpa [hsplit] using hdone
  | cons item rest ih =>
      intro done carried hsplit hdone hloop
      rw [List.foldlM_cons, except_bind_eq_ok] at hloop
      obtain ⟨passed, hbody, htail⟩ := hloop
      exact ih (done ++ [item]) passed (by simp [hsplit])
        (hstep done item rest carried passed hsplit hdone hbody) htail

/-- Where a loop that carries a value along stops early. -/
theorem foldlM_error_split {body : β → α → EStateM ε σ β} {items : List α}
    {first : β} {start last : σ} {failure : ε}
    (hrun : items.foldlM body first start = .error failure last) :
    ∃ done item rest carried next, items = done ++ item :: rest ∧
      done.foldlM body first start = .ok carried next ∧
        body carried item next = .error failure last := by
  induction items generalizing first start with
  | nil =>
      rw [List.foldlM_nil, pure_apply] at hrun
      contradiction
  | cons item items ih =>
      rw [List.foldlM_cons, bind_eq_error] at hrun
      rcases hrun with hhead | ⟨passed, next, hhead, htail⟩
      · exact ⟨[], item, items, first, start, rfl, rfl, hhead⟩
      · obtain ⟨done, bad, rest, carried, middle, hsplit, hdone, hbad⟩ :=
          ih htail
        refine ⟨item :: done, bad, rest, carried, middle, by rw [hsplit]; rfl,
          ?_, hbad⟩
        rw [List.foldlM_cons, bind_of_ok hhead, hdone]

/-! A tally runs a step on each item and adds up what the steps return. -/

section Tally

variable {step : α → EStateM ε σ β} {add : γ → β → γ} {items : List α}
  {first : γ} {start last : σ}

/-- Every step of a completed tally stays related to where it began. -/
theorem tally_ok_related (related : σ → σ → Prop) {value : γ}
    (hrun : items.foldlM ((fun total item => do
      let amount ← step item
      return add total amount) : γ → α → EStateM ε σ γ) first start = .ok value last)
    (hrefl : related start start)
    (htrans : ∀ {middle next}, related start middle → related middle next →
      related start next)
    (hstep : ∀ {item state amount next},
      step item state = .ok amount next → related state next) :
    related start last := by
  refine foldlM_ok_induction (fun _ _ state => related start state) hrun hrefl ?_
  intro done item rest total state grown next _ hdone hbody
  obtain ⟨amount, middle, hone, hreturn⟩ := bind_eq_ok.mp hbody
  rw [pure_apply, EStateM.Result.ok.injEq] at hreturn
  exact htrans hdone (hreturn.2 ▸ hstep hone)

/-- A tally of steps that fail without a trace stops in front of one. -/
theorem tally_error_split {failure : ε}
    (hrun : items.foldlM ((fun total item => do
      let amount ← step item
      return add total amount) : γ → α → EStateM ε σ γ) first start =
        .error failure last)
    (hatomic : ∀ item, Atomic (step item)) :
    ∃ done item rest total, items = done ++ item :: rest ∧
      done.foldlM ((fun total item => do
        let amount ← step item
        return add total amount) : γ → α → EStateM ε σ γ) first start =
          .ok total last ∧
      step item last = .error failure last := by
  obtain ⟨done, item, rest, total, next, hsplit, hdone, hfail⟩ :=
    foldlM_error_split hrun
  rcases bind_eq_error.mp hfail with hone | ⟨_, _, _, hreturn⟩
  · obtain rfl := hatomic item next failure last hone
    exact ⟨done, item, rest, total, hsplit, hdone, hone⟩
  · contradiction

end Tally

/-- Run `item` a fixed number of times and collect what it returns. -/
def collect (item : EStateM ε σ α) : ℕ → EStateM ε σ (List α)
  | 0 => pure []
  | count + 1 => do
      let head ← item
      let tail ← collect item count
      pure (head :: tail)

/-- Run `body` on each item in order and collect what it returns. -/
def traverse (body : α → EStateM ε σ β) : List α → EStateM ε σ (List β)
  | [] => pure []
  | item :: items => do
      let head ← body item
      let tail ← traverse body items
      pure (head :: tail)

theorem traverse_eq_ok_cons {body : α → EStateM ε σ β} {item : α}
    {items : List α} {start last : σ} {values : List β} :
    traverse body (item :: items) start = .ok values last ↔
      ∃ head tail next, body item start = .ok head next ∧
        traverse body items next = .ok tail last ∧ values = head :: tail := by
  simp only [traverse, bind_eq_ok, pure_apply, EStateM.Result.ok.injEq]
  constructor
  · rintro ⟨head, next, hhead, tail, middle, htail, rfl, rfl⟩
    exact ⟨head, tail, next, hhead, htail, rfl⟩
  · rintro ⟨head, tail, next, hhead, htail, rfl⟩
    exact ⟨head, next, hhead, tail, last, htail, rfl, rfl⟩

/-- A loop whose steps read without looking at the value carried along, as long
as that is a good one, can do all of its reading first. -/
theorem foldlM_eq_traverse {body : γ → α → EStateM ε σ γ}
    {read : α → EStateM ε σ β} {write : γ → β → γ} (good : γ → Prop)
    (hbody : ∀ carried item, good carried → body carried item =
      read item >>= fun value => pure (write carried value))
    (hgood : ∀ carried value, good carried → good (write carried value))
    (items : List α) {first : γ} (hfirst : good first) :
    items.foldlM body first =
      traverse read items >>= fun values => pure (values.foldl write first) := by
  induction items generalizing first with
  | nil => simp [traverse]
  | cons item items ih =>
      rw [List.foldlM_cons, hbody first item hfirst, traverse]
      simp only [bind_assoc, pure_bind, List.foldl_cons]
      apply bind_congr
      intro value
      exact ih (hgood first value hfirst)

/-- What a completed pass returns for each item, from states with a common
property. -/
theorem traverse_ok {body : α → EStateM ε σ β} (good : σ → Prop)
    (returns : α → β → Prop) {items : List α} {start last : σ}
    {values : List β} (hrun : traverse body items start = .ok values last)
    (hstart : good start)
    (hstep : ∀ item ∈ items, ∀ state value next, good state →
      body item state = .ok value next → returns item value ∧ good next) :
    List.Forall₂ returns items values ∧ good last := by
  induction items generalizing start values with
  | nil =>
      rw [traverse, pure_apply, EStateM.Result.ok.injEq] at hrun
      obtain ⟨rfl, rfl⟩ := hrun
      exact ⟨.nil, hstart⟩
  | cons item items ih =>
      obtain ⟨head, tail, next, hhead, htail, rfl⟩ :=
        traverse_eq_ok_cons.mp hrun
      obtain ⟨hreturns, hgood⟩ :=
        hstep item List.mem_cons_self start head next hstart hhead
      obtain ⟨hrest, hlast⟩ := ih htail hgood fun other hother =>
        hstep other (List.mem_cons_of_mem _ hother)
      exact ⟨.cons hreturns hrest, hlast⟩

theorem traverse_eq_map {body : α → EStateM ε σ β} (good : σ → Prop)
    (value : α → β) (accepted : α → Prop) {items : List α} {start last : σ}
    {values : List β} (hrun : traverse body items start = .ok values last)
    (hstart : good start)
    (hstep : ∀ item ∈ items, ∀ state found next, good state →
      body item state = .ok found next →
        found = value item ∧ accepted item ∧ good next) :
    values = items.map value ∧ (∀ item ∈ items, accepted item) ∧ good last := by
  obtain ⟨hall, hlast⟩ := traverse_ok good
    (fun item found => found = value item ∧ accepted item) hrun hstart
    fun item hitem state found next hgood hbody => by
      obtain ⟨hfound, haccepted, hnext⟩ :=
        hstep item hitem state found next hgood hbody
      exact ⟨⟨hfound, haccepted⟩, hnext⟩
  rw [← and_assoc]
  refine ⟨?_, hlast⟩
  clear hrun hstep
  induction hall with
  | nil => simp
  | cons hhead _ ih =>
      obtain ⟨rfl, hitem⟩ := hhead
      exact ⟨by rw [List.map_cons, ih.1], List.forall_mem_cons.mpr
        ⟨hitem, ih.2⟩⟩

end StatefulExcept
