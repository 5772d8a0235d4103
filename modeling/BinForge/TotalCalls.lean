import BinForge.StatefulExcept

/-!
# Calls that return

Total correctness of fallible computations: the call returns, and what it
returns meets the postcondition.  Every construct of `StatefulExcept` has its
rule; a loop is proved by an invariant on the items behind it.
-/

namespace StatefulExcept

variable {ε ε' σ α β : Type}

/-- The call succeeds from `state`, with a result and a state that meet
`post`. -/
def Returns (action : EStateM ε σ α) (state : σ) (post : α → σ → Prop) :
    Prop :=
  ∃ value next, action state = .ok value next ∧ post value next

variable {action : EStateM ε σ α} {state : σ} {post : α → σ → Prop}

theorem Returns.of_ok {value : α} {next : σ}
    (hrun : action state = .ok value next) (hpost : post value next) :
    Returns action state post :=
  ⟨value, next, hrun, hpost⟩

/-- Success and partial correctness make total correctness. -/
theorem Returns.of_partial
    (hok : ∀ {value next}, action state = .ok value next → post value next)
    (hsucceeds : ∃ value next, action state = .ok value next) :
    Returns action state post := by
  obtain ⟨value, next, hrun⟩ := hsucceeds
  exact ⟨value, next, hrun, hok hrun⟩

theorem Returns.mono {weaker : α → σ → Prop} (hreturns : Returns action state post)
    (himplies : ∀ value next, action state = .ok value next →
      post value next → weaker value next) :
    Returns action state weaker := by
  obtain ⟨value, next, hrun, hpost⟩ := hreturns
  exact ⟨value, next, hrun, himplies value next hrun hpost⟩

theorem Returns.pure {value : α} (hpost : post value state) :
    Returns (pure value : EStateM ε σ α) state post :=
  ⟨value, state, rfl, hpost⟩

theorem Returns.bind {middle : α → σ → Prop} {rest : α → EStateM ε σ β}
    {last : β → σ → Prop} (hfirst : Returns action state middle)
    (hrest : ∀ value next, middle value next → Returns (rest value) next last) :
    Returns (action >>= rest) state last := by
  obtain ⟨value, next, hrun, hmiddle⟩ := hfirst
  obtain ⟨result, final, hrest, hlast⟩ := hrest value next hmiddle
  exact ⟨result, final, (bind_of_ok hrun).trans hrest, hlast⟩

theorem Returns.rejectIf {condition : Prop} [Decidable condition] {failure : ε}
    {rest : Unit → EStateM ε σ β} {last : β → σ → Prop}
    (hfalse : ¬condition) (hrest : Returns (rest ()) state last) :
    Returns (rejectIf condition failure >>= rest) state last := by
  obtain ⟨result, final, hrest, hlast⟩ := hrest
  exact ⟨result, final, (rejectIf_bind_of_not hfalse).trans hrest, hlast⟩

theorem Returns.demand {found : Option α} {value : α} {failure : ε}
    {rest : α → EStateM ε σ β} {last : β → σ → Prop}
    (hfound : found = some value) (hrest : Returns (rest value) state last) :
    Returns (demand found failure >>= rest) state last := by
  obtain ⟨result, final, hrest, hlast⟩ := hrest
  exact ⟨result, final, (demand_bind_of_some hfound state).trans hrest, hlast⟩

theorem Returns.adaptError {describe : σ → ε → ε'}
    (hreturns : Returns action state post) :
    Returns (adaptError describe action) state post := by
  obtain ⟨value, next, hrun, hpost⟩ := hreturns
  exact ⟨value, next, adaptError_eq_ok.mpr hrun, hpost⟩

theorem Returns.liftExcept {result : Except ε α} {value : α}
    (hresult : result = .ok value) (hpost : post value state) :
    Returns (liftExcept result : EStateM ε σ α) state post :=
  ⟨value, state, liftExcept_eq_ok.mpr ⟨hresult, rfl⟩, hpost⟩

theorem Returns.evaluate (hreturns : Returns action state post) :
    ∃ value next, evaluate action state = .ok value ∧ post value next := by
  obtain ⟨value, next, hrun, hpost⟩ := hreturns
  exact ⟨value, next, evaluate_of_ok hrun, hpost⟩

/-! ## Loops -/

/-- A loop returns when its body does, from every state in which the items
behind it satisfy the invariant. -/
theorem Returns.foldlM {body : β → α → EStateM ε σ β}
    (motive : List α → β → σ → Prop) {items : List α} {first : β} {start : σ}
    (hstart : motive [] first start)
    (hstep : ∀ done item rest carried state, items = done ++ item :: rest →
      motive done carried state →
        Returns (body carried item) state (motive (done ++ [item]))) :
    Returns (items.foldlM body first) start (motive items) := by
  suffices hall : ∀ rest done carried state, items = done ++ rest →
      motive done carried state →
        Returns (rest.foldlM body carried) state (motive items) from
    hall items [] first start rfl hstart
  intro rest
  induction rest with
  | nil =>
      intro done carried state hsplit hdone
      rw [List.append_nil] at hsplit
      subst hsplit
      exact Returns.pure hdone
  | cons item rest ih =>
      intro done carried state hsplit hdone
      rw [List.foldlM_cons]
      exact (hstep done item rest carried state hsplit hdone).bind
        fun passed next hpassed =>
          ih (done ++ [item]) passed next (by simp [hsplit]) hpassed

theorem foldlM_except_returns {body : β → α → Except ε β}
    (motive : List α → β → Prop) {items : List α} {first : β}
    (hstart : motive [] first)
    (hstep : ∀ done item rest carried, items = done ++ item :: rest →
      motive done carried →
        ∃ passed, body carried item = .ok passed ∧
          motive (done ++ [item]) passed) :
    ∃ value, items.foldlM body first = .ok value ∧ motive items value := by
  suffices hall : ∀ rest done carried, items = done ++ rest →
      motive done carried →
        ∃ value, rest.foldlM body carried = .ok value ∧ motive items value from
    hall items [] first rfl hstart
  intro rest
  induction rest with
  | nil =>
      intro done carried hsplit hdone
      rw [List.append_nil] at hsplit
      subst hsplit
      exact ⟨carried, rfl, hdone⟩
  | cons item rest ih =>
      intro done carried hsplit hdone
      obtain ⟨passed, hbody, hpassed⟩ :=
        hstep done item rest carried hsplit hdone
      obtain ⟨value, hrest, hvalue⟩ :=
        ih (done ++ [item]) passed (by simp [hsplit]) hpassed
      refine ⟨value, ?_, hvalue⟩
      rw [List.foldlM_cons, hbody]
      exact hrest

theorem Returns.traverse {body : α → EStateM ε σ β} (good : σ → Prop)
    {items : List α} {start : σ} (hstart : good start)
    (hstep : ∀ item ∈ items, ∀ state, good state →
      Returns (body item) state fun _ next => good next) :
    Returns (traverse body items) start fun _ next => good next := by
  induction items generalizing start with
  | nil => exact Returns.pure hstart
  | cons item items ih =>
      refine (hstep item List.mem_cons_self start hstart).bind
        fun head next hnext => ?_
      refine (ih hnext fun other hother =>
        hstep other (List.mem_cons_of_mem _ hother)).bind
          fun tail last hlast => ?_
      exact Returns.pure hlast

end StatefulExcept
