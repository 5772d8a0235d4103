import BinForge.StatefulExcept

/-!
# Checks made in order

A routine that checks its input in order stops at the first check that does not
hold, and tells its caller why or does not.  `Follows` says that the outcome of
a routine is the outcome of such a list of checks, and is put together along the
routine.  `Reported` is the weaker statement that the routine never stops without
telling.
-/

namespace Checklist

open StatefulExcept

variable {ε ε' σ α β : Type}

/-- A condition, and whether the caller is told when it does not hold. -/
structure Check where
  holds : Prop
  told : Bool

def told (holds : Prop) : Check := ⟨holds, true⟩

def untold (holds : Prop) : Check := ⟨holds, false⟩

def Passed (checks : List Check) : Prop := ∀ check ∈ checks, check.holds

/-- The first check that does not hold is of the given kind. -/
def Stops (kind : Bool) : List Check → Prop
  | [] => False
  | check :: checks =>
      ¬check.holds ∧ check.told = kind ∨ check.holds ∧ Stops kind checks

/-! ## Lists of checks -/

@[simp] theorem passed_nil : Passed [] := by simp [Passed]

@[simp] theorem passed_cons {check : Check} {checks : List Check} :
    Passed (check :: checks) ↔ check.holds ∧ Passed checks :=
  List.forall_mem_cons

theorem passed_append {first second : List Check} :
    Passed (first ++ second) ↔ Passed first ∧ Passed second :=
  List.forall_mem_append

theorem not_stops_of_passed {kind : Bool} {checks : List Check}
    (hpassed : Passed checks) : ¬Stops kind checks := by
  induction checks with
  | nil => exact id
  | cons check checks ih =>
      obtain ⟨hholds, hrest⟩ := passed_cons.mp hpassed
      rintro (⟨hbroken, -⟩ | ⟨-, hlater⟩)
      · exact hbroken hholds
      · exact ih hrest hlater

/-- Every list of checks passes or stops. -/
theorem passed_or_stops (checks : List Check) :
    Passed checks ∨ ∃ kind, Stops kind checks := by
  induction checks with
  | nil => exact Or.inl passed_nil
  | cons check checks ih =>
      by_cases hholds : check.holds
      · rcases ih with hpassed | ⟨kind, hstops⟩
        · exact Or.inl (passed_cons.mpr ⟨hholds, hpassed⟩)
        · exact Or.inr ⟨kind, Or.inr ⟨hholds, hstops⟩⟩
      · exact Or.inr ⟨check.told, Or.inl ⟨hholds, rfl⟩⟩

theorem stops_append {kind : Bool} {first second : List Check} :
    Stops kind (first ++ second) ↔
      Stops kind first ∨ Passed first ∧ Stops kind second := by
  induction first with
  | nil => simp [Stops]
  | cons check first ih =>
      rw [List.cons_append, Stops, Stops, ih, passed_cons]
      tauto

/-! ## Outcomes -/

section Outcomes

variable {tells : ε → Prop} {outcome : Except ε α} {checks : List Check}

/-- The routine stopped without telling. -/
def Silent (tells : ε → Prop) (outcome : Except ε α) : Prop :=
  ∃ failure, outcome = .error failure ∧ ¬tells failure

def Reported (tells : ε → Prop) (outcome : Except ε α) : Prop :=
  ∀ failure, outcome = .error failure → tells failure

theorem reported_iff : Reported tells outcome ↔ ¬Silent tells outcome := by
  simp [Reported, Silent]

/-- The outcome is that of the checks, made in order. -/
structure Follows (tells : ε → Prop) (outcome : Except ε α)
    (checks : List Check) : Prop where
  passes : Passed checks → ∃ value, outcome = .ok value
  stops : ∀ kind, Stops kind checks →
    ∃ failure, outcome = .error failure ∧ (tells failure ↔ kind = true)

theorem Follows.ok_iff (hfollows : Follows tells outcome checks) :
    (∃ value, outcome = .ok value) ↔ Passed checks := by
  refine ⟨fun ⟨value, hvalue⟩ => ?_, hfollows.passes⟩
  rcases passed_or_stops checks with hpassed | ⟨kind, hstops⟩
  · exact hpassed
  · obtain ⟨failure, hfailure, -⟩ := hfollows.stops kind hstops
    rw [hvalue] at hfailure
    contradiction

theorem Follows.passed_of_ok (hfollows : Follows tells outcome checks)
    {value : α} (hvalue : outcome = .ok value) : Passed checks :=
  hfollows.ok_iff.mp ⟨value, hvalue⟩

theorem Follows.error_iff (hfollows : Follows tells outcome checks)
    {kind : Bool} :
    (∃ failure, outcome = .error failure ∧ (tells failure ↔ kind = true)) ↔
      Stops kind checks := by
  refine ⟨fun ⟨failure, hfailure, htells⟩ => ?_, hfollows.stops kind⟩
  rcases passed_or_stops checks with hpassed | ⟨other, hstops⟩
  · obtain ⟨value, hvalue⟩ := hfollows.passes hpassed
    rw [hvalue] at hfailure
    contradiction
  · obtain ⟨found, hfound, hkind⟩ := hfollows.stops other hstops
    rw [hfailure] at hfound
    obtain rfl := Except.error.inj hfound
    rwa [Bool.eq_iff_iff.mpr (htells.symm.trans hkind)]

/-- The routine stops without telling where an untold check does not hold. -/
theorem Follows.silent_iff (hfollows : Follows tells outcome checks) :
    Silent tells outcome ↔ Stops false checks := by
  rw [← hfollows.error_iff]
  simp [Silent]

/-- The one check of a call that answers for itself. -/
theorem Follows.single {kind : Bool} {holds : Prop}
    (hok : (∃ value, outcome = .ok value) ↔ holds)
    (hkind : ∀ failure, outcome = .error failure →
      (tells failure ↔ kind = true)) :
    Follows tells outcome [⟨holds, kind⟩] := by
  refine ⟨fun hpassed => hok.mpr (passed_cons.mp hpassed).1, ?_⟩
  rintro other (⟨hbroken, rfl⟩ | ⟨-, hnone⟩)
  · cases houtcome : outcome with
    | ok value => exact absurd (hok.mp ⟨value, houtcome⟩) hbroken
    | error failure => exact ⟨failure, rfl, hkind failure houtcome⟩
  · exact hnone.elim

theorem Follows.told {holds : Prop}
    (hok : (∃ value, outcome = .ok value) ↔ holds)
    (hreported : Reported tells outcome) :
    Follows tells outcome [told holds] :=
  Follows.single hok fun failure hfailure =>
    iff_of_true (hreported failure hfailure) rfl

theorem Follows.untold {holds : Prop}
    (hok : (∃ value, outcome = .ok value) ↔ holds)
    (hsilent : ∀ failure, outcome = .error failure → ¬tells failure) :
    Follows tells outcome [untold holds] :=
  Follows.single hok fun failure hfailure =>
    iff_of_false (hsilent failure hfailure) Bool.false_ne_true

theorem Follows.of_ok {value : α} (hvalue : outcome = .ok value) :
    Follows tells outcome [] :=
  ⟨fun _ => ⟨value, hvalue⟩, fun _ hstops => hstops.elim⟩

end Outcomes

/-! ## Stateless steps -/

section Except

variable {tells : ε → Prop} {first : Except ε α} {rest : α → Except ε β}

theorem Reported.ok (value : α) : Reported tells (.ok value) :=
  fun _ hfailure => by contradiction

theorem Reported.error {failure : ε} (htells : tells failure) :
    Reported tells (.error failure : Except ε α) :=
  fun _ hfailure => Except.error.inj hfailure ▸ htells

theorem Reported.except_bind (hfirst : Reported tells first)
    (hrest : ∀ value, first = .ok value → Reported tells (rest value)) :
    Reported tells (first >>= rest) := by
  cases first with
  | ok value => exact hrest value rfl
  | error failure =>
      exact Reported.error (hfirst failure rfl)

theorem Follows.except_bind {checks more : List Check}
    (hfirst : Follows tells first checks)
    (hrest : ∀ value, first = .ok value → Follows tells (rest value) more) :
    Follows tells (first >>= rest) (checks ++ more) := by
  constructor
  · intro hpassed
    obtain ⟨hchecks, hmore⟩ := passed_append.mp hpassed
    obtain ⟨value, rfl⟩ := hfirst.passes hchecks
    exact (hrest value rfl).passes hmore
  · intro kind hstops
    rcases stops_append.mp hstops with hhere | ⟨hchecks, hlater⟩
    · obtain ⟨failure, rfl, htells⟩ := hfirst.stops kind hhere
      exact ⟨failure, rfl, htells⟩
    · obtain ⟨value, rfl⟩ := hfirst.passes hchecks
      exact (hrest value rfl).stops kind hlater

variable {condition : Prop} [Decidable condition] {failure : ε}

theorem Reported.except_rejectIf (htells : tells failure) :
    Reported tells (rejectIf condition failure : Except ε Unit) := by
  unfold rejectIf
  split
  · exact Reported.error htells
  · exact Reported.ok ()

theorem Reported.except_demand {value : Option α} (htells : tells failure) :
    Reported tells (demand value failure : Except ε α) := by
  cases value with
  | none => exact Reported.error htells
  | some found => exact Reported.ok found

/-- What the demand finds may be used. -/
theorem Reported.except_demand_bind {value : Option α} (htells : tells failure)
    (hrest : ∀ found, value = some found → Reported tells (rest found)) :
    Reported tells (demand value failure >>= rest) := by
  cases value with
  | none => exact Reported.error htells
  | some found => exact hrest found rfl

/-- A guard need only tell where it does not pass. -/
theorem Reported.except_guard {more : Unit → Except ε β}
    (htells : condition → tells failure)
    (hmore : ¬condition → Reported tells (more ())) :
    Reported tells (rejectIf condition failure >>= more) := by
  unfold rejectIf
  by_cases hcondition : condition
  · rw [if_pos hcondition]
    exact Reported.error (htells hcondition)
  · rw [if_neg hcondition]
    exact hmore hcondition

theorem Follows.except_rejectIf {holds : Prop} (htells : tells failure)
    (hholds : ¬condition ↔ holds) :
    Follows tells (rejectIf condition failure : Except ε Unit)
      [Checklist.told holds] := by
  refine Follows.told (Iff.trans ?_ hholds) (Reported.except_rejectIf htells)
  by_cases hcondition : condition <;>
    simp [rejectIf, hcondition, throw, throwThe, MonadExceptOf.throw, pure,
      Except.pure]

theorem Follows.except_demand {value : Option α} {holds : Prop}
    (htells : tells failure) (hholds : (∃ found, value = some found) ↔ holds) :
    Follows tells (demand value failure : Except ε α)
      [Checklist.told holds] := by
  refine Follows.told (Iff.trans ?_ hholds) (Reported.except_demand htells)
  cases value <;>
    simp [demand, throw, throwThe, MonadExceptOf.throw, pure, Except.pure]

/-- A guard that is known to pass. -/
theorem Follows.except_pass {more : Unit → Except ε β} {checks : List Check}
    (hfalse : ¬condition) (hmore : Follows tells (more ()) checks) :
    Follows tells (rejectIf condition failure >>= more) checks := by
  unfold rejectIf
  rw [if_neg hfalse]
  exact hmore

/-- What a guard before it rules out may be used. -/
theorem Follows.except_guard {holds : Prop} {more : Unit → Except ε β}
    {checks : List Check} (htells : tells failure)
    (hholds : ¬condition ↔ holds)
    (hmore : holds → Follows tells (more ()) checks) :
    Follows tells (rejectIf condition failure >>= more)
      (Checklist.told holds :: checks) := by
  refine (Follows.except_rejectIf htells hholds).except_bind fun _ hpassed => ?_
  refine hmore (hholds.mp fun hcondition => ?_)
  rw [rejectIf, if_pos hcondition] at hpassed
  contradiction

theorem Reported.foldlM_except {body : β → α → Except ε β} {items : List α}
    {start : β} (hbody : ∀ carried item, Reported tells (body carried item)) :
    Reported tells (items.foldlM body start) := by
  induction items generalizing start with
  | nil => exact Reported.ok start
  | cons item items ih =>
      rw [List.foldlM_cons]
      exact (hbody start item).except_bind fun _ _ => ih

theorem Follows.silent_except_bind {checks more : List Check}
    (hfirst : Follows tells first checks)
    (hrest : ∀ value, first = .ok value →
      (Silent tells (rest value) ↔ Stops false more)) :
    Silent tells (first >>= rest) ↔ Stops false (checks ++ more) := by
  rw [stops_append]
  cases hrun : first with
  | ok value =>
      have hchecks := hfirst.passed_of_ok hrun
      have hnone := @not_stops_of_passed false checks hchecks
      have hlater := hrest value hrun
      show Silent tells (rest value) ↔ _
      tauto
  | error failure =>
      have hbroken : ¬Passed checks := by
        intro hchecks
        obtain ⟨value, hvalue⟩ := hfirst.passes hchecks
        rw [hrun] at hvalue
        contradiction
      rw [← hfirst.silent_iff, hrun]
      show Silent tells (.error failure : Except ε β) ↔ _
      simp only [Silent, Except.error.injEq, exists_eq_left']
      tauto

/-- Behind the last check that does not tell, it is silent as before. -/
theorem silent_except_bind_iff
    (hrest : ∀ value, first = .ok value → Reported tells (rest value)) :
    Silent tells (first >>= rest) ↔ Silent tells first := by
  cases hrun : first with
  | ok value =>
      apply iff_of_false
      · exact reported_iff.mp (hrest value hrun)
      · exact reported_iff.mp (Reported.ok value)
  | error failure =>
      show Silent tells (.error failure : Except ε β) ↔ _
      simp only [Silent, Except.error.injEq]

end Except

/-! ## Stateful calls -/

section Calls

variable {tells : ε → Prop} {state : σ}

theorem evaluate_bind (first : EStateM ε σ α) (rest : α → EStateM ε σ β)
    (state : σ) :
    (∃ value next, first state = .ok value next ∧
        evaluate (first >>= rest) state = evaluate (rest value) next) ∨
      ∃ failure, evaluate first state = .error failure ∧
        evaluate (first >>= rest) state = .error failure := by
  unfold evaluate
  rw [bind_apply]
  cases first state with
  | ok value next => exact Or.inl ⟨value, next, rfl, rfl⟩
  | error failure next => exact Or.inr ⟨failure, rfl, rfl⟩

theorem evaluate_of_error {action : EStateM ε σ α} {state next : σ}
    {failure : ε} (hrun : action state = .error failure next) :
    evaluate action state = .error failure := by
  rw [evaluate, hrun]

theorem evaluate_bind_of_ok {first : EStateM ε σ α}
    {rest : α → EStateM ε σ β} {value : α} {next : σ}
    (hrun : first state = .ok value next) :
    evaluate (first >>= rest) state = evaluate (rest value) next := by
  unfold evaluate
  rw [bind_of_ok hrun]

theorem evaluate_liftExcept (outcome : Except ε α) (state : σ) :
    evaluate (liftExcept outcome) state = outcome := by
  cases outcome <;> rfl

theorem evaluate_demand (value : Option α) (failure : ε) (state : σ) :
    evaluate (demand value failure : EStateM ε σ α) state =
      demand value failure := by
  cases value <;> rfl

theorem evaluate_rejectIf (condition : Prop) [Decidable condition] (failure : ε)
    (state : σ) :
    evaluate (rejectIf condition failure : EStateM ε σ Unit) state =
      rejectIf condition failure := by
  unfold rejectIf
  split <;> rfl

theorem evaluate_adaptError {describe : σ → ε → ε'} {action : EStateM ε σ α} :
    (∃ value, evaluate (adaptError describe action) state = .ok value) ↔
      ∃ value next, action state = .ok value next := by
  simp only [evaluate_eq_ok, adaptError_eq_ok]

theorem Reported.bind {first : EStateM ε σ α} {rest : α → EStateM ε σ β}
    (hfirst : Reported tells (evaluate first state))
    (hrest : ∀ value next, first state = .ok value next →
      Reported tells (evaluate (rest value) next)) :
    Reported tells (evaluate (first >>= rest) state) := by
  rcases evaluate_bind first rest state with
    ⟨value, next, hrun, hsame⟩ | ⟨failure, hrun, hsame⟩
  · rw [hsame]
    exact hrest value next hrun
  · rw [hsame]
    exact Reported.error (hfirst failure hrun)

theorem Follows.bind {first : EStateM ε σ α} {rest : α → EStateM ε σ β}
    {checks more : List Check}
    (hfirst : Follows tells (evaluate first state) checks)
    (hrest : ∀ value next, first state = .ok value next →
      Follows tells (evaluate (rest value) next) more) :
    Follows tells (evaluate (first >>= rest) state) (checks ++ more) := by
  rcases evaluate_bind first rest state with
    ⟨value, next, hrun, hsame⟩ | ⟨failure, hrun, hsame⟩
  · have hchecks := hfirst.passed_of_ok (evaluate_of_ok hrun)
    rw [hsame]
    refine ⟨fun hpassed => (hrest value next hrun).passes
      (passed_append.mp hpassed).2, fun kind hstops => ?_⟩
    rcases stops_append.mp hstops with hhere | ⟨-, hlater⟩
    · exact absurd hhere (not_stops_of_passed hchecks)
    · exact (hrest value next hrun).stops kind hlater
  · rw [hsame]
    constructor
    · intro hpassed
      obtain ⟨value, hvalue⟩ := hfirst.passes (passed_append.mp hpassed).1
      rw [hrun] at hvalue
      contradiction
    · intro kind hstops
      rcases stops_append.mp hstops with hhere | ⟨hchecks, -⟩
      · obtain ⟨found, hfound, htells⟩ := hfirst.stops kind hhere
        rw [hrun] at hfound
        obtain rfl := Except.error.inj hfound
        exact ⟨failure, rfl, htells⟩
      · obtain ⟨value, hvalue⟩ := hfirst.passes hchecks
        rw [hrun] at hvalue
        contradiction

/-- A call that makes one check. -/
theorem Follows.next {first : EStateM ε σ α} {rest : α → EStateM ε σ β}
    {check : Check} {more : List Check}
    (hfirst : Follows tells (evaluate first state) [check])
    (hrest : ∀ value next, first state = .ok value next →
      Follows tells (evaluate (rest value) next) more) :
    Follows tells (evaluate (first >>= rest) state) (check :: more) :=
  hfirst.bind hrest

/-- Checks, then a call whose silent stops are those of further checks. -/
theorem Follows.silent_bind {first : EStateM ε σ α} {rest : α → EStateM ε σ β}
    {checks more : List Check}
    (hfirst : Follows tells (evaluate first state) checks)
    (hrest : ∀ value next, first state = .ok value next →
      (Silent tells (evaluate (rest value) next) ↔ Stops false more)) :
    Silent tells (evaluate (first >>= rest) state) ↔
      Stops false (checks ++ more) := by
  rw [stops_append]
  rcases evaluate_bind first rest state with
    ⟨value, next, hrun, hsame⟩ | ⟨failure, hrun, hsame⟩
  · have hchecks := hfirst.passed_of_ok (evaluate_of_ok hrun)
    rw [hsame, hrest value next hrun]
    have hnone := @not_stops_of_passed false checks hchecks
    tauto
  · have hbroken : ¬Passed checks := by
      intro hchecks
      obtain ⟨value, hvalue⟩ := hfirst.passes hchecks
      rw [hrun] at hvalue
      contradiction
    rw [← hfirst.silent_iff, hsame, hrun]
    simp only [Silent, Except.error.injEq, exists_eq_left']
    tauto

/-- Once the checks are made, nothing stops without telling any more. -/
theorem Follows.silent_bind_reported {first : EStateM ε σ α}
    {rest : α → EStateM ε σ β} {checks : List Check}
    (hfirst : Follows tells (evaluate first state) checks)
    (hrest : ∀ value next, first state = .ok value next →
      Reported tells (evaluate (rest value) next)) :
    Silent tells (evaluate (first >>= rest) state) ↔ Stops false checks := by
  rw [← List.append_nil checks]
  apply hfirst.silent_bind
  intro value next hrun
  exact iff_of_false (reported_iff.mp (hrest value next hrun)) id

/-- A last step that cannot stop. -/
theorem Follows.returning {first : EStateM ε σ α} {view : α → β}
    {checks : List Check} (hfirst : Follows tells (evaluate first state) checks) :
    Follows tells
      (evaluate (first >>= fun value => Pure.pure (view value)) state) checks := by
  rw [← List.append_nil checks]
  exact hfirst.bind fun _ _ _ => Follows.of_ok rfl

theorem Reported.pure (value : α) :
    Reported tells (evaluate (Pure.pure value : EStateM ε σ α) state) :=
  Reported.ok value

theorem Reported.liftExcept {outcome : Except ε α}
    (houtcome : Reported tells outcome) :
    Reported tells
      (evaluate (liftExcept outcome : EStateM ε σ α) state) := by
  rwa [evaluate_liftExcept]

theorem Follows.liftExcept {outcome : Except ε α} {checks : List Check}
    (houtcome : Follows tells outcome checks) :
    Follows tells (evaluate (liftExcept outcome : EStateM ε σ α)
      state) checks := by
  rwa [evaluate_liftExcept]

section Guards

variable {condition : Prop} [Decidable condition] {failure : ε}
  (htells : tells failure)
include htells

theorem Reported.rejectIf :
    Reported tells (evaluate
      (rejectIf condition failure : EStateM ε σ Unit) state) := by
  rw [evaluate_rejectIf]
  exact Reported.except_rejectIf htells

theorem Follows.rejectIf {holds : Prop} (hholds : ¬condition ↔ holds) :
    Follows tells (evaluate
      (StatefulExcept.rejectIf condition failure : EStateM ε σ Unit) state)
      [Checklist.told holds] := by
  rw [evaluate_rejectIf]
  exact Follows.except_rejectIf htells hholds

theorem Reported.demand {value : Option α} :
    Reported tells (evaluate
      (demand value failure : EStateM ε σ α) state) := by
  rw [evaluate_demand]
  exact Reported.except_demand htells

/-- What the demand finds may be used. -/
theorem Reported.demand_bind {value : Option α} {rest : α → EStateM ε σ β}
    (hrest : ∀ found, value = some found →
      Reported tells (evaluate (rest found) state)) :
    Reported tells (evaluate (StatefulExcept.demand value failure >>= rest)
      state) := by
  cases value with
  | none => exact Reported.error htells
  | some found => exact hrest found rfl

theorem Reported.guard {more : Unit → EStateM ε σ β}
    (hmore : ¬condition → Reported tells (evaluate (more ()) state)) :
    Reported tells
      (evaluate (StatefulExcept.rejectIf condition failure >>= more) state) := by
  refine (Reported.rejectIf htells).bind fun _ _ hpassed => ?_
  obtain ⟨hfalse, rfl⟩ := rejectIf_eq_ok.mp hpassed
  exact hmore hfalse

/-- What a guard before it rules out may be used. -/
theorem Follows.guard {holds : Prop} {more : Unit → EStateM ε σ β}
    {checks : List Check} (hholds : ¬condition ↔ holds)
    (hmore : holds → Follows tells (evaluate (more ()) state) checks) :
    Follows tells
      (evaluate (StatefulExcept.rejectIf condition failure >>= more) state)
      (Checklist.told holds :: checks) := by
  refine (Follows.rejectIf htells hholds).next fun _ _ hpassed => ?_
  obtain ⟨hfalse, rfl⟩ := rejectIf_eq_ok.mp hpassed
  exact hmore (hholds.mp hfalse)

theorem Follows.demand {value : Option α} {holds : Prop}
    (hholds : (∃ found, value = some found) ↔ holds) :
    Follows tells (evaluate
      (StatefulExcept.demand value failure : EStateM ε σ α) state)
      [Checklist.told holds] := by
  rw [evaluate_demand]
  exact Follows.except_demand htells hholds

end Guards

section Adapted

variable {describe : σ → ε' → ε} {action : EStateM ε' σ α}

theorem Reported.adaptError
    (hdescribe : ∀ state failure, tells (describe state failure)) :
    Reported tells (evaluate (adaptError describe action) state) := by
  intro failure hfailure
  unfold evaluate StatefulExcept.adaptError at hfailure
  cases haction : action state with
  | ok value next =>
      rw [haction] at hfailure
      contradiction
  | error inner next =>
      rw [haction] at hfailure
      obtain rfl := Except.error.inj hfailure
      exact hdescribe next inner

/-- A call whose failures are all described by one that tells. -/
theorem Follows.adaptError {holds : Prop}
    (hok : (∃ value next, action state = .ok value next) ↔ holds)
    (hdescribe : ∀ state failure, tells (describe state failure)) :
    Follows tells (evaluate (StatefulExcept.adaptError describe action) state)
      [Checklist.told holds] :=
  Follows.told (evaluate_adaptError.trans hok) (Reported.adaptError hdescribe)

/-- A call whose failures are all described by one that does not tell. -/
theorem Follows.adaptError_untold {holds : Prop}
    (hok : (∃ value next, action state = .ok value next) ↔ holds)
    (hdescribe : ∀ state failure, ¬tells (describe state failure)) :
    Follows tells (evaluate (StatefulExcept.adaptError describe action) state)
      [Checklist.untold holds] :=
  Follows.untold (evaluate_adaptError.trans hok)
    (@Reported.adaptError _ _ _ _ (fun failure => ¬tells failure) _ _ _ hdescribe)

end Adapted

theorem Reported.attempt {action : EStateM ε' σ α} :
    Reported tells (evaluate (attempt action) state) := by
  intro failure hfailure
  unfold evaluate StatefulExcept.attempt at hfailure
  cases haction : action state <;>
    · rw [haction] at hfailure
      contradiction

/-! ## Loops -/

theorem Reported.foldlM {body : β → α → EStateM ε σ β} {items : List α}
    {start : β}
    (hbody : ∀ carried item state,
      Reported tells (evaluate (body carried item) state)) :
    Reported tells (evaluate (items.foldlM body start) state) := by
  induction items generalizing start state with
  | nil => exact Reported.pure start
  | cons item items ih =>
      rw [List.foldlM_cons]
      exact (hbody start item state).bind fun _ _ _ => ih

/-- A round starts in what the rounds before it have made. -/
theorem Follows.foldlM_range {body : β → ℕ → EStateM ε σ β} {start : β}
    {checks : ℕ → List Check} {count : ℕ}
    (hround : ∀ n < count, ∀ carried next,
      (List.range n).foldlM body start state = .ok carried next →
        Follows tells (evaluate (body carried n) next) (checks n)) :
    Follows tells (evaluate ((List.range count).foldlM body start) state)
      ((List.range count).flatMap checks) := by
  induction count with
  | zero => exact Follows.of_ok rfl
  | succ count ih =>
      have hbefore := ih fun n hn => hround n (by omega)
      have hlast := hbefore.bind fun carried next hrun =>
        hround count (Nat.lt_succ_self count) carried next hrun
      simp only [List.range_succ, List.foldlM_append, List.foldlM_cons,
        List.foldlM_nil, bind_pure, List.flatMap_append,
        List.flatMap_singleton]
      exact hlast

theorem Reported.traverse {body : α → EStateM ε σ β} (good : σ → Prop)
    {items : List α} (hstart : good state)
    (hbody : ∀ item ∈ items, ∀ state, good state →
      Reported tells (evaluate (body item) state) ∧
        ∀ value next, body item state = .ok value next → good next) :
    Reported tells (evaluate (StatefulExcept.traverse body items) state) := by
  induction items generalizing state with
  | nil => exact Reported.pure []
  | cons item items ih =>
      obtain ⟨hitem, hnext⟩ := hbody item List.mem_cons_self state hstart
      refine hitem.bind fun head next hhead => ?_
      have htail := ih (hnext head next hhead) fun other hother =>
        hbody other (List.mem_cons_of_mem _ hother)
      exact htail.bind fun tail _ _ => Reported.pure (head :: tail)

theorem Reported.collect {item : EStateM ε σ α} {count : ℕ}
    (hitem : ∀ state, Reported tells (evaluate item state)) :
    Reported tells (evaluate (collect item count) state) := by
  induction count generalizing state with
  | zero => exact Reported.pure []
  | succ count ih =>
      exact (hitem state).bind fun head _ _ =>
        ih.bind fun tail _ _ => Reported.pure (head :: tail)

end Calls

end Checklist
