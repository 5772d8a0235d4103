import BinForge.StatefulExcept

/-!
# Runs of a step relation over a list

A run takes one step for each item in order.  When the steps of any two items
of the list commute, every permutation of the list has the same runs.
-/

/-- One step for each item, in order. -/
inductive ListRun {σ α : Type} (step : α → σ → σ → Prop) :
    List α → σ → σ → Prop
  | nil (state : σ) : ListRun step [] state state
  | cons {item : α} {items : List α} {state next last : σ} :
      step item state next → ListRun step items next last →
        ListRun step (item :: items) state last

namespace ListRun

variable {σ α : Type} {step : α → σ → σ → Prop} {good : σ → Prop}
  {apart : α → α → Prop}

theorem cons_iff {item : α} {items : List α} {state last : σ} :
    ListRun step (item :: items) state last ↔
      ∃ next, step item state next ∧ ListRun step items next last := by
  constructor
  · intro hrun
    cases hrun with
    | cons hstep hrest => exact ⟨_, hstep, hrest⟩
  · rintro ⟨next, hstep, hrest⟩
    exact .cons hstep hrest

theorem append_iff {front back : List α} {state last : σ} :
    ListRun step (front ++ back) state last ↔
      ∃ next, ListRun step front state next ∧ ListRun step back next last := by
  induction front generalizing state with
  | nil =>
      constructor
      · intro hrun
        exact ⟨state, .nil state, hrun⟩
      · rintro ⟨next, hfront, hback⟩
        cases hfront
        exact hback
  | cons item front ih =>
      simp only [List.cons_append, cons_iff, ih]
      constructor
      · rintro ⟨after, hstep, next, hfront, hback⟩
        exact ⟨next, ⟨after, hstep, hfront⟩, hback⟩
      · rintro ⟨next, ⟨after, hstep, hfront⟩, hback⟩
        exact ⟨after, hstep, next, hfront, hback⟩

/-- What every step keeps holds behind a run. -/
theorem invariant (hkept : ∀ item before after, good before →
      step item before after → good after)
    {items : List α} {state last : σ} (hstate : good state)
    (hrun : ListRun step items state last) : good last := by
  induction hrun with
  | nil state => exact hstate
  | cons hstep _ ih => exact ih (hkept _ _ _ hstate hstep)

/-- Items that are pairwise apart may be taken in any order. -/
theorem perm (hkept : ∀ item before after, good before →
      step item before after → good after)
    (hsymm : ∀ left right, apart left right → apart right left)
    (hcommute : ∀ left right first middle last, good first →
      apart left right → step left first middle → step right middle last →
        ∃ between, step right first between ∧ step left between last)
    {items permuted : List α} (hperm : items.Perm permuted)
    (hapart : items.Pairwise apart) {state last : σ} (hstate : good state)
    (hrun : ListRun step items state last) :
    ListRun step permuted state last := by
  induction hperm generalizing state with
  | nil => exact hrun
  | cons item _ ih =>
      obtain ⟨next, hstep, hrest⟩ := cons_iff.mp hrun
      exact .cons hstep (ih (List.pairwise_cons.mp hapart).2
        (hkept item state next hstate hstep) hrest)
  | swap left right _ =>
      obtain ⟨middle, hright, hrest⟩ := cons_iff.mp hrun
      obtain ⟨after, hleft, hrest⟩ := cons_iff.mp hrest
      have hpair := (List.pairwise_cons.mp hapart).1 left List.mem_cons_self
      obtain ⟨between, hfirst, hsecond⟩ := hcommute right left state middle
        after hstate hpair hright hleft
      exact .cons hfirst (.cons hsecond hrest)
  | trans hfirst _ ihFirst ihSecond =>
      exact ihSecond ((hfirst.pairwise_iff fun hpair => hsymm _ _ hpair).mp
        hapart) hstate (ihFirst hapart hstate hrun)

end ListRun

namespace StatefulExcept

variable {ε σ α : Type}

/-- A loop that counts its steps. -/
theorem foldlM_count_eq_ok {body : α → EStateM ε σ Unit} {items : List α}
    {first count : UInt32} {state last : σ} :
    (items.foldlM (fun count item => do
        body item
        return count + 1) first : EStateM ε σ UInt32) state = .ok count last ↔
      ListRun (fun item before after => body item before = .ok () after) items
          state last ∧ count = first + UInt32.ofNat items.length := by
  induction items generalizing first state with
  | nil =>
      rw [List.foldlM_nil, pure_eq_ok]
      constructor
      · rintro ⟨rfl, rfl⟩
        exact ⟨.nil state, by simp⟩
      · rintro ⟨hrun, rfl⟩
        cases hrun
        exact ⟨by simp, rfl⟩
  | cons item items ih =>
      have hshift : first + 1 + UInt32.ofNat items.length =
          first + UInt32.ofNat (items.length + 1) := by
        rw [UInt32.ofNat_add, UInt32.add_assoc]
        congr 1
        exact UInt32.add_comm ..
      rw [List.foldlM_cons, bind_eq_ok, ListRun.cons_iff, List.length_cons]
      constructor
      · rintro ⟨counted, next, hbody, hrest⟩
        obtain ⟨_, middle, hitem, hcounted⟩ := bind_eq_ok.mp hbody
        rw [pure_eq_ok] at hcounted
        obtain ⟨rfl, rfl⟩ := hcounted
        obtain ⟨hrun, rfl⟩ := ih.mp hrest
        exact ⟨⟨middle, hitem, hrun⟩, hshift⟩
      · rintro ⟨⟨next, hitem, hrun⟩, rfl⟩
        exact ⟨first + 1, next, bind_of_ok hitem,
          ih.mpr ⟨hrun, hshift.symm⟩⟩

end StatefulExcept
