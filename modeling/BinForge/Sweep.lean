import Mathlib

/-!
# Sweeps over positions

A loop with one cursor looks at a place, reports at most one thing there and
goes on at a later place, as long as the cursor is below a limit and there is
room for results.  Its results are the first ones found at the places it
visits.  Which places these are can be forgotten when nothing is to be found
at the places it skips.
-/

/-- What is reported at a place, and where the cursor goes from there. -/
structure Sweep (α : Type) where
  found : ℕ → Option α
  next : ℕ → ℕ
  ahead : ∀ place, place < next place

namespace Sweep

variable {α : Type} (sweep : Sweep α) (limit maximum : ℕ)

/-- The loop, for a number of passes. -/
def run : ℕ → ℕ → List α → List α
  | 0, _, result => result
  | passes + 1, place, result =>
      if place < limit ∧ result.length < maximum then
        run passes (sweep.next place) (result ++ (sweep.found place).toList)
      else result

/-- From the place and the results so far the loop comes to others. -/
inductive Reaches : ℕ → List α → ℕ → List α → Prop
  | refl (place : ℕ) (result : List α) : Reaches place result place result
  | pass {place last : ℕ} {result final : List α}
      (hplace : place < limit) (hroom : result.length < maximum)
      (hrest : Reaches (sweep.next place)
        (result ++ (sweep.found place).toList) last final) :
      Reaches place result last final

/-- The loop comes to an end with these results. -/
def Returns (place : ℕ) (result final : List α) : Prop :=
  ∃ last, sweep.Reaches limit maximum place result last final ∧
    ¬(last < limit ∧ final.length < maximum)

def placesIn : ℕ → ℕ → List ℕ
  | 0, _ => []
  | passes + 1, place =>
      if place < limit then place :: placesIn passes (sweep.next place) else []

/-- The places below the limit the cursor comes to. -/
def places (place : ℕ) : List ℕ := sweep.placesIn limit (limit - place) place

variable {sweep limit maximum}

/-! ## The places visited -/

theorem placesIn_of_ge {place : ℕ} (hplace : limit ≤ place) (passes : ℕ) :
    sweep.placesIn limit passes place = [] := by
  cases passes with
  | zero => rfl
  | succ passes => exact if_neg (not_lt.mpr hplace)

theorem placesIn_congr {passes others place : ℕ}
    (hpasses : limit - place ≤ passes) (hothers : limit - place ≤ others) :
    sweep.placesIn limit passes place = sweep.placesIn limit others place := by
  induction passes generalizing others place with
  | zero =>
      have hplace : limit ≤ place := by omega
      rw [placesIn_of_ge hplace, placesIn_of_ge hplace]
  | succ passes ih =>
      by_cases hplace : place < limit
      · cases others with
        | zero => omega
        | succ others =>
            have hahead := sweep.ahead place
            rw [placesIn, placesIn, if_pos hplace, if_pos hplace]
            congr 1
            apply ih <;> omega
      · rw [placesIn_of_ge (not_lt.mp hplace),
          placesIn_of_ge (not_lt.mp hplace)]

theorem places_of_ge {place : ℕ} (hplace : limit ≤ place) :
    sweep.places limit place = [] :=
  placesIn_of_ge hplace _

theorem places_of_lt {place : ℕ} (hplace : place < limit) :
    sweep.places limit place =
      place :: sweep.places limit (sweep.next place) := by
  have hahead := sweep.ahead place
  have hneeded : limit - place = limit - (place + 1) + 1 := by omega
  rw [places, hneeded, placesIn, if_pos hplace]
  congr 1
  apply placesIn_congr <;> omega

/-- What holds at the start and stays true from place to place. -/
theorem places_induction (sweep : Sweep α) (limit : ℕ) {motive : ℕ → Prop}
    (hend : ∀ place, limit ≤ place → motive place)
    (hpass : ∀ place, place < limit → motive (sweep.next place) → motive place)
    (place : ℕ) : motive place := by
  generalize hneeded : limit - place = needed
  induction needed using Nat.strong_induction_on generalizing place with
  | _ needed ih =>
      by_cases hplace : place < limit
      · have hahead := sweep.ahead place
        apply hpass place hplace
        exact ih (limit - sweep.next place) (by omega) _ rfl
      · exact hend place (not_lt.mp hplace)

theorem le_of_mem_places {place visited : ℕ}
    (hvisited : visited ∈ sweep.places limit place) :
    place ≤ visited ∧ visited < limit := by
  induction place using places_induction sweep limit with
  | hend place hplace =>
      rw [places_of_ge hplace] at hvisited
      contradiction
  | hpass place hplace ih =>
      rw [places_of_lt hplace] at hvisited
      rcases List.mem_cons.mp hvisited with rfl | hrest
      · exact ⟨le_refl _, hplace⟩
      · have hahead := sweep.ahead place
        obtain ⟨hlower, hupper⟩ := ih hrest
        exact ⟨by omega, hupper⟩

/-- A place is visited only when the cursor has left those before it. -/
theorem places_pairwise (place : ℕ) :
    (sweep.places limit place).Pairwise fun first second =>
      sweep.next first ≤ second := by
  induction place using places_induction sweep limit with
  | hend place hplace =>
      rw [places_of_ge hplace]
      exact List.Pairwise.nil
  | hpass place hplace ih =>
      rw [places_of_lt hplace]
      apply List.pairwise_cons.mpr
      exact ⟨fun second hsecond => (le_of_mem_places hsecond).1, ih⟩

theorem next_le_of_mem_places {start place later : ℕ}
    (hplace : place ∈ sweep.places limit start)
    (hlater : later ∈ sweep.places limit start) (hbefore : place < later) :
    sweep.next place ≤ later := by
  induction start using places_induction sweep limit with
  | hend start hend =>
      rw [places_of_ge hend] at hplace
      contradiction
  | hpass start hstart ih =>
      have hlower := (le_of_mem_places hplace).1
      rw [places_of_lt hstart] at hplace hlater
      rcases List.mem_cons.mp hlater with rfl | hlaterRest
      · exact absurd hbefore (not_lt.mpr hlower)
      · rcases List.mem_cons.mp hplace with rfl | hplaceRest
        · exact (le_of_mem_places hlaterRest).1
        · exact ih hplaceRest hlaterRest

theorem Reaches.mem_places {place last : ℕ} {result final : List α}
    (hreaches : sweep.Reaches limit maximum place result last final)
    (hlast : last < limit) : last ∈ sweep.places limit place := by
  induction hreaches with
  | refl place result =>
      rw [places_of_lt hlast]
      exact List.mem_cons_self
  | pass hplace hroom hrest ih =>
      rw [places_of_lt hplace]
      exact List.mem_cons_of_mem _ (ih hlast)

/-! ## The results -/

theorem run_eq {passes place : ℕ} (result : List α)
    (hpasses : limit - place ≤ passes) :
    sweep.run limit maximum passes place result =
      result ++ ((sweep.places limit place).filterMap sweep.found).take
        (maximum - result.length) := by
  induction passes generalizing place result with
  | zero =>
      have hplace : limit ≤ place := by omega
      rw [places_of_ge hplace]
      simp [run]
  | succ passes ih =>
      rw [run]
      by_cases hplace : place < limit
      · by_cases hroom : result.length < maximum
        · have hahead := sweep.ahead place
          have hfewer : limit - sweep.next place ≤ passes := by omega
          rw [if_pos ⟨hplace, hroom⟩, ih _ hfewer, places_of_lt hplace,
            List.append_assoc]
          cases hfound : sweep.found place with
          | none => simp [hfound]
          | some value =>
              have hleft : maximum - result.length =
                  maximum - (result.length + 1) + 1 := by omega
              simp [hfound, hleft]
        · have hfull : maximum - result.length = 0 := by omega
          simp [hroom, hfull]
      · rw [places_of_ge (not_lt.mp hplace)]
        simp [hplace]

theorem run_returns {passes place : ℕ} (result : List α)
    (hpasses : limit - place ≤ passes) :
    sweep.Returns limit maximum place result
      (sweep.run limit maximum passes place result) := by
  induction passes generalizing place result with
  | zero =>
      have hplace : limit ≤ place := by omega
      refine ⟨place, .refl place result, ?_⟩
      rintro ⟨hbelow, -⟩
      exact absurd hbelow (not_lt.mpr hplace)
  | succ passes ih =>
      have hahead := sweep.ahead place
      have hfewer : limit - sweep.next place ≤ passes := by omega
      rw [run]
      split_ifs with hgoes
      · obtain ⟨last, hreaches, hstop⟩ :=
          ih (result ++ (sweep.found place).toList) hfewer
        exact ⟨last, .pass hgoes.1 hgoes.2 hreaches, hstop⟩
      · exact ⟨place, .refl place result, hgoes⟩

theorem Reaches.run_eq {place last : ℕ} {result final : List α}
    (hreaches : sweep.Reaches limit maximum place result last final) :
    sweep.run limit maximum (limit - place) place result =
      sweep.run limit maximum (limit - last) last final := by
  induction hreaches with
  | refl place result => rfl
  | @pass place last result final hplace hroom hrest ih =>
      have hahead := sweep.ahead place
      have hneeded : limit - place = limit - (place + 1) + 1 := by omega
      have hpasses : limit - sweep.next place ≤ limit - (place + 1) := by omega
      rw [hneeded, run, if_pos ⟨hplace, hroom⟩, Sweep.run_eq _ hpasses,
        ← Sweep.run_eq _ (le_refl _)]
      exact ih

theorem run_of_stops {passes place : ℕ} {result : List α}
    (hstops : ¬(place < limit ∧ result.length < maximum)) :
    sweep.run limit maximum passes place result = result := by
  cases passes with
  | zero => rfl
  | succ passes => exact if_neg hstops

/-- With a pass for each place the function computes where the loop ends. -/
theorem returns_iff {passes place : ℕ} {result final : List α}
    (hpasses : limit - place ≤ passes) :
    sweep.Returns limit maximum place result final ↔
      sweep.run limit maximum passes place result = final := by
  constructor
  · rintro ⟨last, hreaches, hstops⟩
    rw [Sweep.run_eq _ hpasses, ← Sweep.run_eq _ (le_refl _),
      hreaches.run_eq, run_of_stops hstops]
  · rintro rfl
    exact run_returns result hpasses

theorem filterMap_eq_nil {spec : ℕ → Option α} {place count : ℕ}
    (hnone : ∀ skipped, place ≤ skipped → skipped < place + count →
      spec skipped = none) :
    (List.range' place count).filterMap spec = [] := by
  apply List.filterMap_eq_nil_iff.mpr
  intro skipped hskipped
  obtain ⟨hlower, hupper⟩ := List.mem_range'_1.mp hskipped
  exact hnone skipped hlower hupper

/-- When nothing is to be found at the places the cursor skips, it finds what
there is at all places. -/
theorem filterMap_places (spec : ℕ → Option α) (holds : ℕ → Prop)
    (hnext : ∀ place, place < limit → holds place → holds (sweep.next place))
    (hfound : ∀ place, place < limit → holds place →
      sweep.found place = spec place)
    (hskipped : ∀ place skipped, holds place → place < skipped →
      skipped < sweep.next place → skipped < limit → spec skipped = none)
    (place : ℕ) (hplace : holds place) :
    (sweep.places limit place).filterMap sweep.found =
      (List.range' place (limit - place)).filterMap spec := by
  induction place using places_induction sweep limit with
  | hend place hend =>
      have hnone : limit - place = 0 := by omega
      rw [places_of_ge hend, hnone]
      rfl
  | hpass place hbelow ih =>
      have hahead := sweep.ahead place
      -- the places before the next one visited, and the others
      obtain ⟨count, hcount⟩ : ∃ count,
          min (sweep.next place) limit = place + (count + 1) :=
        ⟨min (sweep.next place) limit - place - 1, by omega⟩
      have hsplit : limit - place =
          count + 1 + (limit - sweep.next place) := by omega
      have hrest : List.range' (place + (count + 1))
          (limit - sweep.next place) =
            List.range' (sweep.next place) (limit - sweep.next place) := by
        by_cases hinside : sweep.next place < limit
        · rw [← hcount, min_eq_left hinside.le]
        · have hnone : limit - sweep.next place = 0 := by omega
          rw [hnone]
          rfl
      have hbetween : (List.range' (place + 1) count).filterMap spec = [] := by
        apply filterMap_eq_nil
        intro skipped hlower hupper
        exact hskipped place skipped hplace (by omega) (by omega) (by omega)
      rw [places_of_lt hbelow, List.filterMap_cons,
        hfound place hbelow hplace, ih (hnext place hbelow hplace), hsplit,
        ← List.range'_append_1, List.filterMap_append, hrest,
        List.range'_succ, List.filterMap_cons, hbetween]
      cases spec place <;> rfl

end Sweep
