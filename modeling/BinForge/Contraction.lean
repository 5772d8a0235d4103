import Mathlib.Logic.Relation

/-!
# Graphs contracted along paths

A graph of parts stands for a graph of nodes when every part is a path from
the node where it begins, and a step out of a part goes along an edge to where
another part begins.  Then the parts that are reached hold exactly the nodes
that are reached.
-/

open Relation

/-- The parts and their edges stand for the nodes and their steps. -/
structure Contraction {ν π : Type} (step : ν → ν → Prop) (edge : π → π → Prop)
    (begins holds : π → ν → Prop) : Prop where
  holds_of_begins : ∀ {part node}, begins part node → holds part node
  path : ∀ {part first node}, begins part first → holds part node →
    ReflTransGen step first node
  follows : ∀ {part node next}, holds part node → step node next →
    holds part next ∨ ∃ other, edge part other ∧ begins other next
  realised : ∀ {part other}, edge part other →
    ∃ node next, holds part node ∧ step node next ∧ begins other next

namespace Contraction

variable {ν π : Type} {step : ν → ν → Prop} {edge : π → π → Prop}
  {begins holds : π → ν → Prop} {entry part : π} {first node : ν}

/-- A part that is reached begins at a node that is. -/
theorem reached_of_edges (hcontraction : Contraction step edge begins holds)
    (hentry : begins entry first) (hedges : ReflTransGen edge entry part) :
    ∃ node, begins part node ∧ ReflTransGen step first node := by
  induction hedges with
  | refl => exact ⟨first, hentry, .refl⟩
  | tail _ hedge ih =>
      obtain ⟨beginning, hbegins, hreached⟩ := ih
      obtain ⟨node, next, hholds, hstep, hnext⟩ := hcontraction.realised hedge
      have hnode := hreached.trans (hcontraction.path hbegins hholds)
      exact ⟨next, hnext, hnode.tail hstep⟩

/-- A node that is reached lies in a part that is. -/
theorem edges_of_reached (hcontraction : Contraction step edge begins holds)
    (hentry : begins entry first) (hsteps : ReflTransGen step first node) :
    ∃ part, ReflTransGen edge entry part ∧ holds part node := by
  induction hsteps with
  | refl => exact ⟨entry, .refl, hcontraction.holds_of_begins hentry⟩
  | tail _ hstep ih =>
      obtain ⟨part, hedges, hholds⟩ := ih
      rcases hcontraction.follows hholds hstep with hnext |
          ⟨other, hedge, hnext⟩
      · exact ⟨part, hedges, hnext⟩
      · exact ⟨other, hedges.tail hedge, hcontraction.holds_of_begins hnext⟩

theorem reached_iff (hcontraction : Contraction step edge begins holds)
    (hentry : begins entry first) :
    ReflTransGen step first node ↔
      ∃ part, ReflTransGen edge entry part ∧ holds part node := by
  constructor
  · intro hsteps
    exact hcontraction.edges_of_reached hentry hsteps
  · intro ⟨part, hedges, hholds⟩
    obtain ⟨beginning, hbegins, hreached⟩ :=
      hcontraction.reached_of_edges hentry hedges
    exact hreached.trans (hcontraction.path hbegins hholds)

end Contraction
