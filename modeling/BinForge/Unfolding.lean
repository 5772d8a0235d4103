import Mathlib.Data.List.Basic
import Mathlib.Order.Lattice

/-!
# Finite unfoldings

A graph whose nodes list entries, each an item or a further node under a key,
unfolds from a list of entries to a forest if every path through it ends.  The
forest is unique, and a node never appears inside of its own unfolding.  A walk
along the paths therefore meets no node it is already inside of.
-/

namespace Unfolding

/-- An entry of a node. -/
abbrev Entry (κ α ν : Type) := κ × (α ⊕ ν)

/-- What the nodes list, as far as they list anything. -/
abbrev Graph (κ α ν : Type) := ν → Option (List (Entry κ α ν))

/-- Items and further forests under keys, in order. -/
inductive Forest (κ α : Type)
  | nil
  | item (key : κ) (value : α) (rest : Forest κ α)
  | branch (key : κ) (inner rest : Forest κ α)
  deriving DecidableEq, Repr

variable {κ α ν : Type}

namespace Forest

def height : Forest κ α → ℕ
  | nil => 0
  | item _ _ rest => rest.height
  | branch _ inner rest => max (inner.height + 1) rest.height

/-- The items in order, each with the keys on the path to it. -/
def listing : List κ → Forest κ α → List (List κ × α)
  | _, nil => []
  | path, item key value rest => (path ++ [key], value) :: listing path rest
  | path, branch key inner rest =>
      listing (path ++ [key]) inner ++ listing path rest

def append : Forest κ α → Forest κ α → Forest κ α
  | nil, tail => tail
  | item key value rest, tail => item key value (rest.append tail)
  | branch key inner rest, tail => branch key inner (rest.append tail)

theorem height_append (head tail : Forest κ α) :
    (head.append tail).height = max head.height tail.height := by
  induction head with
  | nil => exact (Nat.zero_max _).symm
  | item key value rest ih => exact ih
  | branch key inner rest _ ih => rw [append, height, height, ih, max_assoc]

theorem listing_append (path : List κ) (head tail : Forest κ α) :
    listing path (head.append tail) =
      listing path head ++ listing path tail := by
  induction head with
  | nil => rfl
  | item key value rest ih => rw [append, listing, listing, ih, List.cons_append]
  | branch key inner rest _ ih =>
      rw [append, listing, listing, ih, List.append_assoc]

end Forest

/-- The entries unfold to the forest. -/
inductive Unfolds (graph : Graph κ α ν) :
    List (Entry κ α ν) → Forest κ α → Prop
  | nil : Unfolds graph [] .nil
  | item {key : κ} {value : α} {entries : List (Entry κ α ν)}
      {rest : Forest κ α} (hrest : Unfolds graph entries rest) :
      Unfolds graph ((key, .inl value) :: entries) (.item key value rest)
  | branch {key : κ} {node : ν} {inside entries : List (Entry κ α ν)}
      {inner rest : Forest κ α} (hnode : graph node = some inside)
      (hinner : Unfolds graph inside inner)
      (hrest : Unfolds graph entries rest) :
      Unfolds graph ((key, .inr node) :: entries) (.branch key inner rest)

variable {graph : Graph κ α ν} {entries inside : List (Entry κ α ν)}
  {forest left right : Forest κ α} {node : ν}

theorem Unfolds.unique (hleft : Unfolds graph entries left)
    (hright : Unfolds graph entries right) : left = right := by
  induction hleft generalizing right with
  | nil => cases hright; rfl
  | item _ ih =>
      cases hright with
      | item hrest => rw [ih hrest]
  | branch hnode _ _ ihInner ihRest =>
      cases hright with
      | branch hsame hinner hrest =>
          obtain rfl := Option.some.inj (hnode.symm.trans hsame)
          rw [ihInner hinner, ihRest hrest]

/-- Entries unfold one after the other. -/
theorem unfolds_cons_iff {entry : Entry κ α ν} :
    Unfolds graph (entry :: entries) forest ↔
      ∃ head tail, Unfolds graph [entry] head ∧ Unfolds graph entries tail ∧
        forest = head.append tail := by
  constructor
  · intro hforest
    cases hforest with
    | item hrest => exact ⟨_, _, .item .nil, hrest, rfl⟩
    | branch hnode hinner hrest =>
        exact ⟨_, _, .branch hnode hinner .nil, hrest, rfl⟩
  · rintro ⟨head, tail, hhead, htail, rfl⟩
    cases hhead with
    | item hrest =>
        cases hrest
        exact .item htail
    | branch hnode hinner hrest =>
        cases hrest
        exact .branch hnode hinner htail

/-- What the items listed by every node satisfy, the items of a forest do. -/
theorem Unfolds.forall_listing {holds : α → Prop}
    (hgraph : ∀ node inside, graph node = some inside →
      ∀ key value, (key, .inl value) ∈ inside → holds value)
    (hforest : Unfolds graph entries forest)
    (hentries : ∀ key value, (key, .inl value) ∈ entries → holds value)
    (path : List κ) : ∀ found ∈ forest.listing path, holds found.2 := by
  induction hforest generalizing path with
  | nil => exact fun found hmem => absurd hmem List.not_mem_nil
  | @item key value entries rest hrest ih =>
      intro found hmem
      rw [Forest.listing] at hmem
      rcases List.mem_cons.mp hmem with rfl | hmem
      · exact hentries key value List.mem_cons_self
      · exact ih (fun key value hin => hentries key value
          (List.mem_cons_of_mem _ hin)) path found hmem
  | @branch key node inside entries inner rest hnode _ _ ihInner ihRest =>
      intro found hmem
      rw [Forest.listing] at hmem
      rcases List.mem_append.mp hmem with hmem | hmem
      · exact ihInner (hgraph node inside hnode) (path ++ [key]) found hmem
      · exact ihRest (fun key value hin => hentries key value
          (List.mem_cons_of_mem _ hin)) path found hmem

/-- The node unfolds to a forest that is higher than this. -/
def HigherThan (graph : Graph κ α ν) (height : ℕ) (node : ν) : Prop :=
  ∃ entries forest, graph node = some entries ∧ Unfolds graph entries forest ∧
    height < forest.height

/-- What unfolds lower than a node is another node. -/
theorem HigherThan.ne {other : ν} (hother : HigherThan graph forest.height other)
    (hnode : graph node = some entries) (hforest : Unfolds graph entries forest) :
    node ≠ other := by
  obtain ⟨listed, higher, hlisted, hhigher, hlt⟩ := hother
  rintro rfl
  obtain rfl := Option.some.inj (hnode.symm.trans hlisted)
  exact absurd hlt (hforest.unique hhigher ▸ Nat.lt_irrefl _)

theorem HigherThan.mono {lower upper : ℕ} (hhigher : HigherThan graph upper node)
    (hle : lower ≤ upper) : HigherThan graph lower node := by
  obtain ⟨listed, higher, hlisted, hunfolds, hlt⟩ := hhigher
  exact ⟨listed, higher, hlisted, hunfolds, hle.trans_lt hlt⟩

end Unfolding
