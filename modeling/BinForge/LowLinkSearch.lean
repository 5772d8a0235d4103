import Mathlib

/-!
# Depth-first search with low links

The search numbers the nodes in the order in which it meets them, keeps those
whose component is not known yet on a stack and lowers for each the least
number it has seen a way back to.  A node that keeps its own number ends a
component, which is the top of the stack down to that node.
-/

/-- Why a search stops: the numbers run out, or the bound on its depth. -/
inductive Halt
  | overflow
  | exhausted
  deriving DecidableEq, Repr

/-- The arrays the recursive calls share; a negative number is not given. -/
structure LowLinkSearch (ν : Type) where
  indexOf : ν → ℤ := fun _ => -1
  lowLink : ν → ℤ := fun _ => -1
  stack : List ν := []
  onStack : ν → Bool := fun _ => false
  nextIndex : ℤ := 0
  components : List (List ν) := []
  cyclic : Bool := false

namespace LowLinkSearch

variable {ν : Type} [LinearOrder ν]

/-- Number the node and push it. -/
def push (node : ν) (search : LowLinkSearch ν) : LowLinkSearch ν :=
  { search with
    indexOf := Function.update search.indexOf node search.nextIndex
    lowLink := Function.update search.lowLink node search.nextIndex
    nextIndex := search.nextIndex + 1
    stack := node :: search.stack
    onStack := Function.update search.onStack node true }

/-- The start of a call; `greatest` is the greatest number there is. -/
def enter (greatest : ℤ) (node : ν) (search : LowLinkSearch ν) :
    Except Halt (LowLinkSearch ν) :=
  if search.nextIndex < greatest then .ok (push node search)
  else .error .overflow

def lowerTo (node : ν) (bound : ℤ) (search : LowLinkSearch ν) :
    LowLinkSearch ν :=
  { search with
    lowLink := Function.update search.lowLink node
      (min (search.lowLink node) bound) }

/-- The nodes down to `node`, which is one of them, and those under it. -/
def popThrough (node : ν) : List ν → List ν × List ν
  | [] => ([], [])
  | member :: rest =>
      if member = node then ([member], rest)
      else
        let (component, remaining) := popThrough node rest
        (member :: component, remaining)

/-- Take a component off the stack. -/
def complete (loop : Bool) (component remaining : List ν)
    (search : LowLinkSearch ν) : LowLinkSearch ν :=
  { search with
    stack := remaining
    onStack := fun member =>
      if member ∈ component then false else search.onStack member
    components := search.components ++ [component.insertionSort (· ≤ ·)]
    cyclic := search.cyclic || (decide (component.length > 1) || loop) }

/-- What is done once the successors have been looked at. -/
def leave (successors : ν → List ν) (node : ν) (search : LowLinkSearch ν) :
    LowLinkSearch ν :=
  if search.lowLink node ≠ search.indexOf node then search
  else
    let (component, remaining) := popThrough node search.stack
    complete (node ∈ successors node) component remaining search

/-- The recursive search; `depth` bounds the calls under each other. -/
def strongConnect (successors : ν → List ν) (greatest : ℤ) :
    ℕ → ν → LowLinkSearch ν → Except Halt (LowLinkSearch ν)
  | 0, _, _ => .error .exhausted
  | depth + 1, node, search => do
      let search ← enter greatest node search
      let search ← (successors node).foldlM (fun search target =>
        if search.indexOf target < 0 then do
          let search ← strongConnect successors greatest depth target search
          return lowerTo node (search.lowLink target) search
        else if search.onStack target then
          return lowerTo node (search.indexOf target) search
        else return search) search
      return leave successors node search

/-- The loop over all nodes. -/
def connectAll (successors : ν → List ν) (greatest : ℤ) (depth : ℕ)
    (nodes : List ν) : Except Halt (LowLinkSearch ν) :=
  nodes.foldlM (fun search node =>
    if search.indexOf node < 0 then
      strongConnect successors greatest depth node search
    else return search) {}

/-! ## Searches that end -/

/-- The search ends in a good state, or the numbers have run out. -/
def Ends {α : Type} (overflows : Prop) (good : α → Prop) :
    Except Halt α → Prop
  | .ok value => good value
  | .error .overflow => overflows
  | .error .exhausted => False

section Ends

variable {α β : Type} {overflows : Prop} {good : α → Prop} {fine : β → Prop}

theorem Ends.bind {first : Except Halt α} {rest : α → Except Halt β}
    (hfirst : Ends overflows good first)
    (hrest : ∀ value, good value → Ends overflows fine (rest value)) :
    Ends overflows fine (first >>= rest) := by
  match first, hfirst with
  | .ok value, hgood => exact hrest value hgood
  | .error .overflow, hoverflows => exact hoverflows

theorem Ends.imp {result : Except Halt α} {fine : α → Prop}
    (hresult : Ends overflows good result)
    (himp : ∀ value, good value → fine value) :
    Ends overflows fine result := by
  match result, hresult with
  | .ok value, hgood => exact himp value hgood
  | .error .overflow, hoverflows => exact hoverflows

/-- A loop keeps what holds of the items done. -/
theorem Ends.foldlM {body : β → α → Except Halt β} {items : List α}
    {start : β} (kept : List α → β → Prop) (hstart : kept [] start)
    (hbody : ∀ done item, item ∈ items → ∀ state, kept done state →
      Ends overflows (kept (done ++ [item])) (body state item)) :
    Ends overflows (kept items) (items.foldlM body start) := by
  suffices hall : ∀ rest done state, (∀ item ∈ rest, item ∈ items) →
      kept done state →
        Ends overflows (kept (done ++ rest)) (rest.foldlM body state) from
    hall items [] start (fun _ hitem => hitem) hstart
  intro rest
  induction rest with
  | nil =>
      intro done state _ hkept
      rw [List.append_nil]
      exact hkept
  | cons item rest ih =>
      intro done state hitems hkept
      rw [List.foldlM_cons, List.append_cons]
      obtain ⟨hitem, hrest⟩ := List.forall_mem_cons.mp hitems
      exact (hbody done item hitem state hkept).bind
        fun next hnext => ih (done ++ [item]) next hrest hnext

end Ends

end LowLinkSearch
