import Mathlib

/-!
# Strongly connected components of a relation

Nodes are mutual when each reaches the other.  A component lists one class of
mutual nodes in full, and a relation has a cycle exactly when a component has
two nodes or a loop.
-/

namespace StronglyConnected

open Relation

variable {ν : Type} {edge : ν → ν → Prop} {left right node : ν}
  {members : List ν} {components : List (List ν)}

def Mutual (edge : ν → ν → Prop) (left right : ν) : Prop :=
  ReflTransGen edge left right ∧ ReflTransGen edge right left

theorem Mutual.symm (hmutual : Mutual edge left right) :
    Mutual edge right left :=
  ⟨hmutual.2, hmutual.1⟩

theorem Mutual.trans {middle : ν} (hleft : Mutual edge left middle)
    (hright : Mutual edge middle right) : Mutual edge left right :=
  ⟨hleft.1.trans hright.1, hright.2.trans hleft.2⟩

/-- The members are exactly the nodes mutual with any of them. -/
structure IsComponent (edge : ν → ν → Prop) (members : List ν) : Prop where
  nonempty : members ≠ []
  full : ∀ member ∈ members, ∀ other,
    other ∈ members ↔ Mutual edge member other

/-- What is closed under the edges that lead back contains all mutual nodes. -/
theorem mem_of_closed {inside : ν → Prop}
    (hclosed : ∀ source target, inside source → edge source target →
      ReflTransGen edge target node → inside target)
    (hleft : inside left) (hpath : ReflTransGen edge left right)
    (hback : ReflTransGen edge right node) : inside right := by
  induction hpath with
  | refl => exact hleft
  | tail _ hedge ih =>
      exact hclosed _ _ (ih (hback.head hedge)) hedge hback

theorem IsComponent.of_root (hnode : node ∈ members)
    (hmutual : ∀ member ∈ members, Mutual edge node member)
    (hfull : ∀ other, Mutual edge node other → other ∈ members) :
    IsComponent edge members := by
  refine ⟨List.ne_nil_of_mem hnode, fun member hmember other => ?_⟩
  have hroot := hmutual member hmember
  exact ⟨fun hother => hroot.symm.trans (hmutual other hother),
    fun hother => hfull other (hroot.trans hother)⟩

theorem IsComponent.congr {others : List ν}
    (hcomponent : IsComponent edge members)
    (hsame : ∀ node, node ∈ others ↔ node ∈ members) :
    IsComponent edge others := by
  obtain ⟨first, hfirst⟩ := List.exists_mem_of_ne_nil _ hcomponent.nonempty
  refine ⟨List.ne_nil_of_mem ((hsame first).mpr hfirst), ?_⟩
  intro member hmember other
  rw [hsame]
  exact hcomponent.full member ((hsame member).mp hmember) other

/-- The component shows a cycle. -/
def Cyclic (edge : ν → ν → Prop) (members : List ν) : Prop :=
  1 < members.length ∨ ∃ node ∈ members, edge node node

theorem exists_cycle_of_cyclic (hcomponent : IsComponent edge members)
    (hnodup : members.Nodup) (hcyclic : Cyclic edge members) :
    ∃ node, TransGen edge node node := by
  rcases hcyclic with hlength | ⟨node, _, hloop⟩
  · match members, hlength with
    | first :: second :: rest, _ =>
        have hne : first ≠ second := by
          rintro rfl
          simp at hnodup
        obtain ⟨hforth, hback⟩ :=
          (hcomponent.full first (by simp) second).mp (by simp)
        rcases reflTransGen_iff_eq_or_transGen.mp hforth with heq | hforth
        · exact absurd heq.symm hne
        · exact ⟨first, hforth.trans_left hback⟩
  · exact ⟨node, .single hloop⟩

theorem cyclic_of_cycle (hcomponent : IsComponent edge members)
    (hnode : node ∈ members) (hcycle : TransGen edge node node) :
    Cyclic edge members := by
  obtain ⟨next, hedge, hback⟩ := TransGen.head'_iff.mp hcycle
  by_cases hsame : next = node
  · subst hsame
    exact Or.inr ⟨next, hnode, hedge⟩
  · have hnext : next ∈ members :=
      (hcomponent.full node hnode next).mpr ⟨.single hedge, hback⟩
    refine Or.inl (Nat.lt_of_not_le fun hshort => hsame ?_)
    match members, hshort, hnext, hnode with
    | [only], _, hnext, hnode =>
        rw [List.mem_singleton.mp hnext, List.mem_singleton.mp hnode]

theorem exists_cycle_iff
    (hcomponents : ∀ members ∈ components,
      IsComponent edge members ∧ members.Nodup)
    (hcover : ∀ node, TransGen edge node node → node ∈ components.flatten) :
    (∃ node, TransGen edge node node) ↔
      ∃ members ∈ components, Cyclic edge members := by
  constructor
  · rintro ⟨node, hcycle⟩
    obtain ⟨members, hmembers, hnode⟩ :=
      List.mem_flatten.mp (hcover node hcycle)
    exact ⟨members, hmembers,
      cyclic_of_cycle (hcomponents members hmembers).1 hnode hcycle⟩
  · rintro ⟨members, hmembers, hcyclic⟩
    obtain ⟨hcomponent, hnodup⟩ := hcomponents members hmembers
    exact exists_cycle_of_cyclic hcomponent hnodup hcyclic

end StronglyConnected
