import BinForge.LowLinkSearch
import BinForge.StronglyConnected

/-!
# The search finds the strongly connected components

Between steps the nodes on the stack reach the ones above them and a node that
is still being searched below them, and every edge of a node that is done
leads to a numbered node.  The low link of a call bounds the numbers its new
nodes have edges to, so a node that keeps its own number has no way back under
it and ends a component.
-/

open Relation
open StronglyConnected

namespace LowLinkSearch

variable {ν : Type} [LinearOrder ν]

/-! ## The invariant -/

variable {successors : ν → List ν} {greatest : ℤ} {nodes : Finset ν}
  {active : List ν} {search before after : LowLinkSearch ν} {node target : ν}

abbrev Edge (successors : ν → List ν) (source target : ν) : Prop :=
  target ∈ successors source

/-- What holds between steps; `active` are the nodes being searched, and the
other numbered ones are done with. -/
structure Sound (successors : ν → List ν) (greatest : ℤ) (nodes : Finset ν)
    (active : List ν) (search : LowLinkSearch ν) : Prop where
  numbered : ∀ node, 0 ≤ search.indexOf node ↔
    node ∈ search.stack ++ search.components.flatten
  below : ∀ node, search.indexOf node < search.nextIndex
  counted : search.nextIndex =
    (search.stack ++ search.components.flatten).length
  bounded : search.nextIndex ≤ greatest
  nodup : (search.stack ++ search.components.flatten).Nodup
  inside : ∀ node ∈ search.stack ++ search.components.flatten, node ∈ nodes
  sorted : search.stack.Pairwise fun upper lower =>
    search.indexOf lower < search.indexOf upper
  onStack : ∀ node, search.onStack node = true ↔ node ∈ search.stack
  current : ∀ node ∈ active, node ∈ search.stack
  chained : ∀ lower ∈ search.stack, ∀ upper ∈ search.stack,
    search.indexOf lower ≤ search.indexOf upper →
      ReflTransGen (Edge successors) lower upper
  rooted : ∀ node ∈ search.stack, ∃ root ∈ active,
    search.indexOf root ≤ search.indexOf node ∧
      ReflTransGen (Edge successors) node root
  explored : ∀ node, 0 ≤ search.indexOf node → node ∉ active →
    ∀ target ∈ successors node, 0 ≤ search.indexOf target
  component : ∀ members ∈ search.components,
    IsComponent (Edge successors) members ∧ members.Pairwise (· < ·)
  cyclic : search.cyclic = true ↔
    ∃ members ∈ search.components, Cyclic (Edge successors) members

theorem sound_start (hgreatest : 0 ≤ greatest) :
    Sound successors greatest nodes [] {} := by
  constructor <;> simp [hgreatest]

namespace Sound

theorem numbered_of_stack (hsound : Sound successors greatest nodes active
    search) (hnode : node ∈ search.stack) : 0 ≤ search.indexOf node :=
  (hsound.numbered node).mpr (List.mem_append_left _ hnode)

theorem stack_of_numbered (hsound : Sound successors greatest nodes active
    search) (hnumbered : 0 ≤ search.indexOf node)
    (hcomponent : ∀ members ∈ search.components, node ∉ members) :
    node ∈ search.stack := by
  rcases List.mem_append.mp ((hsound.numbered node).mp hnumbered) with
    hstack | hdone
  · exact hstack
  · obtain ⟨members, hmembers, hnode⟩ := List.mem_flatten.mp hdone
    exact absurd hnode (hcomponent members hmembers)

theorem not_mem_component (hsound : Sound successors greatest nodes active
    search) (hnode : node ∈ search.stack) :
    ∀ members ∈ search.components, node ∉ members :=
  fun _ hmembers hmember =>
    (List.nodup_append.mp hsound.nodup).2.2 node hnode node
      (List.mem_flatten.mpr ⟨_, hmembers, hmember⟩) rfl

theorem nextIndex_nonneg (hsound : Sound successors greatest nodes active
    search) : 0 ≤ search.nextIndex := by
  rw [hsound.counted]
  exact Int.natCast_nonneg _

theorem nextIndex_lt_card (hsound : Sound successors greatest nodes active
    search) (hnode : node ∈ nodes) (hnew : search.indexOf node < 0) :
    search.nextIndex < nodes.card := by
  have hfresh : node ∉ (search.stack ++ search.components.flatten).toFinset :=
    fun hmem => absurd ((hsound.numbered node).mpr (List.mem_toFinset.mp hmem))
      (not_le.mpr hnew)
  rw [hsound.counted, Nat.cast_lt,
    ← List.toFinset_card_of_nodup hsound.nodup]
  refine Finset.card_lt_card (Finset.ssubset_iff_of_subset ?_ |>.mpr
    ⟨node, hnode, hfresh⟩)
  exact fun member hmember =>
    hsound.inside member (List.mem_toFinset.mp hmember)

/-- With nothing left to search, every node met is in a component. -/
theorem stack_eq_nil (hsound : Sound successors greatest nodes [] search) :
    search.stack = [] := by
  refine List.eq_nil_iff_forall_not_mem.mpr fun node hnode => ?_
  obtain ⟨root, hroot, -⟩ := hsound.rooted node hnode
  exact absurd hroot List.not_mem_nil

theorem lowerTo (hsound : Sound successors greatest nodes active search)
    (node : ν) (bound : ℤ) :
    Sound successors greatest nodes active (search.lowerTo node bound) where
  numbered := hsound.numbered
  below := hsound.below
  counted := hsound.counted
  bounded := hsound.bounded
  nodup := hsound.nodup
  inside := hsound.inside
  sorted := hsound.sorted
  onStack := hsound.onStack
  current := hsound.current
  chained := hsound.chained
  rooted := hsound.rooted
  explored := hsound.explored
  component := hsound.component
  cyclic := hsound.cyclic

end Sound

/-! ## Entering a node -/

/-- What a call at `node` has done to the arrays while it looks at the
successors, `done` being those it has looked at. -/
structure Exploring (successors : ν → List ν) (greatest : ℤ)
    (nodes : Finset ν) (active : List ν) (before : LowLinkSearch ν)
    (node : ν) (done : List ν) (search : LowLinkSearch ν) : Prop where
  sound : Sound successors greatest nodes (node :: active) search
  stack : ∃ fresh, search.stack = fresh ++ node :: before.stack ∧
    ∀ upper ∈ fresh, ∀ lower ∈ before.stack, lower ∈ successors upper →
      search.lowLink node ≤ before.indexOf lower
  kept : ∀ other, 0 ≤ before.indexOf other →
    search.indexOf other = before.indexOf other ∧
      search.lowLink other = before.lowLink other
  index : search.indexOf node = before.nextIndex
  low_le : search.lowLink node ≤ search.indexOf node
  low : ∃ lower ∈ search.stack,
    search.indexOf lower = search.lowLink node ∧
      ReflTransGen (Edge successors) node lower
  done : ∀ target ∈ done, 0 ≤ search.indexOf target ∧
    (target ∈ before.stack → search.lowLink node ≤ before.indexOf target)

/-- What a completed call at `node` has done. -/
structure Connected (successors : ν → List ν) (greatest : ℤ)
    (nodes : Finset ν) (active : List ν) (before : LowLinkSearch ν)
    (node : ν) (after : LowLinkSearch ν) : Prop where
  sound : Sound successors greatest nodes active after
  stack : ∃ fresh, after.stack = fresh ++ before.stack ∧
    ∀ upper ∈ fresh, ∀ lower ∈ before.stack, lower ∈ successors upper →
      after.lowLink node ≤ before.indexOf lower
  kept : ∀ other, 0 ≤ before.indexOf other →
    after.indexOf other = before.indexOf other ∧
      after.lowLink other = before.lowLink other
  index : before.nextIndex ≤ after.indexOf node
  low : after.lowLink node = after.indexOf node ∨
    ∃ lower ∈ after.stack, after.indexOf lower = after.lowLink node ∧
      ReflTransGen (Edge successors) node lower

@[simp] theorem push_indexOf_self :
    (push node search).indexOf node = search.nextIndex :=
  Function.update_self ..

@[simp] theorem push_lowLink_self :
    (push node search).lowLink node = search.nextIndex :=
  Function.update_self ..

theorem push_indexOf_of_ne {other : ν} (hne : other ≠ node) :
    (push node search).indexOf other = search.indexOf other :=
  Function.update_of_ne hne ..

theorem push_lowLink_of_ne {other : ν} (hne : other ≠ node) :
    (push node search).lowLink other = search.lowLink other :=
  Function.update_of_ne hne ..

theorem push_sound (hsound : Sound successors greatest nodes active before)
    (hnode : node ∈ nodes) (hnew : before.indexOf node < 0)
    (hroots : ∀ root ∈ active, ReflTransGen (Edge successors) root node)
    (hroom : before.nextIndex < greatest) :
    Sound successors greatest nodes (node :: active) (push node before) := by
  have hfresh : node ∉ before.stack ++ before.components.flatten :=
    fun hmem => absurd ((hsound.numbered node).mpr hmem) (not_le.mpr hnew)
  have hold : ∀ other ∈ before.stack,
      (push node before).indexOf other = before.indexOf other := by
    rintro other hother
    refine push_indexOf_of_ne ?_
    rintro rfl
    exact hfresh (List.mem_append_left _ hother)
  have hreach : ∀ lower ∈ before.stack,
      ReflTransGen (Edge successors) lower node := by
    intro lower hlower
    obtain ⟨root, hroot, -, hpath⟩ := hsound.rooted lower hlower
    exact hpath.trans (hroots root hroot)
  constructor
  case numbered =>
    intro other
    show _ ↔ other ∈ node :: (before.stack ++ before.components.flatten)
    rw [List.mem_cons]
    by_cases hsame : other = node
    · subst hsame
      simp [hsound.nextIndex_nonneg]
    · rw [push_indexOf_of_ne hsame, or_iff_right hsame]
      exact hsound.numbered other
  case below =>
    intro other
    show _ < before.nextIndex + 1
    by_cases hsame : other = node
    · subst hsame
      simp
    · rw [push_indexOf_of_ne hsame]
      have hbelow := hsound.below other
      omega
  case counted =>
    show before.nextIndex + 1 =
      (node :: (before.stack ++ before.components.flatten)).length
    rw [List.length_cons, Nat.cast_add, ← hsound.counted, Nat.cast_one]
  case bounded => exact hroom
  case nodup => exact List.nodup_cons.mpr ⟨hfresh, hsound.nodup⟩
  case inside => exact List.forall_mem_cons.mpr ⟨hnode, hsound.inside⟩
  case sorted =>
    refine List.pairwise_cons.mpr ⟨fun lower hlower => ?_, ?_⟩
    · rw [push_indexOf_self, hold lower hlower]
      exact hsound.below lower
    · refine hsound.sorted.imp_of_mem fun hupper hlower hlt => ?_
      rwa [hold _ hupper, hold _ hlower]
  case onStack =>
    intro other
    show Function.update before.onStack node true other = true ↔
      other ∈ node :: before.stack
    by_cases hsame : other = node
    · subst hsame
      simp
    · simp [hsame, hsound.onStack]
  case current =>
    exact List.forall_mem_cons.mpr ⟨List.mem_cons_self,
      fun root hroot => List.mem_cons_of_mem _ (hsound.current root hroot)⟩
  case chained =>
    intro lower hlower upper hupper hle
    rcases List.mem_cons.mp hlower with rfl | holdLower <;>
      rcases List.mem_cons.mp hupper with rfl | holdUpper
    · exact .refl
    · rw [push_indexOf_self, hold upper holdUpper] at hle
      exact absurd (hsound.below upper) (not_lt.mpr hle)
    · exact hreach lower holdLower
    · rw [hold lower holdLower, hold upper holdUpper] at hle
      exact hsound.chained lower holdLower upper holdUpper hle
  case rooted =>
    intro other hother
    rcases List.mem_cons.mp hother with rfl | hother
    · exact ⟨other, List.mem_cons_self, le_rfl, .refl⟩
    · obtain ⟨root, hroot, hle, hpath⟩ := hsound.rooted other hother
      refine ⟨root, List.mem_cons_of_mem _ hroot, ?_, hpath⟩
      rwa [hold root (hsound.current root hroot), hold other hother]
  case explored =>
    intro other hnumbered hother target htarget
    obtain ⟨hne, hother⟩ := not_or.mp (mt List.mem_cons.mpr hother)
    rw [push_indexOf_of_ne hne] at hnumbered
    have hseen := hsound.explored other hnumbered hother target htarget
    rwa [push_indexOf_of_ne]
    rintro rfl
    exact absurd hseen (not_le.mpr hnew)
  case component => exact hsound.component
  case cyclic => exact hsound.cyclic

theorem enter_exploring
    (hsound : Sound successors greatest nodes active before)
    (hnode : node ∈ nodes) (hnew : before.indexOf node < 0)
    (hroots : ∀ root ∈ active, ReflTransGen (Edge successors) root node) :
    Ends (greatest < nodes.card)
      (Exploring successors greatest nodes active before node [])
      (enter greatest node before) := by
  unfold enter
  split
  next hroom =>
    have hne : ∀ other, 0 ≤ before.indexOf other → other ≠ node := by
      rintro other hnumbered rfl
      exact absurd hnumbered (not_le.mpr hnew)
    refine ⟨push_sound hsound hnode hnew hroots hroom, ⟨[], rfl, by simp⟩,
      ?_, by simp, by simp, ⟨node, List.mem_cons_self, by simp, .refl⟩,
      by simp⟩
    exact fun other hnumbered => ⟨push_indexOf_of_ne (hne other hnumbered),
      push_lowLink_of_ne (hne other hnumbered)⟩
  next hfull =>
    exact lt_of_le_of_lt (not_lt.mp hfull)
      (hsound.nextIndex_lt_card hnode hnew)

/-! ## Looking at a successor -/

@[simp] theorem lowerTo_lowLink_self {bound : ℤ} :
    (lowerTo node bound search).lowLink node =
      min (search.lowLink node) bound :=
  Function.update_self ..

theorem lowerTo_lowLink_of_ne {bound : ℤ} {other : ν} (hne : other ≠ node) :
    (lowerTo node bound search).lowLink other = search.lowLink other :=
  Function.update_of_ne hne ..

section Successor

variable {done : List ν}

theorem Exploring.numbered (hexploring : Exploring successors greatest nodes
    active before node done search) : 0 ≤ search.indexOf node :=
  hexploring.sound.numbered_of_stack
    (hexploring.sound.current node List.mem_cons_self)

/-- What has been pushed since brings a bound on the low link: the number of a
node that the target reaches, and no more than any number seen under it. -/
theorem Exploring.lowered
    (hexploring : Exploring successors greatest nodes active before node done
      search)
    (hbefore : Sound successors greatest nodes active before)
    (hnew : before.indexOf node < 0) (hedge : target ∈ successors node)
    (hsound : Sound successors greatest nodes (node :: active) after)
    {fresh : List ν} (hstack : after.stack = fresh ++ search.stack)
    (hkept : ∀ other, 0 ≤ search.indexOf other →
      after.indexOf other = search.indexOf other ∧
        after.lowLink other = search.lowLink other) {bound : ℤ}
    (hfresh : ∀ upper ∈ fresh, ∀ lower ∈ search.stack,
      lower ∈ successors upper → bound ≤ search.indexOf lower)
    (hlow : bound < search.lowLink node → ∃ lower ∈ after.stack,
      after.indexOf lower = bound ∧
        ReflTransGen (Edge successors) target lower)
    (htarget : 0 ≤ after.indexOf target)
    (hbound : target ∈ search.stack → bound ≤ search.indexOf target) :
    Exploring successors greatest nodes active before node (done ++ [target])
      (lowerTo node bound after) := by
  obtain ⟨earlier, hearlier, hunder⟩ := hexploring.stack
  obtain ⟨hsameIndex, hsameLow⟩ := hkept node hexploring.numbered
  have hle : ∀ other ∈ before.stack, other ∈ search.stack ∧
      search.indexOf other = before.indexOf other := by
    intro other hother
    refine ⟨?_, (hexploring.kept other (hbefore.numbered_of_stack hother)).1⟩
    rw [hearlier]
    exact List.mem_append_right _ (List.mem_cons_of_mem _ hother)
  constructor
  case sound => exact hsound.lowerTo node bound
  case stack =>
    refine ⟨fresh ++ earlier, ?_, fun upper hupper lower hlower hnext => ?_⟩
    · show after.stack = _
      rw [hstack, hearlier, List.append_assoc]
    · rw [lowerTo_lowLink_self]
      obtain ⟨hlowerStack, hlowerIndex⟩ := hle lower hlower
      rcases List.mem_append.mp hupper with hupper | hupper
      · rw [← hlowerIndex]
        exact (min_le_right _ _).trans
          (hfresh upper hupper lower hlowerStack hnext)
      · rw [hsameLow]
        exact (min_le_left _ _).trans (hunder upper hupper lower hlower hnext)
  case kept =>
    intro other hnumbered
    obtain ⟨hindex, hother⟩ := hexploring.kept other hnumbered
    obtain ⟨hindexAfter, hotherAfter⟩ := hkept other (hindex ▸ hnumbered)
    have hne : other ≠ node := by
      rintro rfl
      exact absurd hnumbered (not_le.mpr hnew)
    rw [lowerTo_lowLink_of_ne hne]
    exact ⟨hindexAfter.trans hindex, hotherAfter.trans hother⟩
  case index => exact hsameIndex.trans hexploring.index
  case low_le =>
    rw [lowerTo_lowLink_self, hsameLow]
    show _ ≤ after.indexOf node
    rw [hsameIndex]
    exact (min_le_left _ _).trans hexploring.low_le
  case low =>
    rw [lowerTo_lowLink_self, hsameLow]
    rcases lt_or_ge bound (search.lowLink node) with hless | hmore
    · obtain ⟨lower, hlower, hindex, hpath⟩ := hlow hless
      exact ⟨lower, hlower, hindex.trans (min_eq_right hless.le).symm,
        hpath.head hedge⟩
    · obtain ⟨lower, hlower, hindex, hpath⟩ := hexploring.low
      have hsame := (hkept lower (hexploring.sound.numbered_of_stack hlower)).1
      refine ⟨lower, ?_, ?_, hpath⟩
      · show lower ∈ after.stack
        rw [hstack]
        exact List.mem_append_right _ hlower
      · rw [min_eq_left hmore]
        exact hsame.trans hindex
  case done =>
    intro other hother
    rw [lowerTo_lowLink_self, hsameLow]
    rcases List.mem_append.mp hother with hother | hother
    · obtain ⟨hnumbered, hless⟩ := hexploring.done other hother
      refine ⟨?_, fun hold => (min_le_left _ _).trans (hless hold)⟩
      show 0 ≤ after.indexOf other
      rwa [(hkept other hnumbered).1]
    · obtain rfl := List.mem_singleton.mp hother
      refine ⟨htarget, fun hold => ?_⟩
      rw [← (hle other hold).2]
      exact (min_le_right _ _).trans (hbound (hle other hold).1)

theorem Exploring.after_call
    (hexploring : Exploring successors greatest nodes active before node done
      search)
    (hbefore : Sound successors greatest nodes active before)
    (hnew : before.indexOf node < 0) (hedge : target ∈ successors node)
    (hunseen : search.indexOf target < 0)
    (hconnected : Connected successors greatest nodes (node :: active) search
      target after) :
    Exploring successors greatest nodes active before node (done ++ [target])
      (lowerTo node (after.lowLink target) after) := by
  obtain ⟨fresh, hstack, hfresh⟩ := hconnected.stack
  have hindex := hconnected.index
  refine hexploring.lowered hbefore hnew hedge hconnected.sound hstack
    hconnected.kept hfresh (fun hless => hconnected.low.resolve_left ?_)
    (hexploring.sound.nextIndex_nonneg.trans hindex) ?_
  · -- The target's component is complete, so its number is above the node's.
    intro hown
    have hbelow := hexploring.sound.below node
    have hle := hexploring.low_le
    omega
  · exact fun hold => absurd (hexploring.sound.numbered_of_stack hold)
      (not_le.mpr hunseen)

theorem Exploring.after_stack
    (hexploring : Exploring successors greatest nodes active before node done
      search)
    (hbefore : Sound successors greatest nodes active before)
    (hnew : before.indexOf node < 0) (hedge : target ∈ successors node)
    (hstack : target ∈ search.stack) :
    Exploring successors greatest nodes active before node (done ++ [target])
      (lowerTo node (search.indexOf target) search) :=
  hexploring.lowered hbefore hnew hedge hexploring.sound
    (List.nil_append _).symm (fun _ _ => ⟨rfl, rfl⟩) (by simp)
    (fun _ => ⟨target, hstack, rfl, .refl⟩)
    (hexploring.sound.numbered_of_stack hstack) (fun _ => le_rfl)

theorem Exploring.after_done
    (hexploring : Exploring successors greatest nodes active before node done
      search)
    (hseen : 0 ≤ search.indexOf target) (hoff : target ∉ search.stack) :
    Exploring successors greatest nodes active before node (done ++ [target])
      search := by
  refine { hexploring with done := fun other hother => ?_ }
  rcases List.mem_append.mp hother with hother | hother
  · exact hexploring.done other hother
  · obtain rfl := List.mem_singleton.mp hother
    refine ⟨hseen, fun hold => absurd ?_ hoff⟩
    obtain ⟨fresh, hstack, -⟩ := hexploring.stack
    rw [hstack]
    exact List.mem_append_right _ (List.mem_cons_of_mem _ hold)

end Successor

/-! ## Leaving a node -/

theorem popThrough_eq {fresh rest : List ν} (hfresh : node ∉ fresh) :
    popThrough node (fresh ++ node :: rest) = (fresh ++ [node], rest) := by
  induction fresh with
  | nil => simp [popThrough]
  | cons member fresh ih =>
      obtain ⟨hne, hfresh⟩ := not_or.mp (mt List.mem_cons.mpr hfresh)
      rw [List.cons_append, popThrough, if_neg (Ne.symm hne), ih hfresh]
      rfl

section Leaving

variable {fresh : List ν}

/-- The nodes under the node have the smaller numbers. -/
theorem Exploring.under (hexploring : Exploring successors greatest nodes active
      before node (successors node) search) {lower : ν}
    (hlower : lower ∈ before.stack) :
    lower ∈ search.stack ∧ search.indexOf lower < search.indexOf node := by
  obtain ⟨fresh, hstack, -⟩ := hexploring.stack
  have hsorted := hexploring.sound.sorted
  rw [hstack] at hsorted ⊢
  have hafter := (List.pairwise_append.mp hsorted).2.1
  exact ⟨List.mem_append_right _ (List.mem_cons_of_mem _ hlower),
    (List.pairwise_cons.mp hafter).1 lower hlower⟩

/-- A node whose low link is lower waits on the stack for one under it. -/
theorem Exploring.waits (hexploring : Exploring successors greatest nodes active
      before node (successors node) search)
    (hwaits : search.lowLink node ≠ search.indexOf node) :
    Connected successors greatest nodes active before node search := by
  have hsound := hexploring.sound
  obtain ⟨fresh, hstack, hunder⟩ := hexploring.stack
  obtain ⟨lower, hlower, hindex, hpath⟩ := hexploring.low
  have hless : search.indexOf lower < search.indexOf node := by
    have hle := hexploring.low_le
    omega
  have hroot : ∃ root ∈ active, search.indexOf root < search.indexOf node ∧
      ReflTransGen (Edge successors) node root := by
    obtain ⟨root, hroot, hle, hback⟩ := hsound.rooted lower hlower
    rcases List.mem_cons.mp hroot with rfl | hroot
    · exact absurd hless (not_lt.mpr hle)
    · exact ⟨root, hroot, lt_of_le_of_lt hle hless, hpath.trans hback⟩
  refine ⟨{ hsound with current := ?_, rooted := ?_, explored := ?_ },
    ⟨fresh ++ [node], ?_, ?_⟩, hexploring.kept, hexploring.index.ge,
    Or.inr ⟨lower, hlower, hindex, hpath⟩⟩
  · exact fun root hroot => hsound.current root (List.mem_cons_of_mem _ hroot)
  · intro other hother
    obtain ⟨root, hmem, hle, hback⟩ := hsound.rooted other hother
    rcases List.mem_cons.mp hmem with rfl | hmem
    · obtain ⟨earlier, hactive, hlt, hout⟩ := hroot
      exact ⟨earlier, hactive, hlt.le.trans hle, hback.trans hout⟩
    · exact ⟨root, hmem, hle, hback⟩
  · intro other hnumbered hother target htarget
    by_cases hsame : other = node
    · subst hsame
      exact (hexploring.done target htarget).1
    · exact hsound.explored other hnumbered
        (by simp [hsame, hother]) target htarget
  · rw [hstack, List.append_assoc]
    rfl
  · intro upper hupper lower hlower hnext
    rcases List.mem_append.mp hupper with hupper | hupper
    · exact hunder upper hupper lower hlower hnext
    · obtain rfl := List.mem_singleton.mp hupper
      exact (hexploring.done lower hnext).2 hlower

/-- What is popped is numbered no less than the node and is searched through. -/
theorem Exploring.popped (hexploring : Exploring successors greatest nodes
      active before node (successors node) search)
    (hbefore : Sound successors greatest nodes active before)
    (hstack : search.stack = fresh ++ node :: before.stack) {member : ν}
    (hmember : member ∈ fresh ++ [node]) :
    search.indexOf node ≤ search.indexOf member ∧
      ∀ target ∈ successors member, 0 ≤ search.indexOf target := by
  have hsound := hexploring.sound
  rcases List.mem_append.mp hmember with hfresh | hself
  · have hsorted := hsound.sorted
    have hnodup := (List.nodup_append.mp hsound.nodup).1
    rw [hstack] at hsorted hnodup
    have hapart := (List.nodup_append.mp hnodup).2.2 member hfresh
    refine ⟨((List.pairwise_append.mp hsorted).2.2 member hfresh node
      List.mem_cons_self).le, fun target => hsound.explored member ?_ ?_ target⟩
    · refine hsound.numbered_of_stack ?_
      rw [hstack]
      exact List.mem_append_left _ hfresh
    · refine mt List.mem_cons.mp (not_or.mpr
        ⟨hapart node List.mem_cons_self, ?_⟩)
      exact fun hactive => hapart member
        (List.mem_cons_of_mem _ (hbefore.current member hactive)) rfl
  · obtain rfl := List.mem_singleton.mp hself
    exact ⟨le_rfl, fun target htarget => (hexploring.done target htarget).1⟩

/-- No edge leads from what is popped to another node on a way back. -/
theorem Exploring.closed (hexploring : Exploring successors greatest nodes
      active before node (successors node) search)
    (hbefore : Sound successors greatest nodes active before)
    (hstack : search.stack = fresh ++ node :: before.stack)
    (hunder : ∀ upper ∈ fresh, ∀ lower ∈ before.stack,
      lower ∈ successors upper → search.lowLink node ≤ before.indexOf lower)
    (hown : search.lowLink node = search.indexOf node) (source target : ν)
    (hsource : source ∈ fresh ++ [node]) (hedge : target ∈ successors source)
    (hback : ReflTransGen (Edge successors) target node) :
    target ∈ fresh ++ [node] := by
  have hsound := hexploring.sound
  have hnode := hsound.current node List.mem_cons_self
  obtain ⟨hindex, hexplored⟩ := hexploring.popped hbefore hstack hsource
  have hsplit : search.stack = (fresh ++ [node]) ++ before.stack := by
    rw [hstack, List.append_assoc]
    rfl
  have hsourceStack : source ∈ search.stack := by
    rw [hsplit]
    exact List.mem_append_left _ hsource
  have hstackTarget : target ∈ search.stack := by
    refine hsound.stack_of_numbered (hexplored target hedge) ?_
    intro members hmembers htarget
    have hforth := (hsound.chained node hnode source hsourceStack hindex).tail
      hedge
    exact hsound.not_mem_component hnode members hmembers
      (((hsound.component members hmembers).1.full target htarget node).mpr
        ⟨hback, hforth⟩)
  rw [hsplit] at hstackTarget
  refine (List.mem_append.mp hstackTarget).resolve_right fun hold => ?_
  have hless := (hexploring.under hold).2
  have hsame := (hexploring.kept target (hbefore.numbered_of_stack hold)).1
  have hle : search.lowLink node ≤ before.indexOf target := by
    rcases List.mem_append.mp hsource with hfresh | hself
    · exact hunder source hfresh target hold hedge
    · obtain rfl := List.mem_singleton.mp hself
      exact (hexploring.done target hedge).2 hold
  omega

theorem Exploring.component (hexploring : Exploring successors greatest nodes
      active before node (successors node) search)
    (hbefore : Sound successors greatest nodes active before)
    (hroots : ∀ root ∈ active, ReflTransGen (Edge successors) root node)
    (hstack : search.stack = fresh ++ node :: before.stack)
    (hunder : ∀ upper ∈ fresh, ∀ lower ∈ before.stack,
      lower ∈ successors upper → search.lowLink node ≤ before.indexOf lower)
    (hown : search.lowLink node = search.indexOf node) :
    IsComponent (Edge successors) (fresh ++ [node]) := by
  have hsound := hexploring.sound
  have hnode := hsound.current node List.mem_cons_self
  have hself : node ∈ fresh ++ [node] := by simp
  refine IsComponent.of_root hself (fun member hmember => ?_)
    fun other hmutual => ?_
  · have hmemberStack : member ∈ search.stack := by
      rw [hstack, List.append_cons]
      exact List.mem_append_left _ hmember
    refine ⟨hsound.chained node hnode member hmemberStack
      (hexploring.popped hbefore hstack hmember).1, ?_⟩
    obtain ⟨root, hroot, -, hpath⟩ := hsound.rooted member hmemberStack
    rcases List.mem_cons.mp hroot with rfl | hroot
    · exact hpath
    · exact hpath.trans (hroots root hroot)
  · exact mem_of_closed
      (hexploring.closed hbefore hstack hunder hown) hself hmutual.1 hmutual.2

theorem completed_perm (loop : Bool) {component remaining : List ν}
    (hstack : search.stack = component ++ remaining) :
    ((complete loop component remaining search).stack ++
        (complete loop component remaining search).components.flatten).Perm
      (search.stack ++ search.components.flatten) := by
  show (remaining ++ (search.components ++
    [component.insertionSort (· ≤ ·)]).flatten).Perm _
  rw [List.flatten_append, List.flatten_singleton, hstack, List.append_assoc]
  have hsorted := List.perm_insertionSort (· ≤ ·) component
  calc (remaining ++ (search.components.flatten ++
          component.insertionSort (· ≤ ·))).Perm
        (remaining ++ (search.components.flatten ++ component)) :=
      (hsorted.append_left _).append_left _
    _ |>.Perm (remaining ++ search.components.flatten ++ component) := by
      rw [List.append_assoc]
    _ |>.Perm (component ++ (remaining ++ search.components.flatten)) :=
      List.perm_append_comm

/-- A loop is looked for at the node only, the one member of a component that
has no second. -/
theorem cyclic_popped_iff : (fresh ++ [node]).length > 1 ∨
      node ∈ successors node ↔
    Cyclic (Edge successors) ((fresh ++ [node]).insertionSort (· ≤ ·)) := by
  unfold Cyclic
  rw [List.length_insertionSort]
  cases fresh with
  | nil => simp [Edge]
  | cons first rest => simp

/-- A node that keeps its own number ends a component. -/
theorem Exploring.completes (hexploring : Exploring successors greatest nodes
      active before node (successors node) search)
    (hbefore : Sound successors greatest nodes active before)
    (hroots : ∀ root ∈ active, ReflTransGen (Edge successors) root node)
    (hstack : search.stack = fresh ++ node :: before.stack)
    (hunder : ∀ upper ∈ fresh, ∀ lower ∈ before.stack,
      lower ∈ successors upper → search.lowLink node ≤ before.indexOf lower)
    (hown : search.lowLink node = search.indexOf node) :
    Connected successors greatest nodes active before node
      (complete (node ∈ successors node) (fresh ++ [node]) before.stack
        search) := by
  have hsound := hexploring.sound
  have hcomponent :=
    hexploring.component hbefore hroots hstack hunder hown
  have hsplit : search.stack = (fresh ++ [node]) ++ before.stack := by
    rw [hstack, List.append_assoc]
    rfl
  have hperm := completed_perm (decide (node ∈ successors node)) hsplit
  have hstackNodup := (List.nodup_append.mp hsound.nodup).1
  rw [hsplit] at hstackNodup
  have hmemSorted : ∀ other,
      other ∈ (fresh ++ [node]).insertionSort (· ≤ ·) ↔
        other ∈ fresh ++ [node] :=
    fun other => (List.perm_insertionSort _ _).mem_iff
  have hold : ∀ other ∈ before.stack, other ∈ search.stack ∧
      search.indexOf other = before.indexOf other :=
    fun other hother => ⟨(hexploring.under hother).1,
      (hexploring.kept other (hbefore.numbered_of_stack hother)).1⟩
  refine ⟨?_, ⟨[], rfl, by simp⟩, hexploring.kept, hexploring.index.ge,
    Or.inl hown⟩
  constructor
  case numbered =>
    intro other
    rw [hperm.mem_iff]
    exact hsound.numbered other
  case below => exact hsound.below
  case counted =>
    rw [hperm.length_eq]
    exact hsound.counted
  case bounded => exact hsound.bounded
  case nodup => exact hperm.nodup_iff.mpr hsound.nodup
  case inside =>
    exact fun other hother => hsound.inside other (hperm.mem_iff.mp hother)
  case sorted =>
    have hsorted := hsound.sorted
    rw [hsplit] at hsorted
    exact (List.pairwise_append.mp hsorted).2.1
  case onStack =>
    intro other
    show (if other ∈ fresh ++ [node] then false else search.onStack other) =
      true ↔ other ∈ before.stack
    split
    next hpopped =>
      refine iff_of_false Bool.false_ne_true fun hother => ?_
      exact (List.nodup_append.mp hstackNodup).2.2 other hpopped other hother
        rfl
    next hkept =>
      rw [hsound.onStack, hsplit, List.mem_append, or_iff_right hkept]
  case current => exact hbefore.current
  case chained =>
    exact fun lower hlower upper hupper => hsound.chained lower
      (hold lower hlower).1 upper (hold upper hupper).1
  case rooted =>
    intro other hother
    obtain ⟨root, hroot, hle, hpath⟩ := hbefore.rooted other hother
    refine ⟨root, hroot, ?_, hpath⟩
    show search.indexOf root ≤ search.indexOf other
    rwa [(hold root (hbefore.current root hroot)).2, (hold other hother).2]
  case explored =>
    intro other hnumbered hother target htarget
    by_cases hsame : other = node
    · subst hsame
      exact (hexploring.done target htarget).1
    · exact hsound.explored other hnumbered
        (by simp [hsame, hother]) target htarget
  case component =>
    intro members hmembers
    rcases List.mem_append.mp hmembers with hmembers | hmembers
    · exact hsound.component members hmembers
    · obtain rfl := List.mem_singleton.mp hmembers
      refine ⟨hcomponent.congr hmemSorted, ?_⟩
      have hle := List.pairwise_insertionSort (· ≤ ·) (fresh ++ [node])
      have hnodup := (List.perm_insertionSort (· ≤ ·)
        (fresh ++ [node])).nodup_iff.mpr (List.nodup_append.mp hstackNodup).1
      exact (hle.and hnodup).imp fun hboth => lt_of_le_of_ne hboth.1 hboth.2
  case cyclic =>
    show (search.cyclic || (decide ((fresh ++ [node]).length > 1) ||
      decide (node ∈ successors node))) = true ↔ _
    rw [Bool.or_eq_true, hsound.cyclic, Bool.or_eq_true, decide_eq_true_iff,
      decide_eq_true_iff]
    show _ ↔ ∃ members ∈ search.components ++
      [(fresh ++ [node]).insertionSort (· ≤ ·)], Cyclic (Edge successors) members
    simp only [List.mem_append, List.mem_singleton, or_and_right, exists_or,
      exists_eq_left]
    exact or_congr_right cyclic_popped_iff

end Leaving

theorem Exploring.leave (hexploring : Exploring successors greatest nodes active
      before node (successors node) search)
    (hbefore : Sound successors greatest nodes active before)
    (hroots : ∀ root ∈ active, ReflTransGen (Edge successors) root node) :
    Connected successors greatest nodes active before node
      (search.leave successors node) := by
  unfold LowLinkSearch.leave
  by_cases hown : search.lowLink node = search.indexOf node
  · obtain ⟨fresh, hstack, hunder⟩ := hexploring.stack
    have hnodup := (List.nodup_append.mp hexploring.sound.nodup).1
    rw [hstack] at hnodup
    have hfresh : node ∉ fresh := fun hmem =>
      (List.nodup_append.mp hnodup).2.2 node hmem node List.mem_cons_self rfl
    rw [if_neg (not_not.mpr hown), hstack, popThrough_eq hfresh]
    exact hexploring.completes hbefore hroots hstack hunder hown
  · rw [if_pos hown]
    exact hexploring.waits hown

/-! ## The whole search -/

/-- A call at a new node, with room for all nodes still without a number. -/
theorem strongConnect_connected
    (hclosed : ∀ node ∈ nodes, ∀ target ∈ successors node, target ∈ nodes)
    {depth : ℕ} (hsound : Sound successors greatest nodes active before)
    (hnode : node ∈ nodes) (hnew : before.indexOf node < 0)
    (hroots : ∀ root ∈ active, ReflTransGen (Edge successors) root node)
    (hdepth : nodes.card ≤ before.nextIndex + depth) :
    Ends (greatest < nodes.card)
      (Connected successors greatest nodes active before node)
      (strongConnect successors greatest depth node before) := by
  induction depth generalizing active before node with
  | zero =>
      have hroom := hsound.nextIndex_lt_card hnode hnew
      rw [Nat.cast_zero, add_zero] at hdepth
      exact absurd hroom (not_lt.mpr hdepth)
  | succ depth ih =>
      unfold strongConnect
      refine (enter_exploring hsound hnode hnew hroots).bind
        fun entered hentered => ?_
      refine (Ends.foldlM (fun done search => Exploring successors greatest
        nodes active before node done search) hentered ?_).bind
          fun search hexploring => hexploring.leave hsound hroots
      intro done target htarget search hexploring
      split
      next hunseen =>
        -- The numbers have grown by the node's own, so the depth suffices.
        have hgrown : nodes.card ≤ search.nextIndex + depth := by
          have hbelow := hexploring.sound.below node
          rw [hexploring.index] at hbelow
          push_cast at hdepth
          omega
        have hreach : ∀ root ∈ node :: active,
            ReflTransGen (Edge successors) root target :=
          List.forall_mem_cons.mpr ⟨.single htarget,
            fun root hroot => (hroots root hroot).tail htarget⟩
        exact (ih hexploring.sound (hclosed node hnode target htarget) hunseen
          hreach hgrown).bind fun after hconnected =>
            hexploring.after_call hsound hnew htarget hunseen hconnected
      next hseen =>
        split
        next hon =>
          exact hexploring.after_stack hsound hnew htarget
            ((hexploring.sound.onStack target).mp hon)
        next hoff =>
          exact hexploring.after_done (not_lt.mp hseen)
            fun hstack => hoff ((hexploring.sound.onStack target).mpr hstack)

/-- The search over all nodes numbers each of them. -/
theorem connectAll_sound
    (hclosed : ∀ node ∈ nodes, ∀ target ∈ successors node, target ∈ nodes)
    (hgreatest : 0 ≤ greatest) {depth : ℕ} (hdepth : nodes.card ≤ depth)
    {roots : List ν} (hroots : ∀ root ∈ roots, root ∈ nodes) :
    Ends (greatest < nodes.card)
      (fun search => Sound successors greatest nodes [] search ∧
        ∀ root ∈ roots, 0 ≤ search.indexOf root)
      (connectAll successors greatest depth roots) := by
  refine Ends.foldlM (fun done search =>
    Sound successors greatest nodes [] search ∧
      ∀ root ∈ done, 0 ≤ search.indexOf root)
    ⟨sound_start hgreatest, by simp⟩ ?_
  rintro done root hroot search ⟨hsound, hdone⟩
  split
  next hnew =>
    have hroom : nodes.card ≤ search.nextIndex + depth := by
      have hzero := hsound.nextIndex_nonneg
      omega
    refine (strongConnect_connected hclosed hsound (hroots root hroot) hnew
      (by simp) hroom).imp fun after hconnected => ?_
    refine ⟨hconnected.sound, fun other hother => ?_⟩
    rcases List.mem_append.mp hother with hother | hother
    · rw [(hconnected.kept other (hdone other hother)).1]
      exact hdone other hother
    · rw [List.mem_singleton.mp hother]
      exact hsound.nextIndex_nonneg.trans hconnected.index
  next hseen =>
    refine ⟨hsound, fun other hother => ?_⟩
    rcases List.mem_append.mp hother with hother | hother
    · exact hdone other hother
    · rw [List.mem_singleton.mp hother]
      exact not_lt.mp hseen

/-- The components are the strongly connected ones, each once and in order,
and a cycle is reported exactly when there is one. -/
structure Decomposes (successors : ν → List ν) (roots : List ν)
    (components : List (List ν)) (cyclic : Bool) : Prop where
  partition : components.flatten.Perm roots
  component : ∀ members ∈ components,
    IsComponent (Edge successors) members ∧ members.Pairwise (· < ·)
  cyclic : cyclic = true ↔ ∃ node, TransGen (Edge successors) node node

theorem connectAll_decomposes {roots : List ν} (hnodup : roots.Nodup)
    (hclosed : ∀ node, ∀ target ∈ successors node,
      node ∈ roots ∧ target ∈ roots)
    (hgreatest : 0 ≤ greatest) {depth : ℕ} (hdepth : roots.length ≤ depth) :
    Ends (greatest < roots.length)
      (fun search => (roots.length : ℤ) ≤ greatest ∧
        Decomposes successors roots search.components search.cyclic)
      (connectAll successors greatest depth roots) := by
  have hcard : roots.toFinset.card = roots.length :=
    List.toFinset_card_of_nodup hnodup
  have hall : Ends (greatest < roots.toFinset.card)
      (fun search => Sound successors greatest roots.toFinset [] search ∧
        ∀ root ∈ roots, 0 ≤ search.indexOf root)
      (connectAll successors greatest depth roots) :=
    connectAll_sound (fun node _ target htarget =>
        List.mem_toFinset.mpr (hclosed node target htarget).2)
      hgreatest (by rwa [hcard]) fun root hroot => List.mem_toFinset.mpr hroot
  rw [hcard] at hall
  refine hall.imp fun search hsearch => ?_
  obtain ⟨hsound, hnumbered⟩ := hsearch
  have hstack := hsound.stack_eq_nil
  have hsame : ∀ node, node ∈ search.components.flatten ↔
      node ∈ roots := by
    intro node
    have hnode := hsound.numbered node
    rw [hstack, List.nil_append] at hnode
    refine ⟨fun hmem => List.mem_toFinset.mp (hsound.inside node ?_),
      fun hroot => hnode.mp (hnumbered node hroot)⟩
    rwa [hstack]
  have hflat := hsound.nodup
  rw [hstack, List.nil_append] at hflat
  have hpartition : search.components.flatten.Perm roots :=
    (List.perm_ext_iff_of_nodup hflat hnodup).mpr hsame
  refine ⟨?_, hpartition, hsound.component, ?_⟩
  · have hbounded := hsound.bounded
    rw [hsound.counted, hstack, List.nil_append,
      hpartition.length_eq] at hbounded
    exact hbounded
  · rw [hsound.cyclic, ← exists_cycle_iff]
    · exact fun members hmembers =>
        ⟨(hsound.component members hmembers).1,
          (hsound.component members hmembers).2.nodup⟩
    · intro node hcycle
      obtain ⟨target, hedge, -⟩ := TransGen.head'_iff.mp hcycle
      exact (hsame node).mpr (hclosed node target hedge).1

end LowLinkSearch
