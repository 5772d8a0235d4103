import BinForge.LowLinkComponents
import BinForge.SectionGraph

/-!
# The components of the section graph

The relations stay between sections of the image, so the search covers the
graph they span.  It has a defined outcome exactly for fewer sections than its
signed 32-bit counter can number.
-/

namespace BinForge

open Relation
open StatefulExcept
open StronglyConnected
open LowLinkSearch (Edge Ends Decomposes connectAll_decomposes)

namespace SectionGraphAnalyzer

variable {limits : Limits} {image : BinaryImage} {graph : SectionGraph}
  {relations : List SectionRelation} {count : ℕ}

/-! ## The relations -/

/-- Both ends of every relation are sections of the image. -/
def Within (count : ℕ) (relations : List SectionRelation) : Prop :=
  ∀ relation ∈ relations,
    relation.source.toNat < count ∧ relation.target.toNat < count

theorem addRelation_within (hwithin : Within count relations)
    (source target : UInt32) (reason : Bytes) :
    Within count (addRelation count relations source target reason) := by
  unfold addRelation
  split
  · exact hwithin
  next hinside =>
    split
    next position _ =>
      intro relation hrelation
      obtain ⟨i, hi, rfl⟩ := List.getElem_of_mem hrelation
      rw [List.length_modify] at hi
      have hold := hwithin _ (List.getElem_mem hi)
      rw [List.getElem_modify]
      split <;> exact hold
    next =>
      intro relation hrelation
      rcases List.mem_append.mp hrelation with hold | hnew
      · exact hwithin relation hold
      · rw [List.mem_singleton.mp hnew]
        exact ⟨Nat.lt_of_not_le fun hle => hinside (Or.inl hle),
          Nat.lt_of_not_le fun hle => hinside (Or.inr hle)⟩

/-- A loop of steps that keep the relations within the image. -/
theorem foldl_within {α : Type} {step : List SectionRelation → α →
      List SectionRelation}
    (hstep : ∀ relations item, Within count relations →
      Within count (step relations item)) (items : List α)
    (hwithin : Within count relations) :
    Within count (items.foldl step relations) := by
  induction items generalizing relations with
  | nil => exact hwithin
  | cons item items ih => exact ih (hstep relations item hwithin)

theorem relateSection_within (relations : List SectionRelation)
    (item : Section) (hwithin : Within count relations) :
    Within count (relateSection count relations item) := by
  unfold relateSection
  have hlinked : Within count
      (if item.link ≠ 0 ∧ item.link.toNat < count then
        addRelation count relations item.index item.link "link"
      else relations) := by
    split
    · exact addRelation_within hwithin _ _ _
    · exact hwithin
  dsimp only
  split
  · exact addRelation_within hlinked _ _ _
  · exact hlinked

theorem relateSegment_within (relations : List SectionRelation)
    (segment : Segment) (hwithin : Within count relations) :
    Within count (relateSegment count relations segment) :=
  foldl_within (fun _ _ hstep => addRelation_within hstep _ _ _) _ hwithin

theorem relateRelocation_within (relations : List SectionRelation)
    (relocation : Relocation)
    (hwithin : Within image.sections.length relations) :
    Within image.sections.length
      (relateRelocation image relations relocation) := by
  unfold relateRelocation
  split
  · exact hwithin
  · split
    · exact hwithin
    · split
      · exact addRelation_within hwithin _ _ _
      · exact hwithin

theorem relate_within (image : BinaryImage) :
    Within image.sections.length (relate image) :=
  foldl_within relateRelocation_within _
    (foldl_within relateSegment_within _
      (foldl_within relateSection_within _
        (by simp [Within])))

/-- One section is related to the other. -/
def Related (relations : List SectionRelation) (source target : UInt32) :
    Prop :=
  ∃ relation ∈ relations, relation.source = source ∧ relation.target = target

theorem edge_adjacency :
    Edge (adjacency relations) = Related relations := by
  funext source target
  refine propext ?_
  simp [Edge, adjacency, Related, and_assoc]

/-! ## The sections as nodes -/

theorem mem_nodes (hcount : image.sections.length ≤ 2 ^ 32) (node : UInt32) :
    node ∈ nodes image ↔ node.toNat < image.sections.length := by
  unfold nodes
  rw [List.mem_map]
  constructor
  · rintro ⟨index, hindex, rfl⟩
    have hlt := List.mem_range.mp hindex
    rwa [UInt32.toNat_ofNat_of_lt' (Nat.lt_of_lt_of_le hlt hcount)]
  · exact fun hlt => ⟨node.toNat, List.mem_range.mpr hlt, UInt32.ofNat_toNat⟩

theorem nodes_nodup (hcount : image.sections.length ≤ 2 ^ 32) :
    (nodes image).Nodup := by
  refine List.Nodup.map_on ?_ List.nodup_range
  intro left hleft right hright hsame
  have hsmall : ∀ index ∈ List.range image.sections.length,
      (UInt32.ofNat index).toNat = index := fun index hindex =>
    UInt32.toNat_ofNat_of_lt'
      (Nat.lt_of_lt_of_le (List.mem_range.mp hindex) hcount)
  rw [← hsmall left hleft, ← hsmall right hright, hsame]

theorem search_ends (hcount : image.sections.length ≤ 2 ^ 32) :
    Ends (greatestIndex < image.sections.length)
      (fun search => (image.sections.length : ℤ) ≤ greatestIndex ∧
        Decomposes (adjacency (relate image)) (nodes image)
          search.components search.cyclic)
      (LowLinkSearch.connectAll (adjacency (relate image)) greatestIndex
        image.sections.length (nodes image)) := by
  have hlength : (nodes image).length = image.sections.length := by
    rw [nodes, List.length_map, List.length_range]
  rw [← hlength]
  refine connectAll_decomposes (nodes_nodup hcount) ?_ (by decide) le_rfl
  intro node target htarget
  obtain ⟨relation, hrelation, rfl⟩ := List.mem_map.mp htarget
  obtain ⟨hrelation, hsource⟩ := List.mem_filter.mp hrelation
  have hwithin := relate_within image relation hrelation
  rw [of_decide_eq_true hsource] at hwithin
  rw [mem_nodes hcount, mem_nodes hcount]
  exact hwithin

/-! ## The sorted components -/

theorem sortComponents_perm (components : List (List UInt32)) :
    (sortComponents components).Perm components :=
  List.perm_insertionSort ..

/-- Components without a common member are sorted strictly. -/
theorem sortComponents_ordered {components : List (List UInt32)}
    (hnonempty : ∀ members ∈ components, members ≠ [])
    (hnodup : components.flatten.Nodup) :
    (sortComponents components).Pairwise frontBefore := by
  have hperm := sortComponents_perm components
  have htotal : Std.Total fun left right : List UInt32 =>
      ¬frontBefore right left :=
    ⟨fun left right => by
      unfold frontBefore
      rw [not_lt, not_lt]
      exact le_total _ _⟩
  have htrans : IsTrans (List UInt32) fun left right =>
      ¬frontBefore right left :=
    ⟨fun first second third hleft hright => by
      unfold frontBefore at *
      rw [not_lt] at *
      exact hleft.trans hright⟩
  have hle : (sortComponents components).Pairwise fun left right =>
      ¬frontBefore right left :=
    List.pairwise_insertionSort _ components
  have hapart : (sortComponents components).Pairwise List.Disjoint :=
    (List.nodup_flatten.mp (hperm.flatten.nodup_iff.mpr hnodup)).2
  refine (hle.and hapart).imp_of_mem fun {left right} hleft hright hboth => ?_
  have hhead : ∀ members ∈ sortComponents components,
      members.headD 0 ∈ members := by
    intro members hmembers
    have hsome := hnonempty members (hperm.mem_iff.mp hmembers)
    cases members with
    | nil => exact absurd rfl hsome
    | cons first rest => exact List.mem_cons_self
  refine lt_of_le_of_ne (not_lt.mp hboth.1) fun hsame => ?_
  exact hboth.2 (hhead left hleft) (hsame ▸ hhead right hright)

/-! ## The result of the analysis -/

/-- The strongly connected components of the relations of a graph over
`count` sections. -/
structure HasComponents (count : ℕ) (graph : SectionGraph) : Prop where
  partition : graph.components.flatten.Perm
    ((List.range count).map UInt32.ofNat)
  nonempty : ∀ members ∈ graph.components, members ≠ []
  connected : ∀ left right : UInt32, left.toNat < count → right.toNat < count →
    ((∃ members ∈ graph.components, left ∈ members ∧ right ∈ members) ↔
      ReflTransGen (Related graph.relations) left right ∧
        ReflTransGen (Related graph.relations) right left)
  sorted : ∀ members ∈ graph.components, members.Pairwise (· < ·)
  ordered : graph.components.Pairwise fun left right =>
    left.headD 0 < right.headD 0
  cyclic : graph.cyclic = true ↔
    ∃ node, TransGen (Related graph.relations) node node

theorem graphOf_hasComponents (hcount : image.sections.length ≤ 2 ^ 32)
    {search : LowLinkSearch UInt32}
    (hdecomposes : Decomposes (adjacency (relate image)) (nodes image)
      search.components search.cyclic) :
    HasComponents image.sections.length (graphOf image search) := by
  obtain ⟨hpartition, hcomponent, hcyclic⟩ := hdecomposes
  rw [edge_adjacency] at hcomponent hcyclic
  have hperm := sortComponents_perm search.components
  have hnonempty : ∀ members ∈ search.components, members ≠ [] :=
    fun members hmembers => (hcomponent members hmembers).1.nonempty
  refine ⟨hperm.flatten.trans hpartition,
    fun members hmembers => hnonempty members (hperm.mem_iff.mp hmembers), ?_,
    fun members hmembers => (hcomponent members (hperm.mem_iff.mp hmembers)).2,
    sortComponents_ordered hnonempty
      (hpartition.nodup_iff.mpr (nodes_nodup hcount)), hcyclic⟩
  intro left right hleft _
  constructor
  · rintro ⟨members, hmembers, hleftMem, hrightMem⟩
    exact ((hcomponent members (hperm.mem_iff.mp hmembers)).1.full left
      hleftMem right).mp hrightMem
  · intro hmutual
    obtain ⟨members, hmembers, hmem⟩ := List.mem_flatten.mp
      (hpartition.mem_iff.mpr ((mem_nodes hcount left).mpr hleft))
    exact ⟨members, hperm.mem_iff.mpr hmembers, hmem,
      ((hcomponent members hmembers).1.full left hmem right).mpr hmutual⟩

theorem analyze_eq_ok {result : Except Halt SectionGraph} :
    analyze limits image = .ok result ↔
      image.sections.length ≤ limits.maxSections.toNat ∧
        result = (LowLinkSearch.connectAll (adjacency (relate image))
          greatestIndex image.sections.length (nodes image)).map
            (graphOf image) := by
  unfold analyze
  rw [rejectIf_except_bind_eq_ok, gt_iff_lt, not_lt]
  exact and_congr_right fun _ =>
    ⟨fun hrun => (Except.ok.inj hrun).symm, fun hsame => hsame ▸ rfl⟩

theorem sections_le (hlimit : image.sections.length ≤
      limits.maxSections.toNat) : image.sections.length ≤ 2 ^ 32 :=
  hlimit.trans limits.maxSections.toNat_lt.le

/-- From 2^31 sections on the counter of the search overflows. -/
theorem analyze_overflows
    (hlimit : image.sections.length ≤ limits.maxSections.toNat)
    (hmany : 2 ^ 31 ≤ image.sections.length) :
    analyze limits image = .ok (.error .overflow) := by
  refine analyze_eq_ok.mpr ⟨hlimit, ?_⟩
  have hends := search_ends (sections_le hlimit)
  revert hends
  generalize LowLinkSearch.connectAll (adjacency (relate image))
    greatestIndex image.sections.length (nodes image) = result
  intro hends
  match result, hends with
  | .error .overflow, _ => rfl
  | .ok search, ⟨hfew, _⟩ =>
      unfold greatestIndex at hfew
      omega

theorem analyze_succeeds
    (hlimit : image.sections.length ≤ limits.maxSections.toNat)
    (hfew : image.sections.length < 2 ^ 31) :
    ∃ graph, analyze limits image = .ok (.ok graph) ∧
      HasComponents image.sections.length graph := by
  have hends := search_ends (sections_le hlimit)
  have hrun := analyze_eq_ok.mpr ⟨hlimit, rfl⟩
  revert hends hrun
  generalize LowLinkSearch.connectAll (adjacency (relate image))
    greatestIndex image.sections.length (nodes image) = result
  intro hends hrun
  match result, hends with
  | .error .overflow, hfull =>
      change greatestIndex < _ at hfull
      unfold greatestIndex at hfull
      omega
  | .ok search, ⟨_, hdecomposes⟩ =>
      exact ⟨graphOf image search, hrun,
        graphOf_hasComponents (sections_le hlimit) hdecomposes⟩

/-- Within the section limit, the analysis returns the strongly connected
components of the relations it lists exactly for fewer than 2^31 sections. -/
theorem analyze_components_iff
    (hlimit : image.sections.length ≤ limits.maxSections.toNat) :
    (∃ graph, analyze limits image = .ok (.ok graph) ∧
      HasComponents image.sections.length graph) ↔
        image.sections.length < 2 ^ 31 := by
  refine ⟨fun ⟨graph, hrun, _⟩ => ?_, analyze_succeeds hlimit⟩
  by_contra hmany
  rw [analyze_overflows hlimit (not_lt.mp hmany)] at hrun
  simp at hrun

/-- Three sections, two of which link to each other. -/
theorem analyze_components_iff_linked :
    let image : BinaryImage :=
      { sections := [{ index := 0 }, { index := 1, link := 2 },
          { index := 2, link := 1 }] }
    ∃ graph, analyze {} image = .ok (.ok graph) ∧
      graph.components = [[0], [1, 2]] ∧ HasComponents 3 graph := by
  intro image
  obtain ⟨graph, hrun, hcomponents⟩ :=
    (analyze_components_iff (by decide : image.sections.length ≤
      ({} : Limits).maxSections.toNat)).mpr (by decide)
  have heval : (analyze {} image).toOption.bind (fun result =>
      result.toOption.map SectionGraph.components) =
        some [[0], [1, 2]] := by
    decide +kernel
  rw [hrun] at heval
  exact ⟨graph, hrun, Option.some.inj heval, hcomponents⟩

/-- Sections without any relation. -/
def unrelatedImage (count : ℕ) : BinaryImage :=
  { sections := (List.range count).map fun index =>
      { index := UInt32.ofNat index } }

theorem unrelatedImage_length (count : ℕ) :
    (unrelatedImage count).sections.length = count := by
  simp [unrelatedImage]

theorem unrelatedImage_indexed (hcount : count ≤ 2 ^ 32) (position : ℕ)
    (item : Section)
    (hitem : (unrelatedImage count).sections[position]? = some item) :
    item.index.toNat = position := by
  unfold unrelatedImage at hitem
  rw [List.getElem?_map, Option.map_eq_some_iff] at hitem
  obtain ⟨index, hindex, rfl⟩ := hitem
  obtain ⟨hlt, rfl⟩ := List.getElem?_eq_some_iff.mp hindex
  rw [List.length_range] at hlt
  rw [List.getElem_range]
  exact UInt32.toNat_ofNat_of_lt' (Nat.lt_of_lt_of_le hlt hcount)

/-- The last of these sections takes the greatest number, and counting on
overflows. -/
theorem analyze_crowded :
    let limits : Limits := { maxSections := 0x80000000 }
    let image := unrelatedImage 0x80000000
    image.sections.length ≤ limits.maxSections.toNat ∧
      (∀ (position : ℕ) (item : Section),
        image.sections[position]? = some item →
          item.index.toNat = position) ∧
      ∀ graph, analyze limits image ≠ .ok (.ok graph) := by
  intro limits image
  have hlength : image.sections.length = 0x80000000 :=
    unrelatedImage_length _
  have hlimit : image.sections.length ≤ limits.maxSections.toNat := by
    rw [hlength]
    decide +kernel
  refine ⟨hlimit, unrelatedImage_indexed (by decide), fun graph hrun => ?_⟩
  rw [analyze_overflows hlimit (hlength ▸ by decide)] at hrun
  simp at hrun

end SectionGraphAnalyzer
end BinForge
