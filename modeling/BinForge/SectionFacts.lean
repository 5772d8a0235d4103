import BinForge.SectionComponents

/-!
# What the relations count

Links, relocated sections, neighbours in a segment and referenced symbols are
facts of the image, each about a pair of sections.  The analysis folds them
into one list without repetitions and counts them.
-/

namespace BinForge

open StatefulExcept

namespace SectionGraphAnalyzer

variable {limits : Limits} {image : BinaryImage} {graph : SectionGraph}
  {relations : List SectionRelation} {count : ℕ}

/-! ## The facts of an image

A fact is a pair of positions in the section table. -/

def sectionFacts (position : ℕ) (item : Section) : List (ℕ × ℕ) :=
  (if item.link ≠ 0 then [(position, item.link.toNat)] else []) ++
    if item.kind = .relocations ∨ item.kind = .relocationAddends then
      [(position, item.info.toNat)]
    else []

def segmentFacts (segment : Segment) : List (ℕ × ℕ) :=
  (segment.sections.zip segment.sections.tail).map fun pair =>
    (pair.1.toNat, pair.2.toNat)

def relocationFacts (image : BinaryImage) (relocation : Relocation) :
    List (ℕ × ℕ) :=
  (image.symbol? relocation.symbolIndex).toList.map fun symbol =>
    (relocation.targetSection.toNat, symbol.sectionIndex.toNat)

def facts (image : BinaryImage) : List (ℕ × ℕ) :=
  (image.sections.zipIdx.flatMap fun entry => sectionFacts entry.2 entry.1) ++
    image.segments.flatMap segmentFacts ++
    image.relocations.flatMap (relocationFacts image)

/-! ## One list of mentions

The range checks before the calls repeat the one inside them. -/

/-- A pair of sections and the reason to relate them. -/
abbrev Mention := (UInt32 × UInt32) × Bytes

def addMention (count : ℕ) (relations : List SectionRelation)
    (item : Mention) : List SectionRelation :=
  addRelation count relations item.1.1 item.1.2 item.2

def sectionMentions (item : Section) : List Mention :=
  (if item.link ≠ 0 then [((item.index, item.link), ascii "link")] else []) ++
    if item.kind = .relocations ∨ item.kind = .relocationAddends then
      [((item.index, item.info), ascii "relocation-target")]
    else []

def segmentMentions (segment : Segment) : List Mention :=
  (segment.sections.zip segment.sections.tail).map fun pair =>
    (pair, "segment-order")

def relocationMentions (image : BinaryImage) (relocation : Relocation) :
    List Mention :=
  (image.symbol? relocation.symbolIndex).toList.map fun symbol =>
    ((relocation.targetSection, symbol.sectionIndex), "symbol-reference")

def mentions (image : BinaryImage) : List Mention :=
  image.sections.flatMap sectionMentions ++
    image.segments.flatMap segmentMentions ++
    image.relocations.flatMap (relocationMentions image)

theorem addRelation_out {source target : UInt32} (reason : Bytes)
    (hout : count ≤ source.toNat ∨ count ≤ target.toNat) :
    addRelation count relations source target reason = relations := by
  rw [addRelation, if_pos hout]

theorem relateSection_eq (relations : List SectionRelation) (item : Section) :
    relateSection count relations item =
      (sectionMentions item).foldl (addMention count) relations := by
  have hlink : (if item.link ≠ 0 ∧ item.link.toNat < count then
        addRelation count relations item.index item.link "link"
      else relations) =
      (if item.link ≠ 0 then [((item.index, item.link), ascii "link")]
        else []).foldl (addMention count) relations := by
    by_cases hsome : item.link = 0
    · simp [hsome]
    by_cases hinside : item.link.toNat < count
    · simp [hsome, hinside, addMention]
    · have hout := @addRelation_out relations count item.index item.link "link"
        (Or.inr (not_lt.mp hinside))
      simp [hsome, hinside, addMention, hout]
  unfold relateSection sectionMentions
  dsimp only
  rw [hlink, List.foldl_append]
  generalize List.foldl (addMention count) relations _ = linked
  by_cases hkind : item.kind = .relocations ∨ item.kind = .relocationAddends
  · by_cases hinside : item.info.toNat < count
    · simp [hkind, hinside, addMention]
    · have hout := @addRelation_out linked count item.index item.info
        "relocation-target" (Or.inr (not_lt.mp hinside))
      simp [hkind, hinside, addMention, hout]
  · simp [hkind]

theorem relateSegment_eq (relations : List SectionRelation)
    (segment : Segment) :
    relateSegment count relations segment =
      (segmentMentions segment).foldl (addMention count) relations := by
  rw [segmentMentions, List.foldl_map]
  rfl

theorem relateRelocation_eq (relations : List SectionRelation)
    (relocation : Relocation) :
    relateRelocation image relations relocation =
      (relocationMentions image relocation).foldl
        (addMention image.sections.length) relations := by
  unfold relateRelocation relocationMentions
  cases image.symbol? relocation.symbolIndex with
  | none => simp
  | some symbol =>
      by_cases hsource : image.sections.length ≤ relocation.targetSection.toNat
      · simp [hsource, addMention, addRelation_out "symbol-reference"
          (Or.inl hsource)]
      by_cases htarget : symbol.sectionIndex.toNat < image.sections.length
      · simp [hsource, htarget, addMention]
      · simp [hsource, htarget, addMention, addRelation_out "symbol-reference"
          (Or.inr (not_lt.mp htarget))]

theorem relate_eq_mentions (image : BinaryImage) :
    relate image =
      (mentions image).foldl (addMention image.sections.length) [] := by
  unfold relate mentions
  dsimp only
  rw [List.foldl_append, List.foldl_append, List.foldl_flatMap,
    List.foldl_flatMap, List.foldl_flatMap]
  simp only [← relateSection_eq, ← relateSegment_eq, ← relateRelocation_eq]

/-! ## The tally -/

def pairOf (relation : SectionRelation) : UInt32 × UInt32 :=
  (relation.source, relation.target)

def InRange (count : ℕ) (pair : UInt32 × UInt32) : Prop :=
  pair.1.toNat < count ∧ pair.2.toNat < count

/-- The relations after the given pairs have been mentioned. -/
structure Tallied (count : ℕ) (pairs : List (UInt32 × UInt32))
    (relations : List SectionRelation) : Prop where
  inside : ∀ relation ∈ relations, InRange count (pairOf relation)
  distinct : (relations.map pairOf).Nodup
  mentioned : ∀ relation ∈ relations, pairOf relation ∈ pairs
  counted : ∀ relation ∈ relations,
    relation.references = UInt64.ofNat (pairs.count (pairOf relation))
  represented : ∀ pair ∈ pairs, InRange count pair →
    pair ∈ relations.map pairOf

theorem tallied_nil (count : ℕ) : Tallied count [] [] := by
  constructor <;> simp

/-- A mention is ignored, adds to the relation of its pair or starts one. -/
theorem addMention_cases (relations : List SectionRelation) (item : Mention) :
    (¬InRange count item.1 ∧ addMention count relations item = relations) ∨
      (InRange count item.1 ∧
        ((∃ position, ∃ hlt : position < relations.length,
          pairOf relations[position] = item.1 ∧
          addMention count relations item =
            relations.modify position (mention item.2)) ∨
        (item.1 ∉ relations.map pairOf ∧
          addMention count relations item = relations ++
            [{ source := item.1.1, target := item.1.2, reason := item.2,
               references := 1 }]))) := by
  unfold addMention addRelation
  by_cases hout : count ≤ item.1.1.toNat ∨ count ≤ item.1.2.toNat
  · left
    unfold InRange
    exact ⟨by omega, if_pos hout⟩
  rw [if_neg hout]
  right
  refine ⟨by unfold InRange; omega, ?_⟩
  cases hfind : relations.findIdx? fun relation =>
      decide (relation.source = item.1.1 ∧ relation.target = item.1.2) with
  | some position =>
      left
      obtain ⟨hlt, hpair, -⟩ := List.findIdx?_eq_some_iff_getElem.mp hfind
      exact ⟨position, hlt, Prod.ext_iff.mpr (of_decide_eq_true hpair), rfl⟩
  | none =>
      right
      refine ⟨fun hmem => ?_, rfl⟩
      obtain ⟨relation, hrelation, hpair⟩ := List.mem_map.mp hmem
      have hother := List.findIdx?_eq_none_iff.mp hfind relation hrelation
      exact of_decide_eq_false hother (Prod.ext_iff.mp hpair)

theorem map_pairOf_modify (relations : List SectionRelation) (position : ℕ)
    (reason : Bytes) :
    (relations.modify position (mention reason)).map pairOf =
      relations.map pairOf := by
  apply List.ext_getElem
  · simp
  · intro i _ _
    rw [List.getElem_map, List.getElem_map, List.getElem_modify]
    split <;> rfl

/-- A mention changes the relation of its pair, and that one in its count. -/
theorem mem_modify_mention {relations : List SectionRelation}
    {pair : UInt32 × UInt32} {reason : Bytes} {position : ℕ}
    {relation : SectionRelation} (hdistinct : (relations.map pairOf).Nodup)
    (hlt : position < relations.length)
    (hpair : pairOf relations[position] = pair)
    (hrelation : relation ∈ relations.modify position (mention reason)) :
    ∃ old ∈ relations, pairOf relation = pairOf old ∧
      (pair = pairOf old ∧ relation.references = old.references + 1 ∨
        pair ≠ pairOf old ∧ relation.references = old.references) := by
  obtain ⟨i, hi, rfl⟩ := List.getElem_of_mem hrelation
  rw [List.length_modify] at hi
  refine ⟨relations[i], List.getElem_mem hi, ?_⟩
  rw [List.getElem_modify]
  by_cases hsame : position = i
  · subst hsame
    rw [if_pos rfl]
    exact ⟨rfl, Or.inl ⟨hpair.symm, rfl⟩⟩
  · rw [if_neg hsame]
    refine ⟨rfl, Or.inr ⟨fun hequal => hsame ?_, rfl⟩⟩
    have hfirst : position < (relations.map pairOf).length := by simpa using hlt
    have hsecond : i < (relations.map pairOf).length := by simpa using hi
    have hmaps : (relations.map pairOf)[position] =
        (relations.map pairOf)[i] := by
      rw [List.getElem_map, List.getElem_map, hpair, hequal]
    exact (List.Nodup.getElem_inj_iff hdistinct).mp hmaps

/-- One more mention counts for the relation of its pair only. -/
theorem count_append_ne {pairs : List (UInt32 × UInt32)}
    {pair other : UInt32 × UInt32} (hother : other ≠ pair) :
    (pairs ++ [other]).count pair = pairs.count pair := by
  simp [List.count_append, hother]

theorem count_append_eq (pairs : List (UInt32 × UInt32))
    (pair : UInt32 × UInt32) :
    (pairs ++ [pair]).count pair = pairs.count pair + 1 := by
  simp

namespace Tallied

variable {pairs : List (UInt32 × UInt32)} {item : Mention}

theorem ignored (htallied : Tallied count pairs relations)
    (hout : ¬InRange count item.1) :
    Tallied count (pairs ++ [item.1]) relations where
  inside := htallied.inside
  distinct := htallied.distinct
  mentioned relation hrelation :=
    List.mem_append_left _ (htallied.mentioned relation hrelation)
  counted relation hrelation := by
    have hother : item.1 ≠ pairOf relation := fun hsame =>
      hout (hsame ▸ htallied.inside relation hrelation)
    rw [count_append_ne hother, htallied.counted relation hrelation]
  represented pair hpair hinside := by
    rcases List.mem_append.mp hpair with hold | hnew
    · exact htallied.represented pair hold hinside
    · exact absurd (List.mem_singleton.mp hnew ▸ hinside) hout

theorem repeated (htallied : Tallied count pairs relations) {position : ℕ}
    (hlt : position < relations.length)
    (hpair : pairOf relations[position] = item.1) :
    Tallied count (pairs ++ [item.1])
      (relations.modify position (mention item.2)) := by
  have hmem : item.1 ∈ relations.map pairOf :=
    List.mem_map.mpr ⟨_, List.getElem_mem hlt, hpair⟩
  constructor
  · intro relation hrelation
    obtain ⟨old, hold, hkept, -⟩ :=
      mem_modify_mention htallied.distinct hlt hpair hrelation
    exact hkept ▸ htallied.inside old hold
  · rw [map_pairOf_modify]
    exact htallied.distinct
  · intro relation hrelation
    obtain ⟨old, hold, hkept, -⟩ :=
      mem_modify_mention htallied.distinct hlt hpair hrelation
    rw [hkept]
    exact List.mem_append_left _ (htallied.mentioned old hold)
  · intro relation hrelation
    obtain ⟨old, hold, hkept, ⟨hsame, hmore⟩ | ⟨hother, hequal⟩⟩ :=
      mem_modify_mention htallied.distinct hlt hpair hrelation
    · rw [hmore, hkept, hsame, count_append_eq, htallied.counted old hold,
        UInt64.ofNat_add]
      rfl
    · rw [hequal, hkept, count_append_ne hother, htallied.counted old hold]
  · intro pair hmentioned hinside
    rw [map_pairOf_modify]
    rcases List.mem_append.mp hmentioned with hold | hnew
    · exact htallied.represented pair hold hinside
    · exact List.mem_singleton.mp hnew ▸ hmem

theorem started (htallied : Tallied count pairs relations)
    (hinside : InRange count item.1) (hfresh : item.1 ∉ relations.map pairOf) :
    Tallied count (pairs ++ [item.1]) (relations ++
      [{ source := item.1.1, target := item.1.2, reason := item.2,
         references := 1 }]) := by
  -- The pair has not been mentioned before.
  have hunseen : pairs.count item.1 = 0 := by
    rw [List.count_eq_zero]
    exact fun hmem => hfresh (htallied.represented _ hmem hinside)
  constructor
  · intro relation hrelation
    rcases List.mem_append.mp hrelation with hold | hnew
    · exact htallied.inside relation hold
    · rw [List.mem_singleton.mp hnew]
      exact hinside
  · rw [List.map_append, List.nodup_append_comm, List.map_singleton,
      List.singleton_append, List.nodup_cons]
    exact ⟨hfresh, htallied.distinct⟩
  · intro relation hrelation
    rcases List.mem_append.mp hrelation with hold | hnew
    · exact List.mem_append_left _ (htallied.mentioned relation hold)
    · rw [List.mem_singleton.mp hnew]
      exact List.mem_append_right _ (List.mem_singleton.mpr rfl)
  · intro relation hrelation
    rcases List.mem_append.mp hrelation with hold | hnew
    · have hother : item.1 ≠ pairOf relation := fun hsame =>
        hfresh (List.mem_map.mpr ⟨relation, hold, hsame.symm⟩)
      rw [count_append_ne hother, htallied.counted relation hold]
    · rw [List.mem_singleton.mp hnew]
      show 1 = UInt64.ofNat ((pairs ++ [item.1]).count item.1)
      rw [count_append_eq, hunseen]
      rfl
  · intro pair hmentioned hin
    rw [List.map_append]
    rcases List.mem_append.mp hmentioned with hold | hnew
    · exact List.mem_append_left _ (htallied.represented pair hold hin)
    · rw [List.mem_singleton.mp hnew]
      exact List.mem_append_right _ (List.mem_singleton.mpr rfl)

theorem addMention (htallied : Tallied count pairs relations)
    (item : Mention) :
    Tallied count (pairs ++ [item.1]) (addMention count relations item) := by
  rcases @addMention_cases count relations item with
    ⟨hout, hrun⟩ | ⟨hinside, hrun⟩
  · rw [hrun]
    exact htallied.ignored hout
  · rcases hrun with ⟨position, hlt, hpair, hrun⟩ | ⟨hfresh, hrun⟩
    · rw [hrun]
      exact htallied.repeated hlt hpair
    · rw [hrun]
      exact htallied.started hinside hfresh

theorem addMentions (htallied : Tallied count pairs relations)
    (items : List Mention) :
    Tallied count (pairs ++ items.map Prod.fst)
      (items.foldl (SectionGraphAnalyzer.addMention count) relations) := by
  induction items generalizing pairs relations with
  | nil => simpa using htallied
  | cons item items ih =>
      have hrest := ih (htallied.addMention item)
      rwa [List.append_assoc, List.singleton_append] at hrest

end Tallied

theorem relate_tallied (image : BinaryImage) :
    Tallied image.sections.length ((mentions image).map Prod.fst)
      (relate image) := by
  rw [relate_eq_mentions]
  exact (tallied_nil _).addMentions (mentions image)

/-! ## The facts are the mentions -/

/-- The index of a section is its position in the table. -/
def Indexed (image : BinaryImage) : Prop :=
  ∀ (position : ℕ) (item : Section),
    image.sections[position]? = some item → item.index.toNat = position

def positions (pair : UInt32 × UInt32) : ℕ × ℕ :=
  (pair.1.toNat, pair.2.toNat)

theorem positions_injective : Function.Injective positions := by
  intro left right hsame
  obtain ⟨hsource, htarget⟩ := Prod.ext_iff.mp hsame
  exact Prod.ext (UInt32.toNat_inj.mp hsource) (UInt32.toNat_inj.mp htarget)

theorem sectionFacts_eq {position : ℕ} {item : Section}
    (hindex : item.index.toNat = position) :
    sectionFacts position item =
      (sectionMentions item).map fun entry => positions entry.1 := by
  subst hindex
  unfold sectionFacts sectionMentions
  rw [List.map_append]
  congr 1 <;> split <;> rfl

theorem facts_eq (hindexed : Indexed image) :
    facts image =
      ((mentions image).map Prod.fst).map positions := by
  have hsections :
      (image.sections.zipIdx.flatMap fun entry =>
        sectionFacts entry.2 entry.1) =
      (image.sections.flatMap sectionMentions).map
        fun entry => positions entry.1 := by
    rw [List.map_flatMap]
    calc (image.sections.zipIdx.flatMap fun entry =>
          sectionFacts entry.2 entry.1)
        = image.sections.zipIdx.flatMap fun entry =>
            (sectionMentions entry.1).map fun entry => positions entry.1 := by
          refine List.flatMap_congr fun entry hentry => sectionFacts_eq ?_
          exact hindexed _ _ (List.mem_zipIdx_iff_getElem?.mp hentry)
      _ = (image.sections.zipIdx.map Prod.fst).flatMap fun item =>
            (sectionMentions item).map fun entry => positions entry.1 := by
          rw [List.flatMap_map]
      _ = _ := by rw [List.zipIdx_map_fst]
  unfold facts mentions
  rw [hsections, List.map_map, List.map_append, List.map_append]
  congr 1
  · congr 1
    rw [List.map_flatMap]
    refine List.flatMap_congr fun segment _ => ?_
    rw [segmentFacts, segmentMentions, List.map_map]
    rfl
  · rw [List.map_flatMap]
    refine List.flatMap_congr fun relocation _ => ?_
    rw [relocationFacts, relocationMentions, List.map_map]
    rfl

/-! ## What the analysis returns -/

structure CountsFacts (image : BinaryImage) (graph : SectionGraph) : Prop where
  distinct : (graph.relations.map pairOf).Nodup
  inside : ∀ relation ∈ graph.relations,
    relation.source.toNat < image.sections.length ∧
      relation.target.toNat < image.sections.length
  counted : ∀ relation ∈ graph.relations,
    (relation.source.toNat, relation.target.toNat) ∈ facts image ∧
      relation.references = UInt64.ofNat ((facts image).count
        (relation.source.toNat, relation.target.toNat))
  /-- As many facts as a machine can store do not overflow the counter. -/
  exact_count : (facts image).length < 2 ^ 64 →
    ∀ relation ∈ graph.relations, relation.references.toNat =
      (facts image).count (relation.source.toNat, relation.target.toNat)
  represented : ∀ fact ∈ facts image, fact.1 < image.sections.length →
    fact.2 < image.sections.length → ∃ relation ∈ graph.relations,
      relation.source.toNat = fact.1 ∧ relation.target.toNat = fact.2
  roots : ∀ node, node ∈ graph.roots ↔
    node.toNat < image.sections.length ∧
      ∀ relation ∈ graph.relations, relation.target ≠ node
  orphans : ∀ node, node ∈ graph.orphans ↔
    node.toNat < image.sections.length ∧
      ∀ relation ∈ graph.relations,
        relation.source ≠ node ∧ relation.target ≠ node
  once : graph.roots.Nodup ∧ graph.orphans.Nodup

theorem indegree_eq_zero {node : UInt32} :
    indegree relations node = 0 ↔
      ∀ relation ∈ relations, relation.target ≠ node := by
  simp [indegree, List.countP_eq_zero]

theorem adjacency_eq_nil {node : UInt32} :
    adjacency relations node = [] ↔
      ∀ relation ∈ relations, relation.source ≠ node := by
  simp [adjacency]

theorem graphOf_countsFacts (hindexed : Indexed image)
    (hcount : image.sections.length ≤ 2 ^ 32) (search : LowLinkSearch UInt32) :
    CountsFacts image (graphOf image search) := by
  have htallied := relate_tallied image
  have hfacts := facts_eq hindexed
  have hcounted : ∀ pair : UInt32 × UInt32,
      (facts image).count (positions pair) =
        ((mentions image).map Prod.fst).count pair := by
    intro pair
    rw [hfacts]
    exact List.count_map_of_injective _ positions positions_injective pair
  have hreferences : ∀ relation ∈ relate image, relation.references =
      UInt64.ofNat ((facts image).count (positions (pairOf relation))) := by
    intro relation hrelation
    rw [hcounted, htallied.counted relation hrelation]
  constructor
  · exact htallied.distinct
  · exact htallied.inside
  · refine fun relation hrelation => ⟨?_, hreferences relation hrelation⟩
    rw [hfacts]
    exact List.mem_map_of_mem (htallied.mentioned relation hrelation)
  · intro hfew relation hrelation
    rw [hreferences relation hrelation]
    exact UInt64.toNat_ofNat_of_lt' (List.count_le_length.trans_lt hfew)
  · intro fact hfact hsource htarget
    rw [hfacts] at hfact
    obtain ⟨pair, hpair, rfl⟩ := List.mem_map.mp hfact
    obtain ⟨relation, hrelation, rfl⟩ :=
      List.mem_map.mp (htallied.represented pair hpair ⟨hsource, htarget⟩)
    exact ⟨relation, hrelation, rfl, rfl⟩
  · intro node
    rw [graphOf, List.mem_filter, mem_nodes hcount, decide_eq_true_iff,
      indegree_eq_zero]
  · intro node
    rw [graphOf, List.mem_filter, mem_nodes hcount, decide_eq_true_iff,
      adjacency_eq_nil, indegree_eq_zero, ← forall₂_and]
  · exact ⟨(nodes_nodup hcount).filter _, (nodes_nodup hcount).filter _⟩

theorem countsFacts_of_ok (hindexed : Indexed image)
    (hrun : analyze limits image = .ok (.ok graph)) :
    CountsFacts image graph := by
  obtain ⟨hlimit, hresult⟩ := analyze_eq_ok.mp hrun
  revert hresult
  cases LowLinkSearch.connectAll (adjacency (relate image)) greatestIndex
    image.sections.length (nodes image) with
  | error halt =>
      intro hresult
      contradiction
  | ok search =>
      intro hresult
      obtain rfl := Except.ok.inj hresult
      exact graphOf_countsFacts hindexed (sections_le hlimit) search

/-- Within the section limit, the analysis returns a graph whose relations
count every fact once, with the roots and orphans of these relations, exactly
for fewer than 2^31 sections. -/
theorem analyze_countsFacts_iff (hindexed : Indexed image)
    (hlimit : image.sections.length ≤ limits.maxSections.toNat) :
    (∃ graph, analyze limits image = .ok (.ok graph) ∧
      CountsFacts image graph) ↔ image.sections.length < 2 ^ 31 := by
  constructor
  · rintro ⟨graph, hrun, -⟩
    by_contra hmany
    rw [analyze_overflows hlimit (not_lt.mp hmany)] at hrun
    simp at hrun
  · intro hfew
    obtain ⟨graph, hrun, -⟩ := analyze_succeeds hlimit hfew
    exact ⟨graph, hrun, countsFacts_of_ok hindexed hrun⟩

/-- The link from the second section to the third repeats their order in the
segment. -/
theorem analyze_countsFacts_iff_linked :
    let image : BinaryImage :=
      { sections := [{ index := 0 }, { index := 1, link := 2 },
          { index := 2, link := 1 }]
        segments := [{ sections := [1, 2] }] }
    ∃ graph, analyze {} image = .ok (.ok graph) ∧ CountsFacts image graph ∧
      graph.relations.map SectionRelation.references = [2, 1] ∧
      graph.orphans = [0] := by
  intro image
  have hindexed : Indexed image := by
    intro position item hitem
    obtain ⟨hlt, rfl⟩ := List.getElem?_eq_some_iff.mp hitem
    change position < 3 at hlt
    interval_cases position <;> rfl
  obtain ⟨graph, hrun, hcounts⟩ := (analyze_countsFacts_iff hindexed
    (by decide : image.sections.length ≤ ({} : Limits).maxSections.toNat)).mpr
    (by decide)
  have heval : (analyze {} image).toOption.bind (fun result =>
      result.toOption.map fun graph =>
        (graph.relations.map SectionRelation.references, graph.orphans)) =
        some ([2, 1], [0]) := by
    decide +kernel
  rw [hrun] at heval
  obtain ⟨hreferences, horphans⟩ := Prod.ext_iff.mp (Option.some.inj heval)
  exact ⟨graph, hrun, hcounts, hreferences, horphans⟩

/-- Sections whose first two follow each other in a segment. -/
def orderedImage (count : ℕ) : BinaryImage :=
  { unrelatedImage count with segments := [{ sections := [0, 1] }] }

theorem orderedImage_sections (count : ℕ) :
    (orderedImage count).sections = (unrelatedImage count).sections := rfl

theorem mem_facts_orderedImage (count : ℕ) :
    (0, 1) ∈ facts (orderedImage count) := by
  apply List.mem_append_left
  apply List.mem_append_right
  exact List.mem_singleton.mpr rfl

/-- That order is a fact that is never reported: the search overflows at the
last section. -/
theorem analyze_uncounted :
    let limits : Limits := { maxSections := 0x80000000 }
    let image := orderedImage 0x80000000
    Indexed image ∧ image.sections.length ≤ limits.maxSections.toNat ∧
      (0, 1) ∈ facts image ∧
      ¬∃ graph, analyze limits image = .ok (.ok graph) ∧
        CountsFacts image graph := by
  intro limits image
  have hsections : image.sections = (unrelatedImage 0x80000000).sections :=
    orderedImage_sections _
  have hlength : image.sections.length = 0x80000000 := by
    rw [hsections]
    exact unrelatedImage_length 0x80000000
  have hlimit : image.sections.length ≤ limits.maxSections.toNat := by
    rw [hlength]
    decide +kernel
  have hindexed : Indexed image := by
    intro position item hitem
    rw [hsections] at hitem
    exact unrelatedImage_indexed (by decide) position item hitem
  refine ⟨hindexed, hlimit, mem_facts_orderedImage _, ?_⟩
  rintro ⟨graph, hrun, -⟩
  rw [analyze_overflows hlimit (hlength ▸ by decide)] at hrun
  simp at hrun

end SectionGraphAnalyzer
end BinForge
