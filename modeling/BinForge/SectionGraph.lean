import BinForge.Image
import BinForge.LowLinkSearch

/-!
# The graph of the sections

`SectionGraphAnalyzer::analyze` collects the relations between sections from
their links, the segments and the relocations, and decomposes the graph they
span.  The search numbers the sections with a signed 32-bit counter.
-/

namespace BinForge

open StatefulExcept

/-- The order the section indices are sorted by. -/
instance linearOrderUInt32 : LinearOrder UInt32 where
  le_refl := UInt32.le_refl
  le_trans _ _ _ := UInt32.le_trans
  le_antisymm _ _ := UInt32.le_antisymm
  le_total := UInt32.le_total
  toDecidableLE := inferInstance
  lt_iff_le_not_ge := Std.LawfulOrderLT.lt_iff
  min_def _ _ := rfl
  max_def _ _ := rfl

structure SectionRelation where
  source : UInt32 := 0
  target : UInt32 := 0
  reason : Bytes := []
  references : UInt64 := 0
  deriving DecidableEq, Repr

structure SectionGraph where
  components : List (List UInt32) := []
  relations : List SectionRelation := []
  roots : List UInt32 := []
  orphans : List UInt32 := []
  cyclic : Bool := false
  deriving DecidableEq, Repr

namespace SectionGraphAnalyzer

/-- One more reference, with its reason if that is new. -/
def mention (reason : Bytes) (relation : SectionRelation) : SectionRelation :=
  { relation with
    references := relation.references + 1
    reason :=
      if reason <:+: relation.reason then relation.reason
      else relation.reason ++ (ascii "," ++ reason) }

/-- The map of the source from a pair to its position finds what is searched
for here; `count` is the number of sections. -/
def addRelation (count : ℕ) (relations : List SectionRelation)
    (source target : UInt32) (reason : Bytes) : List SectionRelation :=
  if count ≤ source.toNat ∨ count ≤ target.toNat then relations
  else
    match relations.findIdx? fun relation =>
        relation.source = source ∧ relation.target = target with
    | some position => relations.modify position (mention reason)
    | none => relations ++ [{ source, target, reason, references := 1 }]

def relateSection (count : ℕ) (relations : List SectionRelation)
    (item : Section) : List SectionRelation :=
  let relations :=
    if item.link ≠ 0 ∧ item.link.toNat < count then
      addRelation count relations item.index item.link "link"
    else relations
  if (item.kind = .relocations ∨ item.kind = .relocationAddends) ∧
      item.info.toNat < count then
    addRelation count relations item.index item.info "relocation-target"
  else relations

/-- Each section of a segment is related to the next one. -/
def relateSegment (count : ℕ) (relations : List SectionRelation)
    (segment : Segment) : List SectionRelation :=
  (segment.sections.zip segment.sections.tail).foldl (fun relations pair =>
    addRelation count relations pair.1 pair.2 "segment-order") relations

def relateRelocation (image : BinaryImage) (relations : List SectionRelation)
    (relocation : Relocation) : List SectionRelation :=
  if image.sections.length ≤ relocation.targetSection.toNat then relations
  else
    match image.symbol? relocation.symbolIndex with
    | none => relations
    | some symbol =>
        if symbol.sectionIndex.toNat < image.sections.length then
          addRelation image.sections.length relations
            relocation.targetSection symbol.sectionIndex "symbol-reference"
        else relations

/-- The three loops that collect the relations. -/
def relate (image : BinaryImage) : List SectionRelation :=
  let count := image.sections.length
  let relations := image.sections.foldl (relateSection count) []
  let relations := image.segments.foldl (relateSegment count) relations
  image.relocations.foldl (relateRelocation image) relations

def adjacency (relations : List SectionRelation) (node : UInt32) :
    List UInt32 :=
  (relations.filter fun relation => relation.source = node).map
    SectionRelation.target

def indegree (relations : List SectionRelation) (node : UInt32) : ℕ :=
  relations.countP fun relation => relation.target = node

/-- The section indices in order. -/
def nodes (image : BinaryImage) : List UInt32 :=
  (List.range image.sections.length).map UInt32.ofNat

/-- The greatest number the counter of the search can hold. -/
def greatestIndex : ℤ := 2147483647

/-- The comparison the components are sorted by. -/
def frontBefore (left right : List UInt32) : Prop :=
  left.headD 0 < right.headD 0

instance (left right : List UInt32) : Decidable (frontBefore left right) :=
  inferInstanceAs (Decidable (_ < _))

def sortComponents (components : List (List UInt32)) : List (List UInt32) :=
  components.insertionSort fun left right => ¬frontBefore right left

/-- The graph that is returned after the search. -/
def graphOf (image : BinaryImage) (search : LowLinkSearch UInt32) :
    SectionGraph :=
  let relations := relate image
  { components := sortComponents search.components
    relations
    roots := (nodes image).filter fun node => indegree relations node = 0
    orphans := (nodes image).filter fun node =>
      adjacency relations node = [] ∧ indegree relations node = 0
    cyclic := search.cyclic }

/-- The outer result is the reported error.  The inner one is the search, which
has no defined outcome once its counter overflows; its recursion is as deep as
there are sections. -/
def analyze (limits : Limits) (image : BinaryImage) :
    Except Failure (Except Halt SectionGraph) := do
  rejectIf (image.sections.length > limits.maxSections.toNat)
    (failure .resourceLimit 0 "section graph exceeds section limit")
  let search := LowLinkSearch.connectAll (adjacency (relate image))
    greatestIndex image.sections.length (nodes image)
  return search.map (graphOf image)

end SectionGraphAnalyzer
end BinForge
