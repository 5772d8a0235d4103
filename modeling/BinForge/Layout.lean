import BinForge.Loader

/-!
# The layout planner

`LayoutPlanner::plan` places the segments of a valid image relative to the
lowest one, sorts the regions by target address, refuses overlaps, optionally
joins neighbours that continue each other, and adds up what it has placed.
-/

namespace BinForge

open StatefulExcept

structure LayoutRegion where
  sourceOffset : UInt64 := 0
  sourceSize : UInt64 := 0
  targetAddress : UInt64 := 0
  targetSize : UInt64 := 0
  alignment : UInt64 := 1
  permissions : UInt8 := permissionNone
  name : Bytes := []
  deriving DecidableEq, Repr

structure LayoutPlan where
  imageBegin : UInt64 := 0
  imageEnd : UInt64 := 0
  mappedBytes : UInt64 := 0
  fileBytes : UInt64 := 0
  regions : List LayoutRegion := []
  warnings : List Bytes := []
  deriving DecidableEq, Repr

namespace LayoutPlanner

def originalBase (segments : List Segment) : UInt64 :=
  segments.foldl (fun lowest segment => min lowest segment.virtualAddress)
    0xffffffffffffffff

def loadBase (requestedBase originalBase : UInt64) : UInt64 :=
  if requestedBase ≠ 0 then requestedBase else originalBase

/-- The region planned for a segment that occupies memory. -/
def planSegment (limits : Limits) (originalBase loadBase : UInt64)
    (segment : Segment) : Except Failure LayoutRegion := do
  let displacement := segment.virtualAddress - originalBase
  let address ← demand (checkedAdd loadBase displacement)
    (failure .addressOverflow segment.virtualAddress
      "planned segment address overflows")
  let alignment := max limits.pageSize.toUInt64
    (if segment.alignment ≠ 0 then segment.alignment else 1)
  rejectIf (alignment &&& (alignment - 1) ≠ 0)
    (failure .invalidAlignment segment.virtualAddress
      "planned segment alignment is not a power of two")
  let _targetEnd ← demand (checkedAdd address segment.memorySize)
    (failure .addressOverflow address "planned segment range overflows")
  return { sourceOffset := segment.fileOffset, sourceSize := segment.fileSize,
           targetAddress := address, targetSize := segment.memorySize,
           alignment, permissions := segment.permissions,
           name := BinaryLoader.segmentName segment }

def planSegments (limits : Limits) (originalBase loadBase : UInt64)
    (segments : List Segment) : Except Failure (List LayoutRegion) :=
  segments.foldlM (fun regions segment =>
    if segment.memorySize = 0 then return regions
    else do
      let region ← planSegment limits originalBase loadBase segment
      return regions ++ [region]) []

/-- The comparison the regions are sorted by. -/
def sortedBefore (left right : LayoutRegion) : Prop :=
  if left.targetAddress ≠ right.targetAddress then
    left.targetAddress < right.targetAddress
  else left.targetSize < right.targetSize

instance (left right : LayoutRegion) : Decidable (sortedBefore left right) :=
  inferInstanceAs (Decidable (ite _ _ _))

/-- Regions that compare equal are left in either order by the source's sort;
they overlap, so no plan depends on it. -/
def sortRegions (regions : List LayoutRegion) : List LayoutRegion :=
  regions.insertionSort fun left right => ¬sortedBefore right left

/-- The loop over neighbouring regions. -/
def checkOverlaps : List LayoutRegion → Except Failure Unit
  | previous :: current :: rest => do
      let previousEnd ← demand
        (checkedAdd previous.targetAddress previous.targetSize)
        (failure .addressOverflow previous.targetAddress
          "planned region end overflows")
      rejectIf (previousEnd > current.targetAddress)
        (failure .mappingOverlap current.targetAddress
          (previous.name ++ ascii " overlaps " ++ current.name))
      checkOverlaps (current :: rest)
  | _ => return ()

/-- The second region continues the first in memory and in the file. -/
def continues (previous region : LayoutRegion) : Prop :=
  checkedAdd previous.targetAddress previous.targetSize =
      some region.targetAddress ∧
    checkedAdd previous.sourceOffset previous.sourceSize =
      some region.sourceOffset ∧
    previous.permissions = region.permissions

instance (previous region : LayoutRegion) :
    Decidable (continues previous region) :=
  inferInstanceAs (Decidable (_ ∧ _))

def joined (previous region : LayoutRegion)
    (combinedTarget combinedSource : UInt64) : LayoutRegion :=
  { previous with
    targetSize := combinedTarget
    sourceSize := combinedSource
    name := previous.name ++ (ascii "+" ++ region.name) }

/-- The loop of the merge, with the back of the merged vector carried along. -/
def mergeFrom (previous : LayoutRegion) :
    List LayoutRegion → Except Failure (List LayoutRegion)
  | [] => return [previous]
  | region :: rest =>
      if continues previous region then do
        let overflow := failure .addressOverflow region.targetAddress
          "merged layout size overflows"
        let combinedTarget ← demand
          (checkedAdd previous.targetSize region.targetSize) overflow
        let combinedSource ← demand
          (checkedAdd previous.sourceSize region.sourceSize) overflow
        mergeFrom (joined previous region combinedTarget combinedSource) rest
      else do
        let merged ← mergeFrom region rest
        return previous :: merged

def mergeRegions : List LayoutRegion → Except Failure (List LayoutRegion)
  | [] => return []
  | region :: rest => mergeFrom region rest

/-- The end of the last region, or zero without regions. -/
def imageEnd (regions : List LayoutRegion) : Except Failure UInt64 :=
  match regions.getLast? with
  | none => return 0
  | some last => demand (checkedAdd last.targetAddress last.targetSize)
      (failure .addressOverflow last.targetAddress "layout image end overflows")

/-- The body of the last loop: the two totals and the warnings. -/
def accountRegion (plan : LayoutPlan) (region : LayoutRegion) :
    Except Failure LayoutPlan := do
  let mappedBytes ← demand (checkedAdd plan.mappedBytes region.targetSize)
    (failure .addressOverflow region.targetAddress
      "layout mapped-byte total overflows")
  let fileBytes ← demand (checkedAdd plan.fileBytes region.sourceSize)
    (failure .addressOverflow region.sourceOffset
      "layout file-byte total overflows")
  let warning :=
    if hasPermission region.permissions permissionWrite ∧
        hasPermission region.permissions permissionExecute then
      [region.name ++ ascii " is writable and executable"]
    else []
  return { plan with
    mappedBytes, fileBytes, warnings := plan.warnings ++ warning }

/-- What is left to do once the regions are final. -/
def finishPlan (limits : Limits) (regions : List LayoutRegion) :
    Except Failure LayoutPlan := do
  let imageBegin := (regions.head?.map LayoutRegion.targetAddress).getD 0
  let imageEnd ← imageEnd regions
  let plan ← regions.foldlM accountRegion { imageBegin, imageEnd, regions }
  rejectIf (plan.mappedBytes > limits.maxMappedBytes)
    (failure .resourceLimit plan.imageBegin
      "planned image exceeds mapped-byte limit")
  return plan

/-- The regions of the segments, sorted and without overlaps. -/
def placeRegions (limits : Limits) (segments : List Segment)
    (requestedBase : UInt64) : Except Failure (List LayoutRegion) := do
  let originalBase := originalBase segments
  let regions ← planSegments limits originalBase
    (loadBase requestedBase originalBase) segments
  let regions := sortRegions regions
  checkOverlaps regions
  return regions

def plan (limits : Limits) (image : BinaryImage) (requestedBase : UInt64)
    (mergeAdjacent : Bool) : Except Failure LayoutPlan := do
  let validation := BinaryValidator.validate limits image
  -- An invalid report has an error, so its first one exists.
  rejectIf (validation.valid = false)
    (.reported (validation.errors.headD {}))
  if image.segments = [] then
    return { imageBegin := requestedBase, imageEnd := requestedBase }
  else do
    let regions ← placeRegions limits image.segments requestedBase
    let regions ←
      if mergeAdjacent ∧ regions.length > 1 then mergeRegions regions
      else pure regions
    finishPlan limits regions

end LayoutPlanner
end BinForge
