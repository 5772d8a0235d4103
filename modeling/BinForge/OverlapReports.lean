import BinForge.ImageAnalyzer
import BinForge.JsonReport
import BinForge.RangeOrder

/-!
# Which overlaps are reported

The analysis sorts the address ranges of the segments and compares each with
the next one.  An overlap is found where the two ranges are neighbours in that
order, and missed where another range sorts between them.
-/

namespace BinForge
namespace ImageAnalyzer

open StatefulExcept
open BinaryLoader
open RangeOrder (Overlap)

variable {limits : Limits} {image : BinaryImage} {metrics : ImageMetrics}

/-! ## Segments as ranges -/

def start (segment : Segment) : ℕ := segment.virtualAddress.toNat

def stop (segment : Segment) : ℕ :=
  segment.virtualAddress.toNat + segment.memorySize.toNat

def rangeOf (segment : Segment) : AddressRange :=
  { first := segment.virtualAddress
    last := segment.virtualAddress + segment.memorySize
    permissions := segment.permissions
    owner := segmentName segment }

theorem segmentRange_eq_ok {segment : Segment} {range : AddressRange} :
    segmentRange segment = .ok range ↔
      stop segment < 2 ^ 64 ∧ range = rangeOf segment := by
  unfold segmentRange
  simp only [demand_except_bind_eq_ok, checkedAdd_eq_some]
  constructor
  · rintro ⟨last, ⟨hfit, rfl⟩, hrange⟩
    exact ⟨hfit, (Except.ok.inj hrange).symm⟩
  · rintro ⟨hfit, rfl⟩
    exact ⟨_, ⟨hfit, rfl⟩, rfl⟩

theorem last_toNat {segment : Segment} (hfit : stop segment < 2 ^ 64) :
    (rangeOf segment).last.toNat = stop segment := by
  show (segment.virtualAddress + segment.memorySize).toNat = _
  rw [UInt64.toNat_add]
  exact Nat.mod_eq_of_lt hfit

theorem mapM_segmentRange {segments : List Segment}
    {ranges : List AddressRange}
    (hranges : segments.mapM segmentRange = .ok ranges) :
    (∀ segment ∈ segments, stop segment < 2 ^ 64) ∧
      ranges = segments.map rangeOf := by
  induction segments generalizing ranges with
  | nil =>
      obtain rfl := Except.ok.inj hranges
      exact ⟨fun _ hsegment => absurd hsegment List.not_mem_nil, rfl⟩
  | cons segment rest ih =>
      rw [List.mapM_cons] at hranges
      obtain ⟨range, hrange, hranges⟩ := except_bind_eq_ok.mp hranges
      obtain ⟨others, hothers, hranges⟩ := except_bind_eq_ok.mp hranges
      obtain ⟨hfit, rfl⟩ := segmentRange_eq_ok.mp hrange
      obtain ⟨hrest, rfl⟩ := ih hothers
      obtain rfl := Except.ok.inj hranges
      exact ⟨List.forall_mem_cons.mpr ⟨hfit, hrest⟩, rfl⟩

/-! ## The order of the comparison -/

def sortsBefore (left right : Segment) : Prop :=
  start left < start right ∨ start left = start right ∧ stop left ≤ stop right

instance (left right : Segment) : Decidable (sortsBefore left right) :=
  inferInstanceAs (Decidable (_ ∨ _))

/-- The segments by their first address, then by their last. -/
def orderedSegments (image : BinaryImage) : List Segment :=
  image.segments.insertionSort sortsBefore

theorem sortsBefore_iff {left right : Segment} (hleft : stop left < 2 ^ 64)
    (hright : stop right < 2 ^ 64) :
    sortsBefore left right ↔
      ¬sortedBefore (rangeOf right) (rangeOf left) := by
  have hlast := last_toNat hleft
  have hnext := last_toNat hright
  have hsame : (rangeOf right).first ≠ (rangeOf left).first ↔
      start right ≠ start left :=
    UInt64.toNat_inj.symm.not
  unfold sortsBefore sortedBefore
  split
  next hdiffer =>
    have hother := hsame.mp hdiffer
    rw [UInt64.lt_iff_toNat_lt]
    change _ ↔ ¬start right < start left
    omega
  next hequal =>
    have hstart := not_not.mp (hsame.not.mp hequal)
    rw [UInt64.lt_iff_toNat_lt, hlast, hnext]
    omega

theorem sortRanges_eq
    (hfit : ∀ segment ∈ image.segments, stop segment < 2 ^ 64) :
    sortRanges (image.segments.map rangeOf) =
      (orderedSegments image).map rangeOf := by
  symm
  apply List.map_insertionSort
  intro left hleft right hright
  exact sortsBefore_iff (hfit left hleft) (hfit right hright)

/-- The second segment is the next one in the order. -/
def Neighbours (image : BinaryImage) (left right : Segment) : Prop :=
  ∃ front back, orderedSegments image = front ++ left :: right :: back

/-- The comparison of neighbours, which an empty range can satisfy too. -/
def Meets (left right : Segment) : Prop :=
  start left < stop right ∧ start right < stop left

theorem neighbours_iff_adjacent {left right : Segment} :
    Neighbours image left right ↔
      [left, right] <:+: orderedSegments image := by
  constructor
  · rintro ⟨front, back, hordered⟩
    exact ⟨front, back, by rw [hordered, List.append_assoc]; rfl⟩
  · rintro ⟨front, back, hordered⟩
    exact ⟨front, back, by rw [← hordered, List.append_assoc]; rfl⟩

theorem Neighbours.mem {left right : Segment}
    (hnext : Neighbours image left right) :
    left ∈ image.segments ∧ right ∈ image.segments := by
  have hmem : ∀ segment ∈ [left, right], segment ∈ image.segments :=
    fun segment hsegment => (List.mem_insertionSort _).mp
      ((neighbours_iff_adjacent.mp hnext).subset hsegment)
  exact ⟨hmem left (by simp), hmem right (by simp)⟩

/-! ## Entries that name two segments -/

theorem decimal_injective : Function.Injective decimal :=
  Function.LeftInverse.injective BinaryReportWriter.digitsValue_decimal

theorem analyze_eq_ok (hrun : analyze limits image = .ok metrics) :
    (∀ segment ∈ image.segments, stop segment < 2 ^ 64) ∧
      ∃ sections : List SectionMetrics, ∃ flagged : List Section,
        metrics.anomalies =
          overlapAnomalies ((orderedSegments image).map rangeOf) ++
            sections.flatMap (entropyAnomaly image) ++
            flagged.flatMap writableExecutableAnomaly := by
  unfold analyze at hrun
  dsimp only at hrun
  rw [rejectIf_except_bind_eq_ok] at hrun
  obtain ⟨-, hrun⟩ := hrun
  obtain ⟨found, -, hrun⟩ := except_bind_eq_ok.mp hrun
  obtain ⟨ranges, hranges, hrun⟩ := except_bind_eq_ok.mp hrun
  obtain ⟨hfit, rfl⟩ := mapM_segmentRange hranges
  rw [sortRanges_eq hfit] at hrun
  obtain rfl := Except.ok.inj hrun
  refine ⟨hfit, found.sections, ?_⟩
  dsimp only
  split
  · exact ⟨image.sections, rfl⟩
  · exact ⟨[], rfl⟩

/-- Every two segments that share an address are neighbours in the order, or
have their two indices in common with neighbours that meet. -/
def OverlapsAdjacent (image : BinaryImage) : Prop :=
  image.segments.Pairwise fun first second =>
    Overlap start stop first second →
      ∃ left right, Neighbours image left right ∧ Meets left right ∧
        (left.index = first.index ∧ right.index = second.index ∨
          left.index = second.index ∧ right.index = first.index)

theorem meets_of_overlap {first second : Segment}
    (hshare : Overlap start stop first second) : Meets first second := by
  obtain ⟨point, hfirst, hsecond⟩ := hshare
  unfold Meets
  omega

/-- Segments with indices of their own must be neighbours themselves. -/
theorem overlapsAdjacent_iff_of_distinct
    (hdistinct : (image.segments.map Segment.index).Nodup) :
    OverlapsAdjacent image ↔
      image.segments.Pairwise fun first second =>
        Overlap start stop first second →
          Neighbours image first second ∨ Neighbours image second first := by
  have hsame := List.inj_on_of_nodup_map hdistinct
  apply List.Pairwise.iff_of_mem
  intro first second hfirst hsecond
  constructor
  · intro hadjacent hshare
    obtain ⟨left, right, hnext, -, hnames⟩ := hadjacent hshare
    obtain ⟨hleft, hright⟩ := hnext.mem
    rcases hnames with ⟨hone, htwo⟩ | ⟨hone, htwo⟩
    · rw [hsame hleft hfirst hone, hsame hright hsecond htwo] at hnext
      exact Or.inl hnext
    · rw [hsame hleft hsecond hone, hsame hright hfirst htwo] at hnext
      exact Or.inr hnext
  · intro hneighbours hshare
    rcases hneighbours hshare with hnext | hnext
    · exact ⟨first, second, hnext, meets_of_overlap hshare,
        Or.inl ⟨rfl, rfl⟩⟩
    · exact ⟨second, first, hnext, meets_of_overlap hshare.symm,
        Or.inr ⟨rfl, rfl⟩⟩

end ImageAnalyzer
end BinForge
