import BinForge.ResourceTrees
import BinForge.TranslatedRange

/-!
# Walks over resource trees

A call of `walk` that returns has found the finite tree of its directory and
has added its leaves to the report.  Conversely the walk of a directory that
unfolds returns as soon as its tree is within the limits: a directory the walk
is inside of unfolds higher than everything below it, so that no cycle is met.

The checksum of a payload is taken where the translator says, without a look at
the end of the file.  The main result is therefore about images whose sections
and segments lie in the file; all their payloads do.
-/

namespace BinForge

open StatefulExcept
open Unfolding

namespace PeResourceParser

variable {area : ResourceArea} {state middle next : WalkState}
  {relative : UInt64} {path : List ResourceIdentifier}
  {visit : UInt64 → List ResourceIdentifier → WalkCall Unit}
  {index count depth levels : ℕ}

/-- Leaves with the paths that lead to them. -/
abbrev Leaves := List (List ResourceIdentifier × ResourceData)

abbrev ResourceForest := Forest ResourceIdentifier ResourceData

def payloadTotal (leaves : Leaves) : ℕ :=
  (leaves.map fun found => found.2.size.toNat).sum

/-- The walk has added these leaves and has come down to this depth. -/
structure Gathered (area : ResourceArea) (leaves : Leaves) (depth : ℕ)
    (state next : WalkState) : Prop where
  read : area.Read next
  active : next.activeDirectories = state.activeDirectories
  entries : next.report.entries =
    state.report.entries ++ leaves.map area.leaf
  totalBytes : next.report.totalBytes.toNat =
    state.report.totalBytes.toNat + payloadTotal leaves
  deepest : next.report.maximumDepth.toNat =
    max state.report.maximumDepth.toNat depth
  warnings : next.report.warnings = state.report.warnings

namespace Gathered

variable {first second : Leaves} {upper lower : ℕ}

theorem none (hread : area.Read state)
    (hdeep : depth ≤ state.report.maximumDepth.toNat) :
    Gathered area [] depth state state := by
  refine ⟨hread, rfl, (List.append_nil _).symm, rfl, ?_, rfl⟩
  rw [max_eq_left hdeep]

theorem trans (hfirst : Gathered area first upper state middle)
    (hsecond : Gathered area second lower middle next) :
    Gathered area (first ++ second) (max upper lower) state next := by
  refine ⟨hsecond.read, hsecond.active.trans hfirst.active, ?_, ?_, ?_,
    hsecond.warnings.trans hfirst.warnings⟩
  · rw [hsecond.entries, hfirst.entries, List.map_append, List.append_assoc]
  · rw [hsecond.totalBytes, hfirst.totalBytes, payloadTotal, payloadTotal,
      payloadTotal, List.map_append, List.sum_append, Nat.add_assoc]
  · rw [hsecond.deepest, hfirst.deepest, max_assoc]

/-- The place of the reader does not matter. -/
theorem of_at {place : ℕ}
    (hgathered : Gathered area first depth (state.at area place) next) :
    Gathered area first depth state next :=
  ⟨hgathered.read, hgathered.active, hgathered.entries, hgathered.totalBytes,
    hgathered.deepest, hgathered.warnings⟩

theorem deepened (hgathered : Gathered area first depth state next) :
    depth ≤ next.report.maximumDepth.toNat := by
  rw [hgathered.deepest]
  exact le_max_right _ _

end Gathered

/-! ## One entry -/

theorem add_gathered (hread : area.Read state) {place : ℕ}
    {found : List ResourceIdentifier × ResourceData}
    (hcount : state.report.entries.length < area.limits.maxSections.toNat)
    (htotal : state.report.totalBytes.toNat + found.2.size.toNat < 2 ^ 64)
    (hdeep : depth ≤ state.report.maximumDepth.toNat) :
    Gathered area [found] depth state
      ((state.at area place).add area found) := by
  refine ⟨⟨hread.data, hread.order, ?_⟩, rfl, rfl, ?_, ?_, rfl⟩
  · show (state.report.entries ++ [area.leaf found]).length ≤ _
    rw [List.length_append, List.length_singleton]
    exact hcount
  · show (state.report.totalBytes + found.2.size).toNat = _
    rw [toNat_add_of_fit htotal]
    rfl
  · exact (max_eq_left hdeep).symm

/-- What a directory call does when it returns. -/
def Gathers (area : ResourceArea) (levels depth : ℕ)
    (visit : UInt64 → List ResourceIdentifier → WalkCall Unit) : Prop :=
  ∀ ⦃node path state next⦄, area.Read state →
    visit node path state = .ok () next →
      ∃ inside inner, area.directoryAt node = some inside ∧
        Unfolds area.directoryAt inside inner ∧ inner.height < levels ∧
          Gathered area (inner.listing path) (depth + inner.height) state next

theorem walkEntry_gathers (hbacked : area.Backed) (hread : area.Read state)
    (hvisit : Gathers area levels (depth + 1) visit)
    (hdeep : depth ≤ state.report.maximumDepth.toNat)
    (hroom : relative.toNat + 16 + 8 * index + 8 ≤ area.directorySize.toNat)
    (hrun : walkEntry area.limits area.image area.baseFile area.directorySize
      relative path visit index state = .ok () next) :
    ∃ entry forest,
      area.entryAt (relative.toNat + 16 + 8 * index) = some entry ∧
        Unfolds area.directoryAt [entry] forest ∧ forest.height ≤ levels ∧
          Gathered area (forest.listing path) (depth + forest.height) state
            next := by
  obtain ⟨identifier, hname, htarget⟩ :=
    (walkEntry_eq_ok hbacked hread hroom).mp hrun
  split at htarget
  · rename_i hdirectory
    obtain ⟨inside, inner, hinside, hinner, hheight, hgathered⟩ :=
      hvisit (hread.at _) htarget
    refine ⟨_, .branch identifier inner .nil,
      entryAt_inr.mpr ⟨hname, hdirectory, rfl⟩, .branch hinside hinner .nil,
      ?_, ?_⟩
    · show max (inner.height + 1) 0 ≤ levels
      omega
    · have hlast : depth + max (inner.height + 1) 0 =
          depth + 1 + inner.height := by omega
      rw [Forest.listing, Forest.listing, List.append_nil, Forest.height,
        Forest.height, hlast]
      exact hgathered.of_at
  · rename_i hleaf
    obtain ⟨data, hdata, hcount, htotal, rfl⟩ :=
      (addResource_eq_ok hbacked (hread.at _)).mp htarget
    rw [UInt32.toNat_toUInt64] at hdata
    exact ⟨_, .item identifier data .nil,
      entryAt_inl.mpr ⟨hname, not_not.mp hleaf, hdata⟩, .item .nil,
      Nat.zero_le _, add_gathered hread hcount htotal hdeep⟩

theorem walkEntries_gathers (hbacked : area.Backed) (hread : area.Read state)
    (hvisit : Gathers area levels (depth + 1) visit)
    (hdeep : depth ≤ state.report.maximumDepth.toNat)
    (hroom : relative.toNat + 16 + 8 * (index + count) ≤
      area.directorySize.toNat)
    (hrun : (List.range' index count).forM (walkEntry area.limits area.image
      area.baseFile area.directorySize relative path visit) state =
        .ok () next) :
    ∃ entries forest, (List.range' index count).mapM (fun index =>
        area.entryAt (relative.toNat + 16 + 8 * index)) = some entries ∧
      Unfolds area.directoryAt entries forest ∧ forest.height ≤ levels ∧
        Gathered area (forest.listing path) (depth + forest.height) state
          next := by
  induction count generalizing index state with
  | zero =>
      cases hrun
      exact ⟨[], .nil, rfl, .nil, Nat.zero_le _, .none hread hdeep⟩
  | succ count ih =>
      rw [List.range'_succ, List.forM, bind_eq_ok] at hrun
      obtain ⟨_, middle, hfirst, hrest⟩ := hrun
      obtain ⟨entry, head, hentry, hhead, hlow, hgathered⟩ :=
        walkEntry_gathers hbacked hread hvisit hdeep (by omega) hfirst
      have hdeeper : depth ≤ middle.report.maximumDepth.toNat :=
        (Nat.le_add_right _ _).trans hgathered.deepened
      obtain ⟨entries, tail, hentries, htail, hlower, hgathers⟩ :=
        ih hgathered.read hdeeper (by omega) hrest
      refine ⟨entry :: entries, head.append tail, ?_,
        unfolds_cons_iff.mpr ⟨head, tail, hhead, htail, rfl⟩, ?_, ?_⟩
      · rw [List.range'_succ, List.mapM_cons, hentry]
        simp only [Option.bind_eq_bind, Option.bind_some, hentries]
        rfl
      · rw [Forest.height_append]
        exact max_le hlow hlower
      · rw [Forest.height_append, Forest.listing_append,
          ← Nat.add_max_add_left]
        exact hgathered.trans hgathers

/-! ## One directory -/

/-- The state in which the entries of a directory are walked. -/
def opened (area : ResourceArea) (levels : ℕ) (relative : UInt64)
    (state : WalkState) : WalkState :=
  (activate relative (deepen (UInt32.ofNat
    (area.limits.maxDebugDepth.toNat - levels)) (enter state))).at area
      (relative.toNat + 16)

theorem ResourceArea.Read.opened (hread : area.Read state) (levels : ℕ)
    (relative : UInt64) : area.Read (opened area levels relative state) :=
  ⟨hread.data, hread.order, hread.count⟩

theorem walk_succ_eq_ok (hbacked : area.Backed) (hread : area.Read state) :
    walk area.limits area.image area.baseFile area.directorySize (levels + 1)
        relative path state = .ok () next ↔
      relative ∉ state.activeDirectories ∧
      (relative.toNat + 16 + 8 * area.entryCount relative.toNat ≤
          area.directorySize.toNat ∧
        area.entryCount relative.toNat ≤ area.limits.maxSections.toNat) ∧
      ∃ last, (List.range' 0 (area.entryCount relative.toNat)).forM
          (walkEntry area.limits area.image area.baseFile area.directorySize
            relative path (walk area.limits area.image area.baseFile
              area.directorySize levels)) (opened area levels relative state) =
            .ok () last ∧ next = leave relative last := by
  have hentered : area.Read (activate relative (deepen (UInt32.ofNat
      (area.limits.maxDebugDepth.toNat - levels)) (enter state))) :=
    ⟨hread.data, hread.order, hread.count⟩
  rw [walk, bind_of_ok (modify_apply _ _), bind_of_ok (modify_apply _ _),
    bind_of_ok (get_apply _), rejectIf_bind_eq_ok,
    bind_of_ok (modify_apply _ _), bind_eq_ok]
  refine and_congr_right fun _ => ?_
  unfold erasing
  simp only [withCleanup_eq_ok, openDirectory_eq_ok hbacked hentered]
  constructor
  · rintro ⟨count, middle, ⟨hroom, rfl, rfl⟩, hrest⟩
    rw [bind_eq_ok, entryCount_toNat, List.range_eq_range'] at hrest
    obtain ⟨_, last, hentries, hleave⟩ := hrest
    cases hleave
    exact ⟨hroom, last, hentries, rfl⟩
  · rintro ⟨hroom, last, hentries, rfl⟩
    refine ⟨_, _, ⟨hroom, rfl, rfl⟩, bind_eq_ok.mpr ⟨(), last, ?_, rfl⟩⟩
    rw [entryCount_toNat, List.range_eq_range']
    exact hentries

theorem directoryAt_eq_some {entries : List (Entry ResourceIdentifier
    ResourceData UInt64)} :
    area.directoryAt relative = some entries ↔
      (relative.toNat + 16 + 8 * area.entryCount relative.toNat ≤
          area.directorySize.toNat ∧
        area.entryCount relative.toNat ≤ area.limits.maxSections.toNat) ∧
      (List.range' 0 (area.entryCount relative.toNat)).mapM (fun index =>
        area.entryAt (relative.toNat + 16 + 8 * index)) = some entries := by
  unfold ResourceArea.directoryAt
  dsimp only
  rw [List.range_eq_range']
  split
  · rename_i hroom
    exact (and_iff_right hroom).symm
  · rename_i hroom
    exact iff_of_false nofun fun hentries => hroom hentries.1

theorem max_toNat (left right : UInt32) :
    (max left right).toNat = max left.toNat right.toNat := by
  show (if left ≤ right then right else left).toNat = _
  rw [Nat.max_def]
  simp only [UInt32.le_iff_toNat_le]
  split <;> rfl

theorem opened_deepest (levels : ℕ) (relative : UInt64) (state : WalkState) :
    (opened area levels relative state).report.maximumDepth.toNat =
      max state.report.maximumDepth.toNat
        (area.limits.maxDebugDepth.toNat - levels) := by
  have hsmall := area.limits.maxDebugDepth.toNat_lt
  have hdepth : (UInt32.ofNat
      (area.limits.maxDebugDepth.toNat - levels)).toNat =
        area.limits.maxDebugDepth.toNat - levels :=
    UInt32.toNat_ofNat_of_lt' (by show _ < 2 ^ 32; omega)
  rw [← hdepth]
  exact max_toNat _ _

/-- A call of `walk` that returns. -/
theorem walk_gathers (hbacked : area.Backed)
    (hlevels : levels ≤ area.limits.maxDebugDepth.toNat + 1) :
    Gathers area levels (area.limits.maxDebugDepth.toNat + 1 - levels)
      (walk area.limits area.image area.baseFile area.directorySize levels) := by
  induction levels with
  | zero =>
      intro node path state next _ hrun
      cases hrun
  | succ levels ih =>
      intro node path state next hread hrun
      obtain ⟨hfresh, hroom, last, hentries, rfl⟩ :=
        (walk_succ_eq_ok hbacked hread).mp hrun
      have hdepth : area.limits.maxDebugDepth.toNat + 1 - levels =
          area.limits.maxDebugDepth.toNat + 1 - (levels + 1) + 1 := by omega
      have hstart : area.limits.maxDebugDepth.toNat - levels =
          area.limits.maxDebugDepth.toNat + 1 - (levels + 1) := by omega
      have hdeep : area.limits.maxDebugDepth.toNat + 1 - (levels + 1) ≤
          (opened area levels node state).report.maximumDepth.toNat := by
        rw [opened_deepest, hstart]
        exact le_max_right _ _
      rw [hdepth] at ih
      obtain ⟨entries, forest, hlisted, hforest, hheight, hgathered⟩ :=
        walkEntries_gathers hbacked (hread.opened levels node) (ih (by omega))
          hdeep (by omega) hentries
      refine ⟨entries, forest, directoryAt_eq_some.mpr ⟨hroom, hlisted⟩,
        hforest, Nat.lt_succ_of_le hheight, ?_⟩
      refine ⟨⟨hgathered.read.data, hgathered.read.order,
        hgathered.read.count⟩, ?_, hgathered.entries, hgathered.totalBytes, ?_,
          hgathered.warnings⟩
      · show last.activeDirectories.erase node = state.activeDirectories
        rw [hgathered.active]
        exact List.erase_cons_head ..
      · refine hgathered.deepest.trans ?_
        rw [opened_deepest, max_assoc, hstart, max_eq_right
          (Nat.le_add_right _ _)]

/-! ## Calls that return -/

/-- The leaves fit what the walk may still add. -/
structure Room (area : ResourceArea) (leaves : Leaves) (state : WalkState) :
    Prop where
  count : state.report.entries.length + leaves.length ≤
    area.limits.maxSections.toNat
  total : state.report.totalBytes.toNat + payloadTotal leaves < 2 ^ 64

theorem Room.split {first second : Leaves}
    (hroom : Room area (first ++ second) state) :
    Room area first state ∧
      ∀ {middle}, Gathered area first depth state middle →
        Room area second middle := by
  obtain ⟨hcount, htotal⟩ := hroom
  rw [List.length_append] at hcount
  rw [payloadTotal, List.map_append, List.sum_append] at htotal
  refine ⟨⟨by omega, by unfold payloadTotal; omega⟩, fun hgathered => ⟨?_, ?_⟩⟩
  · rw [hgathered.entries, List.length_append, List.length_map]
    omega
  · rw [hgathered.totalBytes]
    unfold payloadTotal
    omega

/-- A directory call returns for every tree within its levels, as long as the
directories the walk is inside of unfold higher. -/
def Returns (area : ResourceArea) (levels : ℕ)
    (visit : UInt64 → List ResourceIdentifier → WalkCall Unit) : Prop :=
  ∀ ⦃node path state inside inner⦄, area.Read state →
    area.directoryAt node = some inside →
      Unfolds area.directoryAt inside inner → inner.height < levels →
        (∀ active ∈ state.activeDirectories,
          HigherThan area.directoryAt inner.height active) →
            Room area (inner.listing path) state →
              ∃ next, visit node path state = .ok () next

theorem walkEntry_returns (hbacked : area.Backed) (hread : area.Read state)
    (hvisit : Returns area levels visit)
    (hroom : relative.toNat + 16 + 8 * index + 8 ≤ area.directorySize.toNat)
    {entry : Entry ResourceIdentifier ResourceData UInt64}
    {forest : ResourceForest}
    (hentry : area.entryAt (relative.toNat + 16 + 8 * index) = some entry)
    (hforest : Unfolds area.directoryAt [entry] forest)
    (hheight : forest.height ≤ levels)
    (hactive : ∀ height < forest.height, ∀ active ∈ state.activeDirectories,
      HigherThan area.directoryAt height active)
    (hleaves : Room area (forest.listing path) state) :
    ∃ next, walkEntry area.limits area.image area.baseFile area.directorySize
      relative path visit index state = .ok () next := by
  simp only [walkEntry_eq_ok hbacked hread hroom]
  cases hforest with
  | @item identifier data _ rest hrest =>
      cases hrest
      obtain ⟨hname, hbit, hdata⟩ := entryAt_inl.mp hentry
      rw [← UInt32.toNat_toUInt64] at hdata
      have hadd := (@addResource_eq_ok area _ _ hbacked (hread.at
        (relative.toNat + 16 + 8 * index + 8)) _ (path ++ [identifier])).mpr
          ⟨data, hdata, hleaves.count, hleaves.total, rfl⟩
      refine ⟨_, identifier, hname, Eq.trans ?_ hadd⟩
      rw [if_neg (not_not.mpr hbit)]
  | @branch identifier node inside _ inner rest hnode hinner hrest =>
      cases hrest
      obtain ⟨hname, hbit, rfl⟩ := entryAt_inr.mp hentry
      have hlower : inner.height <
          (Forest.branch identifier inner .nil).height := by
        show inner.height < max (inner.height + 1) 0
        omega
      rw [Forest.listing, Forest.listing, List.append_nil] at hleaves
      obtain ⟨next, hnext⟩ := hvisit (hread.at
        (relative.toNat + 16 + 8 * index + 8)) hnode hinner
          (hlower.trans_le hheight) (hactive _ hlower)
          ⟨hleaves.count, hleaves.total⟩
      refine ⟨next, identifier, hname, ?_⟩
      rw [if_pos hbit]
      exact hnext

theorem walkEntries_returns (hbacked : area.Backed) (hread : area.Read state)
    (hgathers : Gathers area levels (depth + 1) visit)
    (hvisit : Returns area levels visit)
    (hdeep : depth ≤ state.report.maximumDepth.toNat)
    (hroom : relative.toNat + 16 + 8 * (index + count) ≤
      area.directorySize.toNat)
    {entries : List (Entry ResourceIdentifier ResourceData UInt64)}
    {forest : ResourceForest}
    (hentries : (List.range' index count).mapM (fun index =>
      area.entryAt (relative.toNat + 16 + 8 * index)) = some entries)
    (hforest : Unfolds area.directoryAt entries forest)
    (hheight : forest.height ≤ levels)
    (hactive : ∀ height < forest.height, ∀ active ∈ state.activeDirectories,
      HigherThan area.directoryAt height active)
    (hleaves : Room area (forest.listing path) state) :
    ∃ next, (List.range' index count).forM (walkEntry area.limits area.image
      area.baseFile area.directorySize relative path visit) state =
        .ok () next := by
  induction count generalizing index state entries forest with
  | zero => exact ⟨state, rfl⟩
  | succ count ih =>
      rw [List.range'_succ, List.mapM_cons] at hentries
      obtain ⟨entry, hentry, hrest⟩ := Option.bind_eq_some_iff.mp hentries
      obtain ⟨others, hothers, hsame⟩ := Option.bind_eq_some_iff.mp hrest
      cases hsame
      obtain ⟨head, tail, hhead, htail, rfl⟩ := unfolds_cons_iff.mp hforest
      rw [Forest.height_append] at hheight hactive
      rw [Forest.listing_append] at hleaves
      obtain ⟨hfirstRoom, hrestRoom⟩ := hleaves.split
      obtain ⟨middle, hfirst⟩ := walkEntry_returns hbacked hread hvisit
        (by omega) hentry hhead (le_of_max_le_left hheight)
        (fun height hlt => hactive height (hlt.trans_le (le_max_left _ _)))
        hfirstRoom
      obtain ⟨found, same, hfound, hsame, -, hgathered⟩ := walkEntry_gathers
        hbacked hread hgathers hdeep (by omega) hfirst
      obtain rfl := Option.some.inj (hentry.symm.trans hfound)
      obtain rfl := hhead.unique hsame
      obtain ⟨next, hnext⟩ := ih hgathered.read
        ((Nat.le_add_right _ _).trans hgathered.deepened) (by omega) hothers
        htail (le_of_max_le_right hheight) (by
          rw [hgathered.active]
          exact fun height hlt =>
            hactive height (hlt.trans_le (le_max_right _ _)))
        (hrestRoom hgathered)
      rw [List.range'_succ, List.forM]
      exact ⟨next, bind_eq_ok.mpr ⟨(), middle, hfirst, hnext⟩⟩

theorem walk_returns (hbacked : area.Backed)
    (hlevels : levels ≤ area.limits.maxDebugDepth.toNat + 1) :
    Returns area levels (walk area.limits area.image area.baseFile
      area.directorySize levels) := by
  induction levels with
  | zero =>
      intro node path state inside inner _ _ _ hheight
      exact absurd hheight (Nat.not_lt_zero _)
  | succ levels ih =>
      intro node path state inside inner hread hnode hinner hheight hactive
        hleaves
      obtain ⟨hroom, hlisted⟩ := directoryAt_eq_some.mp hnode
      have hfresh : node ∉ state.activeDirectories := fun hmem =>
        (hactive node hmem).ne hnode hinner rfl
      have hhigher : ∀ height < inner.height,
          ∀ active ∈ (opened area levels node state).activeDirectories,
            HigherThan area.directoryAt height active := by
        intro height hlt active hmem
        rcases List.mem_cons.mp hmem with rfl | hmem
        · exact ⟨inside, inner, hnode, hinner, hlt⟩
        · exact (hactive active hmem).mono hlt.le
      have hdepth : area.limits.maxDebugDepth.toNat + 1 - levels =
          area.limits.maxDebugDepth.toNat - levels + 1 := by omega
      have hgathers := walk_gathers hbacked (Nat.le_of_succ_le hlevels)
      rw [hdepth] at hgathers
      obtain ⟨last, hlast⟩ := walkEntries_returns hbacked
        (hread.opened levels node) hgathers (ih (by omega))
        (by rw [opened_deepest]; exact le_max_right _ _) (by omega) hlisted
        hinner (Nat.le_of_lt_succ hheight) hhigher
        ⟨hleaves.count, hleaves.total⟩
      exact ⟨_, (walk_succ_eq_ok hbacked hread).mpr
        ⟨hfresh, hroom, last, hlast, rfl⟩⟩

/-! ## The whole directory -/

/-- The report lists the tree of the area, which is within the limits. -/
def Describes (area : ResourceArea) (report : ResourceReport) : Prop :=
  ∃ entries tree, area.directoryAt 0 = some entries ∧
    Unfolds area.directoryAt entries tree ∧
    tree.height ≤ area.limits.maxDebugDepth.toNat ∧
    (tree.listing []).length ≤ area.limits.maxSections.toNat ∧
    payloadTotal (tree.listing []) < 2 ^ 64 ∧
    report =
      { entries := (tree.listing []).map area.leaf
        totalBytes := UInt64.ofNat (payloadTotal (tree.listing []))
        maximumDepth := UInt32.ofNat tree.height }

/-- A payload of an image whose ranges lie in the file. -/
theorem ResourceArea.dataAt_inside
    (hranges : AddressTranslator.RangesInside area.image area.bytes)
    {place : ℕ} {data : ResourceData} (hdata : area.dataAt place = some data) :
    data.fileOffset.toNat + data.size.toNat ≤ area.bytes.length := by
  unfold ResourceArea.dataAt at hdata
  split at hdata
  · obtain ⟨found, hfound, rfl⟩ := Option.map_eq_some_iff.mp hdata
    exact (AddressTranslator.rvaToFile_inside hranges hfound).1
  · contradiction

theorem mem_mapM {α β : Type} {f : α → Option β} {items : List α}
    {values : List β} {value : β} (hvalues : items.mapM f = some values)
    (hmem : value ∈ values) : ∃ item ∈ items, f item = some value := by
  induction items generalizing values with
  | nil =>
      cases hvalues
      exact absurd hmem List.not_mem_nil
  | cons item items ih =>
      rw [List.mapM_cons] at hvalues
      obtain ⟨first, hfirst, hrest⟩ := Option.bind_eq_some_iff.mp hvalues
      obtain ⟨others, hothers, hsame⟩ := Option.bind_eq_some_iff.mp hrest
      cases hsame
      rcases List.mem_cons.mp hmem with rfl | hmem
      · exact ⟨item, List.mem_cons_self, hfirst⟩
      · obtain ⟨found, hfound, hvalue⟩ := ih hothers hmem
        exact ⟨found, List.mem_cons_of_mem _ hfound, hvalue⟩

theorem ResourceArea.directoryAt_inside
    (hranges : AddressTranslator.RangesInside area.image area.bytes)
    {entries : List (Entry ResourceIdentifier ResourceData UInt64)}
    (hentries : area.directoryAt relative = some entries)
    (key : ResourceIdentifier) (data : ResourceData)
    (hmem : (key, .inl data) ∈ entries) :
    data.fileOffset.toNat + data.size.toNat ≤ area.bytes.length := by
  obtain ⟨index, -, hentry⟩ :=
    mem_mapM (directoryAt_eq_some.mp hentries).2 hmem
  exact area.dataAt_inside hranges (entryAt_inl.mp hentry).2.2

theorem Describes.inside {report : ResourceReport}
    (hdescribes : Describes area report)
    (hranges : AddressTranslator.RangesInside area.image area.bytes) :
    ∀ entry ∈ report.entries,
      entry.fileOffset.toNat + entry.size.toNat ≤ area.bytes.length := by
  obtain ⟨entries, tree, hroot, htree, -, -, -, rfl⟩ := hdescribes
  intro entry hmem
  obtain ⟨found, hfound, rfl⟩ := List.mem_map.mp hmem
  exact htree.forall_listing
    (fun _ _ hinside => area.directoryAt_inside hranges hinside)
    (area.directoryAt_inside hranges hroot) [] found hfound

theorem Gathered.report {leaves : Leaves}
    (hgathered : Gathered area leaves depth state next)
    (hreport : state.report = {}) :
    next.report =
      { entries := leaves.map area.leaf
        totalBytes := UInt64.ofNat (payloadTotal leaves)
        maximumDepth := UInt32.ofNat depth } := by
  obtain ⟨-, -, hentries, htotal, hdeepest, hwarnings⟩ := hgathered
  rw [hreport] at hentries htotal hdeepest hwarnings
  have htotalBytes : next.report.totalBytes =
      UInt64.ofNat (payloadTotal leaves) := by
    rw [← UInt64.ofNat_toNat (x := next.report.totalBytes), htotal]
    exact congrArg UInt64.ofNat (Nat.zero_add _)
  have hdepth : next.report.maximumDepth = UInt32.ofNat depth := by
    rw [← UInt32.ofNat_toNat (x := next.report.maximumDepth), hdeepest]
    exact congrArg UInt32.ofNat (Nat.zero_max _)
  cases hlast : next.report with
  | mk entries totalBytes maximumDepth warnings =>
      rw [hlast] at hentries htotalBytes hdepth hwarnings
      rw [ResourceReport.mk.injEq]
      exact ⟨hentries, htotalBytes, hdepth, hwarnings⟩

theorem walk_root_iff (hbacked : area.Backed) (hread : area.Read state)
    (hactive : state.activeDirectories = []) (hreport : state.report = {})
    {report : ResourceReport} :
    (∃ next, walk area.limits area.image area.baseFile area.directorySize
        (area.limits.maxDebugDepth.toNat + 1) 0 [] state = .ok () next ∧
          next.report = report) ↔
      Describes area report := by
  have hgathers := walk_gathers hbacked
    (le_refl (area.limits.maxDebugDepth.toNat + 1))
  rw [Nat.sub_self] at hgathers
  constructor
  · rintro ⟨next, hrun, rfl⟩
    obtain ⟨entries, tree, hentries, htree, hheight, hgathered⟩ :=
      hgathers hread hrun
    rw [Nat.zero_add] at hgathered
    refine ⟨entries, tree, hentries, htree, Nat.le_of_lt_succ hheight, ?_, ?_,
      hgathered.report hreport⟩
    · have hcount := hgathered.read.count
      rw [hgathered.entries, List.length_append, List.length_map] at hcount
      omega
    · have htotal := next.report.totalBytes.toNat_lt
      rw [hgathered.totalBytes] at htotal
      omega
  · rintro ⟨entries, tree, hentries, htree, hheight, hcount, htotal, rfl⟩
    have hroom : Room area (tree.listing []) state := by
      refine ⟨?_, ?_⟩
      · rw [hreport]
        exact (Nat.zero_add _).trans_le hcount
      · rw [hreport]
        exact (Nat.zero_add _).trans_lt htotal
    obtain ⟨next, hrun⟩ := walk_returns hbacked
      (le_refl (area.limits.maxDebugDepth.toNat + 1)) hread hentries htree
      (Nat.lt_succ_of_le hheight) (by
        rw [hactive]
        exact nofun) hroom
    obtain ⟨listed, same, hlisted, hsame, -, hgathered⟩ := hgathers hread hrun
    obtain rfl := Option.some.inj (hentries.symm.trans hlisted)
    obtain rfl := htree.unique hsame
    rw [Nat.zero_add] at hgathered
    exact ⟨next, hrun, hgathered.report hreport⟩

/-- For an image whose sections and segments lie in the file, a parse succeeds
exactly on the directories that unfold to a finite tree within the limits.  It
reports that tree, all of whose payloads lie in the file. -/
theorem parse_describes {limits : Limits} {image : BinaryImage}
    {directoryRva directorySize : UInt64} {report : ResourceReport}
    (haddressable : (image.fileData.getD []).length < 2 ^ 64)
    (hranges : AddressTranslator.RangesInside image
      (image.fileData.getD [])) :
    evaluate (parse limits image directoryRva directorySize) (start image) =
        .ok report ↔
      (image.fileData ≠ none ∧ image.header.format = .peLike) ∧
        if directorySize = 0 then report = {}
        else directorySize ≤ limits.maxSectionBytes ∧
          ∃ root, resourceRoot image directoryRva directorySize = some root ∧
            Describes { limits, image, baseFile := root.fileOffset
                        directorySize } report ∧
            ∀ entry ∈ report.entries,
              entry.fileOffset.toNat + entry.size.toNat ≤
                (image.fileData.getD []).length := by
  unfold parse
  rw [evaluate_eq_ok]
  simp only [rejectIf_bind_eq_ok, not_or, not_not, exists_and_left, ne_eq]
  refine and_congr_right fun _ => ?_
  split
  · simp [pure_eq_ok, eq_comm]
  · simp only [rejectIf_bind_eq_ok, exists_and_left, gt_iff_lt, UInt64.not_lt]
    refine and_congr_right fun _ => ?_
    rw [exists_congr fun next => demand_bind_eq_ok, exists_comm]
    refine exists_congr fun root => ?_
    rw [exists_and_left]
    refine and_congr_right fun hroot => ?_
    have hbacked : ResourceArea.Backed
        { limits, image, baseFile := root.fileOffset, directorySize } :=
      ⟨rangeInside_iff.mp (Option.filter_eq_some_iff.mp hroot).2,
        haddressable⟩
    have hread : ResourceArea.Read
        { limits, image, baseFile := root.fileOffset, directorySize }
          (start image) := ⟨rfl, rfl, Nat.zero_le _⟩
    have hpayloads (hdescribes : Describes
        { limits, image, baseFile := root.fileOffset, directorySize } report) :
        ∀ entry ∈ report.entries, entry.fileOffset.toNat + entry.size.toNat ≤
          (image.fileData.getD []).length := hdescribes.inside hranges
    rw [and_iff_left_of_imp hpayloads, ← walk_root_iff hbacked hread rfl rfl]
    simp only [bind_eq_ok]
    constructor
    · rintro ⟨last, _, next, hrun, found, _, hget, hpure⟩
      refine ⟨next, hrun, ?_⟩
      cases hget
      cases hpure
      rfl
    · rintro ⟨next, hrun, rfl⟩
      exact ⟨next, (), next, hrun, next, next, rfl, rfl⟩

/-- A version resource under a name. -/
def versionImage : BinaryImage :=
  { header := { format := .peLike }
    sections := [{ fileSize := 73, memorySize := 73 }]
    fileData := some [0, 0, 0, 0, 0, 0, 0, 0, 0, 0, 0, 0, 0, 0, 1, 0,
      16, 0, 0, 0, 24, 0, 0, 128,
      0, 0, 0, 0, 0, 0, 0, 0, 0, 0, 0, 0, 1, 0, 0, 0,
      64, 0, 0, 128, 48, 0, 0, 0,
      70, 0, 0, 0, 3, 0, 0, 0, 0xe4, 4, 0, 0, 0, 0, 0, 0,
      2, 0, 0x41, 0, 0xac, 0x20, 1, 2, 3] }

theorem parse_describes_version :
    evaluate (parse {} versionImage 0 73) (start versionImage) =
      .ok { entries :=
              [{ type := { integer := some 16 }
                 name := { name := [0x41, 0xe2, 0x82, 0xac] }
                 kind := .version, fileOffset := 70, size := 3
                 codePage := 1252, checksum := crc32 [1, 2, 3] }]
            totalBytes := 3, maximumDepth := 1 } := by
  have hranges : AddressTranslator.RangesInside versionImage
      (versionImage.fileData.getD []) := by
    refine ⟨fun item hmem => ?_, fun segment hmem => ?_⟩
    · obtain rfl := List.mem_singleton.mp hmem
      decide
    · exact absurd hmem List.not_mem_nil
  refine (parse_describes (by decide) hranges).mpr ⟨⟨nofun, rfl⟩, ?_⟩
  rw [if_neg (by decide)]
  refine ⟨by decide, { available := 73 }, by decide +kernel, ?_, by decide⟩
  have hname : ResourceArea.directoryAt { limits := {}, image := versionImage
                                          baseFile := 0, directorySize := 73 }
      24 = some [({ name := [0x41, 0xe2, 0x82, 0xac] },
        .inl ⟨70, 3, 1252⟩)] := by decide +kernel
  exact ⟨[({ integer := some 16 }, .inr 24)], _, by decide +kernel,
    .branch hname (.item .nil) .nil, by decide, by decide, by decide,
    by decide +kernel⟩

end PeResourceParser
end BinForge
