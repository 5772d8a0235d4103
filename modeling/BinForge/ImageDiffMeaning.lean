import BinForge.ImageDiff

/-!
# What an image comparison says

Two images are reported equivalent when their headers, the first items of
every key and their relocations agree.  Items that repeat an earlier key are
not looked at, so they decide whether equivalent images have the same items.
Exchanging the images exchanges additions and removals and nothing else.
-/

namespace BinForge
namespace ImageDiffer

open OrderedMap
open KeyedIndex

variable {κ α β : Type} [LinearOrder κ] {limits : Limits}
  {before after : BinaryImage}

/-! ## What is compared -/

structure SameHeader (before after : FileHeader) : Prop where
  format : before.format = after.format
  wordSize : before.wordSize = after.wordSize
  byteOrder : before.byteOrder = after.byteOrder
  kind : before.kind = after.kind
  architecture : before.architecture = after.architecture
  entryPoint : before.entryPoint = after.entryPoint
  imageBase : before.imageBase = after.imageBase
  flags : before.flags = after.flags

/-- The same items up to order, as far as a view of them tells. -/
def SameItems (view : α → β) (first second : List α) : Prop :=
  (first.map view).Perm (second.map view)

instance [DecidableEq β] (view : α → β) (first second : List α) :
    Decidable (SameItems view first second) :=
  inferInstanceAs (Decidable (List.Perm _ _))

def sectionView (item : Section) : Bytes × Bytes :=
  (sectionKey item, sectionDescription item)

def segmentView (segment : Segment) : UInt64 × Bytes :=
  (segmentKey segment, segmentDescription segment)

def symbolView (symbol : Symbol) : Bytes × Bytes :=
  (symbolKey symbol, symbolDescription symbol)

def relocationView (relocation : Relocation) :
    RelocationKind × UInt64 × UInt32 × Int64 :=
  (relocation.kind, relocation.offset, relocation.symbolIndex,
    relocation.addend)

/-- The images have the same header and the same items, with nothing left
out. -/
structure SameContents (before after : BinaryImage) : Prop where
  header : SameHeader before.header after.header
  sections : SameItems sectionView before.sections after.sections
  segments : SameItems segmentView before.segments after.segments
  symbols : SameItems symbolView before.symbols after.symbols
  imports : SameItems importKey before.imports after.imports
  exports : SameItems exportKey before.exports after.exports

/-- The images agree in everything the comparison looks at: the header, the
first item of every key and the relocations. -/
structure SameFirsts (before after : BinaryImage) : Prop where
  header : SameHeader before.header after.header
  sections : SameItems sectionView (firsts sectionKey [] before.sections)
    (firsts sectionKey [] after.sections)
  segments : SameItems segmentView (firsts segmentKey [] before.segments)
    (firsts segmentKey [] after.segments)
  symbols : SameItems symbolView (firsts symbolKey [] before.symbols)
    (firsts symbolKey [] after.symbols)
  imports : SameItems importKey (firsts importKey [] before.imports)
    (firsts importKey [] after.imports)
  exports : SameItems exportKey (firsts exportKey [] before.exports)
    (firsts exportKey [] after.exports)
  relocations : before.relocations.map relocationView =
    after.relocations.map relocationView

/-- The items that repeat an earlier key are the same in both images. -/
structure SameRepeats (before after : BinaryImage) : Prop where
  sections : SameItems sectionView (repeats sectionKey [] before.sections)
    (repeats sectionKey [] after.sections)
  segments : SameItems segmentView (repeats segmentKey [] before.segments)
    (repeats segmentKey [] after.segments)
  symbols : SameItems symbolView (repeats symbolKey [] before.symbols)
    (repeats symbolKey [] after.symbols)
  imports : SameItems importKey (repeats importKey [] before.imports)
    (repeats importKey [] after.imports)
  exports : SameItems exportKey (repeats exportKey [] before.exports)
    (repeats exportKey [] after.exports)

/-! ## Passes that report nothing -/

theorem headerChanges_eq_nil {before after : FileHeader} :
    headerChanges before after = [] ↔ SameHeader before after := by
  unfold headerChanges
  split
  next hdiffers =>
    refine iff_of_false (List.cons_ne_nil _ _) fun hsame => ?_
    obtain ⟨hformat, hword, horder, hkind, harch, hentry, hbase, hflags⟩ := hsame
    simp [hformat, hword, horder, hkind, harch, hentry, hbase, hflags]
      at hdiffers
  next hdiffers =>
    refine iff_of_true rfl ?_
    simp only [not_or, not_not] at hdiffers
    obtain ⟨hformat, hword, horder, hkind, harch, hentry, hbase, hflags⟩ :=
      hdiffers
    exact ⟨hformat, hword, horder, hkind, harch, hentry, hbase, hflags⟩

theorem compareAfter_eq_nil {pass : Pass κ α} {before : OrderedMap κ α}
    {item : κ × α} :
    pass.compareAfter before item = [] ↔ before.contains item.1 = true := by
  unfold Pass.compareAfter
  split_ifs with hfound <;> simp [hfound]

theorem compareFound_eq_nil {pass : DescribedPass κ α} {after : OrderedMap κ α}
    {item : κ × α} :
    pass.compareFound after item = [] ↔
      ∃ value, after.find? item.1 = some value ∧
        pass.description item.2 = pass.description value := by
  unfold DescribedPass.compareFound
  cases hfind : after.find? item.1 with
  | none => simp
  | some value =>
      dsimp only
      split_ifs with hdiffers
      · simp [hdiffers]
      · simp [not_not.mp hdiffers]

theorem describedChanges_eq_nil {pass : DescribedPass κ α} {key : α → κ}
    {before after : List α} :
    pass.describedChanges key before after = [] ↔
      SameItems (fun value => (key value, pass.description value))
        (firsts key [] before) (firsts key [] after) := by
  unfold DescribedPass.describedChanges SameItems
  rw [← agree_index_iff pass.description, Agree, List.append_eq_nil_iff,
    List.flatMap_eq_nil_iff, List.flatMap_eq_nil_iff]
  simp only [compareFound_eq_nil, compareAfter_eq_nil]

theorem compareBefore_eq_nil {pass : Pass κ α} {after : OrderedMap κ α}
    {item : κ × α} :
    pass.compareBefore after item = [] ↔ after.contains item.1 = true := by
  unfold Pass.compareBefore
  split_ifs with hfound <;> simp [hfound]

/-- Items that are only present or absent agree when their keys do. -/
theorem agree_keys_iff {key : α → κ} {before after : List α} :
    Agree (fun _ : α => ()) (index key before) (index key after) ↔
      SameItems key (firsts key [] before) (firsts key [] after) := by
  have hkeys : ∀ values : List α, (values.map fun value => (key value, ())) =
      (values.map key).map fun candidate => (candidate, ()) := by
    intro values
    rw [List.map_map]
    rfl
  rw [agree_index_iff, hkeys, hkeys]
  exact List.map_perm_map_iff fun first second hsame =>
    (Prod.mk.inj hsame).1

theorem changes_eq_nil {pass : Pass κ α} {key : α → κ}
    {before after : List α} :
    pass.changes key before after = [] ↔
      SameItems key (firsts key [] before) (firsts key [] after) := by
  unfold Pass.changes
  rw [← agree_keys_iff, Agree, List.append_eq_nil_iff,
    List.flatMap_eq_nil_iff, List.flatMap_eq_nil_iff]
  simp only [compareAfter_eq_nil, compareBefore_eq_nil, OrderedMap.contains,
    Option.isSome_iff_exists, and_true]

theorem compareRelocation_eq_nil {before after : List Relocation}
    {position : ℕ} :
    compareRelocation before after position = [] ↔
      ∃ left right, before[position]? = some left ∧
        after[position]? = some right ∧
          relocationView left = relocationView right := by
  unfold compareRelocation relocationView
  cases hbefore : before[position]? <;> cases hafter : after[position]? <;>
    dsimp only
  case some.some left right =>
    split
    next hdiffers =>
      refine iff_of_false (List.cons_ne_nil _ _) ?_
      rintro ⟨_, _, ⟨⟩, ⟨⟩, hsame⟩
      simp only [Prod.mk.injEq] at hsame
      simp [hsame] at hdiffers
    next hdiffers =>
      refine iff_of_true rfl ⟨left, right, rfl, rfl, ?_⟩
      simpa only [not_or, not_not, Prod.mk.injEq] using hdiffers
  all_goals simp

theorem relocationChanges_eq_nil {before after : List Relocation} :
    relocationChanges before after = [] ↔
      before.map relocationView = after.map relocationView := by
  unfold relocationChanges
  rw [List.flatMap_eq_nil_iff]
  simp only [List.mem_range, compareRelocation_eq_nil]
  constructor
  · intro hall
    apply List.ext_getElem?
    intro position
    rw [List.getElem?_map, List.getElem?_map]
    by_cases hposition : position < max before.length after.length
    · obtain ⟨left, right, hleft, hright, hsame⟩ := hall position hposition
      rw [hleft, hright, Option.map_some, Option.map_some, hsame]
    · rw [List.getElem?_eq_none (by omega), List.getElem?_eq_none (by omega)]
  · intro hsame position hposition
    have hlength := congrArg List.length hsame
    rw [List.length_map, List.length_map] at hlength
    have hview := congrArg (fun views => views[position]?) hsame
    simp only [List.getElem?_map] at hview
    obtain ⟨left, hleft⟩ : ∃ left, before[position]? = some left :=
      ⟨_, List.getElem?_eq_getElem (by omega)⟩
    obtain ⟨right, hright⟩ : ∃ right, after[position]? = some right :=
      ⟨_, List.getElem?_eq_getElem (by omega)⟩
    rw [hleft, hright, Option.map_some, Option.map_some,
      Option.some.injEq] at hview
    exact ⟨left, right, hleft, hright, hview⟩

theorem all_changes_eq_nil :
    changes before after = [] ↔ SameFirsts before after := by
  unfold changes
  simp only [List.append_eq_nil_iff, headerChanges_eq_nil,
    describedChanges_eq_nil, changes_eq_nil, relocationChanges_eq_nil]
  constructor
  · rintro ⟨⟨⟨⟨⟨⟨hheader, hsections⟩, hsegments⟩, hsymbols⟩, himports⟩,
      hexports⟩, hrelocations⟩
    exact ⟨hheader, hsections, hsegments, hsymbols, himports, hexports,
      hrelocations⟩
  · rintro ⟨hheader, hsections, hsegments, hsymbols, himports, hexports,
      hrelocations⟩
    exact ⟨⟨⟨⟨⟨⟨hheader, hsections⟩, hsegments⟩, hsymbols⟩, himports⟩,
      hexports⟩, hrelocations⟩

/-! ## The report -/

def Change.isRemoval (change : Change) : Bool :=
  !change.addition && change.removal

def Change.isModification (change : Change) : Bool :=
  !change.addition && !change.removal

/-- The report counts the calls of each kind, modulo `2 ^ 32`. -/
theorem foldl_addDifference (changes : List Change)
    (report : ImageDiffReport) :
    changes.foldl (fun report change => addDifference report change.difference
        change.addition change.removal) report =
      { report with
        additions := report.additions +
          UInt32.ofNat (changes.countP Change.addition)
        removals := report.removals +
          UInt32.ofNat (changes.countP Change.isRemoval)
        modifications := report.modifications +
          UInt32.ofNat (changes.countP Change.isModification)
        differences := report.differences ++
          changes.map Change.difference } := by
  induction changes generalizing report with
  | nil => simp
  | cons change rest ih =>
      have hcount : ∀ (start : UInt32) (counted : Bool) (count : ℕ),
          (if counted then start + 1 else start) + UInt32.ofNat count =
            start + UInt32.ofNat (count + if counted then 1 else 0) := by
        intro start counted count
        cases counted
        · simp
        · simp only [if_true, UInt32.ofNat_add]
          grind
      rw [List.foldl_cons, ih, addDifference]
      simp only [List.countP_cons, List.map_cons, List.append_assoc,
        List.singleton_append, hcount]
      rfl

theorem compare_within (hlimit : totalItems before after ≤ itemLimit limits) :
    (compare limits before after).1 =
      { equivalent := (changes before after).isEmpty
        additions := UInt32.ofNat ((changes before after).countP Change.addition)
        removals := UInt32.ofNat ((changes before after).countP Change.isRemoval)
        modifications :=
          UInt32.ofNat ((changes before after).countP Change.isModification)
        differences := (changes before after).map Change.difference } := by
  unfold compare
  rw [if_neg (not_lt.mpr hlimit), foldl_addDifference]
  simp

theorem equivalent_iff (hlimit : totalItems before after ≤ itemLimit limits) :
    (compare limits before after).1.equivalent = true ↔
      SameFirsts before after := by
  rw [compare_within hlimit, ← all_changes_eq_nil, List.isEmpty_iff]

/-! ## Items that repeat a key -/

/-- Lists whose firsts agree have the same items when their repeats agree. -/
theorem sameItems_iff_repeats {view : α → β} {key : α → κ}
    {first second : List α}
    (hfirsts : SameItems view (firsts key [] first) (firsts key [] second)) :
    SameItems view first second ↔
      SameItems view (repeats key [] first) (repeats key [] second) := by
  have hsplit : ∀ values : List α,
      ((firsts key [] values).map view ++
        (repeats key [] values).map view).Perm (values.map view) := by
    intro values
    rw [← List.map_append]
    exact (firsts_append_repeats [] values).map view
  unfold SameItems at *
  calc (first.map view).Perm (second.map view)
      ↔ ((firsts key [] first).map view ++
          (repeats key [] first).map view).Perm
            ((firsts key [] second).map view ++
              (repeats key [] second).map view) :=
        ⟨fun hperm => (hsplit first).trans (hperm.trans (hsplit second).symm),
          fun hperm => (hsplit first).symm.trans (hperm.trans (hsplit second))⟩
    _ ↔ ((firsts key [] first).map view ++
          (repeats key [] first).map view).Perm
            ((firsts key [] first).map view ++
              (repeats key [] second).map view) :=
        ⟨fun hperm => hperm.trans (hfirsts.symm.append_right _),
          fun hperm => hperm.trans (hfirsts.append_right _)⟩
    _ ↔ ((repeats key [] first).map view).Perm
          ((repeats key [] second).map view) := List.perm_append_left_iff _

theorem SameFirsts.contents_iff (hsame : SameFirsts before after) :
    SameContents before after ↔ SameRepeats before after := by
  obtain ⟨hheader, hsections, hsegments, hsymbols, himports, hexports, -⟩ :=
    hsame
  constructor
  · rintro ⟨-, hallSections, hallSegments, hallSymbols, hallImports,
      hallExports⟩
    exact ⟨(sameItems_iff_repeats hsections).mp hallSections,
      (sameItems_iff_repeats hsegments).mp hallSegments,
      (sameItems_iff_repeats hsymbols).mp hallSymbols,
      (sameItems_iff_repeats himports).mp hallImports,
      (sameItems_iff_repeats hexports).mp hallExports⟩
  · rintro ⟨hmoreSections, hmoreSegments, hmoreSymbols, hmoreImports,
      hmoreExports⟩
    exact ⟨hheader, (sameItems_iff_repeats hsections).mpr hmoreSections,
      (sameItems_iff_repeats hsegments).mpr hmoreSegments,
      (sameItems_iff_repeats hsymbols).mpr hmoreSymbols,
      (sameItems_iff_repeats himports).mpr hmoreImports,
      (sameItems_iff_repeats hexports).mpr hmoreExports⟩

/-- An equivalent report means the same contents exactly when the images
already differ in what is looked at, or the items that repeat a key agree. -/
theorem equivalent_complete_iff
    (hlimit : totalItems before after ≤ itemLimit limits) :
    ((compare limits before after).1.equivalent = true →
        SameContents before after) ↔
      (SameFirsts before after → SameRepeats before after) := by
  rw [equivalent_iff hlimit]
  exact forall_congr' SameFirsts.contents_iff

/-- Sections with these addresses, all of one name. -/
def sameNameImage (addresses : List UInt64) : BinaryImage :=
  { sections := addresses.map fun address =>
      { name := ".text", virtualAddress := address } }

theorem equivalent_complete_iff_repeats :
    SameContents (sameNameImage [0x1000, 0x2000, 0x3000])
      (sameNameImage [0x1000, 0x3000, 0x2000]) :=
  (@equivalent_complete_iff {} _ _ (by decide +kernel)).mpr
    (fun _ => ⟨by decide +kernel, by decide +kernel, by decide +kernel,
      by decide +kernel, by decide +kernel⟩)
    (by decide +kernel)

/-- The second section of a name is not looked at. -/
theorem equivalent_ignores_repeats :
    ¬∀ limits before after, totalItems before after ≤ itemLimit limits →
      (compare limits before after).1.equivalent = true →
        SameContents before after := by
  intro hall
  have hcontents := hall {} (sameNameImage [0x1000])
    (sameNameImage [0x1000, 0x2000]) (by decide +kernel) (by decide +kernel)
  have hlength := hcontents.sections.length_eq
  contradiction

/-! ## Exchanging the images -/

/-- How many calls of each kind are in the list. -/
structure Counts (calls : List Change)
    (additions removals modifications : ℕ) : Prop where
  additions : calls.countP Change.addition = additions
  removals : calls.countP Change.isRemoval = removals
  modifications : calls.countP Change.isModification = modifications

variable {calls more : List Change} {a r m a' r' m' : ℕ}

theorem counts_nil : Counts [] 0 0 0 := ⟨rfl, rfl, rfl⟩

theorem Counts.append (hleft : Counts calls a r m)
    (hright : Counts more a' r' m') :
    Counts (calls ++ more) (a + a') (r + r') (m + m') := by
  constructor <;> rw [List.countP_append]
  · rw [hleft.additions, hright.additions]
  · rw [hleft.removals, hright.removals]
  · rw [hleft.modifications, hright.modifications]

theorem Counts.flatMap {γ : Type} {items : List γ} {body : γ → List Change}
    {adds removes changes : γ → Bool}
    (hbody : ∀ item ∈ items, Counts (body item)
      (if adds item then 1 else 0) (if removes item then 1 else 0)
      (if changes item then 1 else 0)) :
    Counts (items.flatMap body) (items.countP adds) (items.countP removes)
      (items.countP changes) := by
  induction items with
  | nil => exact counts_nil
  | cons item rest ih =>
      obtain ⟨hhead, hrest⟩ := List.forall_mem_cons.mp hbody
      rw [List.flatMap_cons, List.countP_cons, List.countP_cons,
        List.countP_cons, Nat.add_comm, Nat.add_comm (rest.countP removes),
        Nat.add_comm (rest.countP changes)]
      exact hhead.append (ih hrest)

/-- Every call is of one of the three kinds. -/
theorem Counts.length (hcounts : Counts calls a r m) :
    calls.length = a + r + m := by
  obtain ⟨rfl, rfl, rfl⟩ := hcounts
  induction calls with
  | nil => rfl
  | cons change rest ih =>
      obtain ⟨difference, addition, removal⟩ := change
      cases addition <;> cases removal <;>
        simp [Change.isRemoval, Change.isModification, ih] <;> omega

/-- The second list adds what the first removes and changes as much. -/
def Mirrored (forward backward : List Change) : Prop :=
  ∃ additions removals modifications,
    Counts forward additions removals modifications ∧
      Counts backward removals additions modifications

theorem Mirrored.append {forward backward moreForward moreBackward : List Change}
    (hleft : Mirrored forward backward)
    (hright : Mirrored moreForward moreBackward) :
    Mirrored (forward ++ moreForward) (backward ++ moreBackward) := by
  obtain ⟨_, _, _, hforward, hbackward⟩ := hleft
  obtain ⟨_, _, _, hmoreForward, hmoreBackward⟩ := hright
  exact ⟨_, _, _, hforward.append hmoreForward, hbackward.append hmoreBackward⟩

theorem SameHeader.symm {before after : FileHeader}
    (hsame : SameHeader before after) : SameHeader after before :=
  ⟨hsame.format.symm, hsame.wordSize.symm, hsame.byteOrder.symm,
    hsame.kind.symm, hsame.architecture.symm, hsame.entryPoint.symm,
    hsame.imageBase.symm, hsame.flags.symm⟩

theorem counts_header {before after : FileHeader}
    (hdiffers : ¬SameHeader before after) :
    Counts (headerChanges before after) 0 0 1 := by
  rw [← headerChanges_eq_nil] at hdiffers
  unfold headerChanges at *
  split at hdiffers
  next hfields =>
    rw [if_pos hfields]
    exact ⟨rfl, rfl, rfl⟩
  next => contradiction

theorem mirrored_header (before after : FileHeader) :
    Mirrored (headerChanges before after) (headerChanges after before) := by
  by_cases hsame : SameHeader before after
  · rw [headerChanges_eq_nil.mpr hsame, headerChanges_eq_nil.mpr hsame.symm]
    exact ⟨0, 0, 0, counts_nil, counts_nil⟩
  · exact ⟨0, 0, 1, counts_header hsame,
      counts_header fun hback => hsame hback.symm⟩

/-- How many keys of the second map are not in the first. -/
def newKeys (before after : OrderedMap κ α) : ℕ :=
  after.entries.countP fun item => !before.contains item.1

theorem counts_after (pass : Pass κ α) (before after : OrderedMap κ α) :
    Counts (after.entries.flatMap (pass.compareAfter before))
      (newKeys before after) 0 0 := by
  have hcounts := @Counts.flatMap _ after.entries
    (pass.compareAfter before)
    (fun item => !before.contains item.1) (fun _ => false)
    (fun _ => false) fun item _ => by
      unfold Pass.compareAfter
      cases before.contains item.1 <;> exact ⟨rfl, rfl, rfl⟩
  rwa [List.countP_false] at hcounts

theorem counts_before (pass : Pass κ α) (before after : OrderedMap κ α) :
    Counts (before.entries.flatMap (pass.compareBefore after)) 0
      (newKeys after before) 0 := by
  have hcounts := @Counts.flatMap _ before.entries
    (pass.compareBefore after) (fun _ => false)
    (fun item => !after.contains item.1)
    (fun _ => false) fun item _ => by
      unfold Pass.compareBefore
      cases after.contains item.1 <;> exact ⟨rfl, rfl, rfl⟩
  rwa [List.countP_false] at hcounts

theorem counts_found (pass : DescribedPass κ α)
    (before after : OrderedMap κ α) :
    Counts (before.entries.flatMap (pass.compareFound after)) 0
      (newKeys after before)
      (before.entries.countP (changedIn pass.description after)) := by
  have hcounts := @Counts.flatMap _ before.entries
    (pass.compareFound after) (fun _ => false)
    (fun item => !after.contains item.1)
    (changedIn pass.description after) fun item _ => by
      unfold DescribedPass.compareFound changedIn OrderedMap.contains
      cases after.find? item.1 with
      | none => exact ⟨rfl, rfl, rfl⟩
      | some value =>
          dsimp only
          by_cases hdiffers : pass.description item.2 ≠ pass.description value
          · simp only [if_pos hdiffers, decide_eq_true hdiffers]
            exact ⟨rfl, rfl, rfl⟩
          · simp only [if_neg hdiffers, decide_eq_false hdiffers]
            exact ⟨rfl, rfl, rfl⟩
  rwa [List.countP_false] at hcounts

theorem mirrored_described (pass : DescribedPass κ α) (key : α → κ)
    (before after : List α) :
    Mirrored (pass.describedChanges key before after)
      (pass.describedChanges key after before) := by
  have hcounts : ∀ before after : List α,
      Counts (pass.describedChanges key before after)
        (newKeys (index key before) (index key after))
        (newKeys (index key after) (index key before))
        ((index key before).entries.countP
          (changedIn pass.description (index key after))) := by
    intro before after
    have hboth := (counts_found pass (index key before) (index key after)).append
      (counts_after pass.toPass (index key before) (index key after))
    rwa [Nat.zero_add, Nat.add_zero, Nat.add_zero] at hboth
  refine ⟨_, _, _, hcounts before after, ?_⟩
  rw [countP_changed_comm]
  exact hcounts after before

theorem mirrored_presence (pass : Pass κ α) (key : α → κ)
    (before after : List α) :
    Mirrored (pass.changes key before after)
      (pass.changes key after before) := by
  have hcounts : ∀ before after : List α,
      Counts (pass.changes key before after)
        (newKeys (index key before) (index key after))
        (newKeys (index key after) (index key before)) 0 := by
    intro before after
    have hboth := (counts_before pass (index key before) (index key after)).append
      (counts_after pass (index key before) (index key after))
    rwa [Nat.zero_add, Nat.add_zero] at hboth
  exact ⟨_, _, _, hcounts before after, hcounts after before⟩

/-- Both lists have a relocation at the position, and they differ. -/
def relocationDiffers (before after : List Relocation) (position : ℕ) : Bool :=
  match before[position]?, after[position]? with
  | some left, some right =>
      decide (relocationView left ≠ relocationView right)
  | _, _ => false

theorem relocationDiffers_comm (before after : List Relocation) (position : ℕ) :
    relocationDiffers before after position =
      relocationDiffers after before position := by
  unfold relocationDiffers
  cases before[position]? <;> cases after[position]? <;> try rfl
  exact decide_eq_decide.mpr ne_comm

theorem counts_relocations (before after : List Relocation) :
    Counts (relocationChanges before after)
      ((List.range (max before.length after.length)).countP
        fun position => before[position]?.isNone)
      ((List.range (max before.length after.length)).countP
        fun position => after[position]?.isNone)
      ((List.range (max before.length after.length)).countP
        (relocationDiffers before after)) := by
  refine Counts.flatMap fun position hposition => ?_
  rw [List.mem_range] at hposition
  unfold compareRelocation relocationChange relocationDiffers
  cases hbefore : before[position]? <;> cases hafter : after[position]? <;>
    dsimp only
  case none.none =>
    rw [List.getElem?_eq_none_iff] at hbefore hafter
    omega
  case some.some left right =>
    have hview : relocationView left ≠ relocationView right ↔
        left.kind ≠ right.kind ∨ left.offset ≠ right.offset ∨
          left.symbolIndex ≠ right.symbolIndex ∨
            left.addend ≠ right.addend := by
      simp only [relocationView, ne_eq, Prod.mk.injEq, not_and_or]
    split
    next hdiffers =>
      simp only [decide_eq_true (hview.mpr hdiffers)]
      exact ⟨rfl, rfl, rfl⟩
    next hsame =>
      simp only [decide_eq_false fun hne => hsame (hview.mp hne)]
      exact ⟨rfl, rfl, rfl⟩
  all_goals exact ⟨rfl, rfl, rfl⟩

theorem mirrored_relocations (before after : List Relocation) :
    Mirrored (relocationChanges before after)
      (relocationChanges after before) := by
  refine ⟨_, _, _, counts_relocations before after, ?_⟩
  rw [max_comm, funext (relocationDiffers_comm before after)]
  exact counts_relocations after before

theorem mirrored_changes (before after : BinaryImage) :
    Mirrored (changes before after) (changes after before) := by
  unfold changes
  refine Mirrored.append (Mirrored.append (Mirrored.append (Mirrored.append
    (Mirrored.append (Mirrored.append ?_ ?_) ?_) ?_) ?_) ?_) ?_
  · exact mirrored_header _ _
  · exact mirrored_described _ _ _ _
  · exact mirrored_described _ _ _ _
  · exact mirrored_described _ _ _ _
  · exact mirrored_presence _ _ _ _
  · exact mirrored_presence _ _ _ _
  · exact mirrored_relocations _ _

theorem SameFirsts.refl (image : BinaryImage) : SameFirsts image image :=
  ⟨⟨rfl, rfl, rfl, rfl, rfl, rfl, rfl, rfl⟩, List.Perm.refl _, List.Perm.refl _,
    List.Perm.refl _, List.Perm.refl _, List.Perm.refl _, rfl⟩

theorem totalItems_comm (before after : BinaryImage) :
    totalItems before after = totalItems after before := by
  unfold totalItems
  omega

/-- The second report is the first with additions and removals exchanged. -/
structure Exchanged (forward backward : ImageDiffReport) : Prop where
  additions : forward.additions = backward.removals
  removals : forward.removals = backward.additions
  modifications : forward.modifications = backward.modifications
  equivalent : forward.equivalent = backward.equivalent

/-- Exchanging the images exchanges the additions and the removals, and an
image is equivalent to itself. -/
theorem compare_symm (limits : Limits) (before after : BinaryImage) :
    (totalItems before after ≤ itemLimit limits →
      Exchanged (compare limits before after).1
        (compare limits after before).1) ∧
      (totalItems before before ≤ itemLimit limits →
        (compare limits before before).1.equivalent = true ∧
          (compare limits before before).1.differences = []) := by
  constructor
  · intro hlimit
    obtain ⟨a, r, m, hforward, hbackward⟩ := mirrored_changes before after
    have hlength : (changes before after).length =
        (changes after before).length := by
      rw [hforward.length, hbackward.length, Nat.add_comm a r]
    rw [compare_within hlimit,
      compare_within (totalItems_comm before after ▸ hlimit)]
    refine ⟨?_, ?_, ?_, ?_⟩
    · dsimp only
      rw [hforward.additions, hbackward.removals]
    · dsimp only
      rw [hforward.removals, hbackward.additions]
    · dsimp only
      rw [hforward.modifications, hbackward.modifications]
    · rw [Bool.eq_iff_iff, List.isEmpty_iff, List.isEmpty_iff,
        ← List.length_eq_zero_iff, ← List.length_eq_zero_iff, hlength]
  · intro hlimit
    have hnone := all_changes_eq_nil.mpr (SameFirsts.refl before)
    rw [compare_within hlimit, hnone]
    exact ⟨rfl, rfl⟩

/-- Repeated names and relocations on one side only. -/
theorem compare_symm_repeats :
    let before : BinaryImage :=
      { sameNameImage [0x1000, 0x2000] with relocations := [{}, {}] }
    let after := sameNameImage [0x2000]
    Exchanged (compare {} before after).1 (compare {} after before).1 ∧
      (compare {} before before).1.equivalent = true ∧
        (compare {} before before).1.differences = [] :=
  ⟨(compare_symm {} _ _).1 (by decide +kernel),
    (compare_symm {} _ (sameNameImage [])).2 (by decide +kernel)⟩

end ImageDiffer
end BinForge
