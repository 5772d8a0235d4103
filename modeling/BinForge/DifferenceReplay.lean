import BinForge.ImageDiffMeaning
import BinForge.OverlapReports

/-!
# A comparison as a list of edits

Every difference names an item of a table and says what stands there on either
side.  Read as edits, the differences of two images turn the tables of the one
into the tables of the other, and undone they lead back.
-/

/-- One key gets other contents; `none` is the absence. -/
structure KeyedEdit (κ δ : Type) where
  key : κ
  old : Option δ
  new : Option δ
  deriving DecidableEq, Repr

namespace KeyedEdit

variable {κ δ : Type} {left right : κ → Option δ}
  {edits : List (KeyedEdit κ δ)}

def swap (edit : KeyedEdit κ δ) : KeyedEdit κ δ :=
  { key := edit.key, old := edit.new, new := edit.old }

/-- The edits that take back what these did, the last one first. -/
def undo (edits : List (KeyedEdit κ δ)) : List (KeyedEdit κ δ) :=
  (edits.map swap).reverse

/-- The edits carried out in order. -/
def replay [DecidableEq κ] (contents : κ → Option δ)
    (edits : List (KeyedEdit κ δ)) : κ → Option δ :=
  edits.foldl (fun contents edit =>
    Function.update contents edit.key edit.new) contents

/-- Every edit is right about both sides, and what differs has an edit. -/
structure LeadsTo (left right : κ → Option δ) (edits : List (KeyedEdit κ δ)) :
    Prop where
  sound : ∀ edit ∈ edits, edit.old = left edit.key ∧ edit.new = right edit.key
  complete : ∀ key, left key ≠ right key → ∃ edit ∈ edits, edit.key = key

theorem LeadsTo.undo (hleads : LeadsTo left right edits) :
    LeadsTo right left (undo edits) := by
  constructor
  · intro edit hedit
    obtain ⟨original, horiginal, rfl⟩ :=
      List.mem_map.mp (List.mem_reverse.mp hedit)
    exact (hleads.sound original horiginal).symm
  · intro key hdiffers
    obtain ⟨edit, hedit, hkey⟩ := hleads.complete key hdiffers.symm
    exact ⟨edit.swap, List.mem_reverse.mpr (List.mem_map_of_mem hedit), hkey⟩

theorem replay_eq_of_new [DecidableEq κ]
    (hnew : ∀ edit ∈ edits, edit.new = right edit.key)
    (hcomplete : ∀ key, left key ≠ right key → ∃ edit ∈ edits, edit.key = key) :
    replay left edits = right := by
  induction edits generalizing left with
  | nil =>
      funext key
      by_contra hdiffers
      obtain ⟨edit, hedit, -⟩ := hcomplete key hdiffers
      contradiction
  | cons edit rest ih =>
      obtain ⟨hhead, hrest⟩ := List.forall_mem_cons.mp hnew
      apply ih hrest
      intro key hdiffers
      dsimp only at hdiffers
      by_cases hkey : key = edit.key
      · rw [hkey, Function.update_self] at hdiffers
        exact absurd hhead hdiffers
      · rw [Function.update_of_ne hkey] at hdiffers
        obtain ⟨other, hother, hsame⟩ := hcomplete key hdiffers
        rcases List.mem_cons.mp hother with rfl | hother
        · exact absurd hsame.symm hkey
        · exact ⟨other, hother, hsame⟩

theorem LeadsTo.replay_eq [DecidableEq κ] (hleads : LeadsTo left right edits) :
    replay left edits = right :=
  replay_eq_of_new (fun edit hedit => (hleads.sound edit hedit).2)
    hleads.complete

end KeyedEdit

namespace BinForge

namespace ImageDiffer

open OrderedMap
open KeyedIndex
open BinaryLoader
open KeyedEdit

/-! ## The tables of an image -/

inductive Table
  | sections
  | segments
  | symbols
  | imports
  | exports
  | relocations
  deriving DecidableEq, Repr

/-- What stands under the names of each table. -/
abbrev Tables := Table × Bytes → Option Bytes

variable {κ α : Type} [LinearOrder κ] {limits : Limits}
  {before after : BinaryImage} {table : Table}

/-- The description of the item that a pass finds under a name. -/
def Pass.shown (pass : Pass κ α) (map : OrderedMap κ α) (name : Bytes) :
    Option Bytes :=
  (map.entries.find? fun entry => pass.identity entry.1 = name).map
    fun entry => pass.description entry.2

/-- A relocation shows its position only. -/
def shownRelocation (relocations : List Relocation) (name : Bytes) :
    Option Bytes :=
  if (List.range relocations.length).any fun index => decimal index = name
  then some "present" else none

/-- The tables as the differ reads them: the first item of every key. -/
def tablesOf (image : BinaryImage) : Tables
  | (.sections, name) =>
      sectionPass.shown (index sectionKey image.sections) name
  | (.segments, name) =>
      segmentPass.shown (index segmentKey image.segments) name
  | (.symbols, name) => symbolPass.shown (index symbolKey image.symbols) name
  | (.imports, name) => importPass.shown (index importKey image.imports) name
  | (.exports, name) => exportPass.shown (index exportKey image.exports) name
  | (.relocations, name) => shownRelocation image.relocations name

/-- A text that stands for an absent item when it is empty. -/
def textOrNone (text : Bytes) : Option Bytes :=
  if text = [] then none else some text

/-- A difference as an edit of the tables; the header is in none of them. -/
def editOf (difference : ImageDifference) :
    Option (KeyedEdit (Table × Bytes) Bytes) :=
  let added (table : Table) : Option (KeyedEdit (Table × Bytes) Bytes) :=
    some { key := (table, difference.identity), old := none
           new := some difference.after }
  let removed (table : Table) : Option (KeyedEdit (Table × Bytes) Bytes) :=
    some { key := (table, difference.identity), old := some difference.before
           new := none }
  let changed (table : Table) : Option (KeyedEdit (Table × Bytes) Bytes) :=
    some { key := (table, difference.identity), old := some difference.before
           new := some difference.after }
  match difference.kind with
  | .headerChanged => none
  | .sectionAdded => added .sections
  | .sectionRemoved => removed .sections
  | .sectionChanged => changed .sections
  | .segmentAdded => added .segments
  | .segmentRemoved => removed .segments
  | .segmentChanged => changed .segments
  | .symbolAdded => added .symbols
  | .symbolRemoved => removed .symbols
  | .symbolChanged => changed .symbols
  | .importAdded => added .imports
  | .importRemoved => removed .imports
  | .exportAdded => added .exports
  | .exportRemoved => removed .exports
  | .relocationChanged =>
      some { key := (.relocations, difference.identity)
             old := textOrNone difference.before
             new := textOrNone difference.after }

def editsOf (differences : List ImageDifference) :
    List (KeyedEdit (Table × Bytes) Bytes) :=
  differences.filterMap editOf

/-! ## What the changes of one table tell -/

/-- The changes are edits of the table, right about both sides, and every name
where the sides differ has one. -/
structure Tells (table : Table) (left right : Bytes → Option Bytes)
    (changes : List Change) : Prop where
  sound : ∀ change ∈ changes, ∃ name,
    editOf change.difference =
      some { key := (table, name), old := left name, new := right name }
  complete : ∀ name, left name ≠ right name → ∃ change ∈ changes,
    editOf change.difference =
      some { key := (table, name), old := left name, new := right name }

/-- How the changes of a pass read as edits. -/
structure Pass.Edits (pass : Pass κ α) (table : Table) : Prop where
  injective : Function.Injective pass.identity
  removed : ∀ item, editOf (pass.removal item).difference =
    some { key := (table, pass.identity item.1)
           old := some (pass.description item.2), new := none }
  added : ∀ item, editOf (pass.addition item).difference =
    some { key := (table, pass.identity item.1), old := none
           new := some (pass.description item.2) }

section

variable {pass : Pass κ α} {left right : OrderedMap κ α}

theorem Pass.Edits.shown_identity (hedits : pass.Edits table)
    (map : OrderedMap κ α) (key : κ) :
    pass.shown map (pass.identity key) =
      (map.find? key).map pass.description := by
  have hsame : (fun entry : κ × α =>
        decide (pass.identity entry.1 = pass.identity key)) =
      fun entry => decide (entry.1 = key) := by
    funext entry
    exact decide_eq_decide.mpr hedits.injective.eq_iff
  rw [Pass.shown, hsame, OrderedMap.find?, Option.map_map]
  rfl

theorem Pass.Edits.shown_entry (hedits : pass.Edits table)
    {map : OrderedMap κ α} {item : κ × α} (hitem : item ∈ map.entries) :
    pass.shown map (pass.identity item.1) = some (pass.description item.2) := by
  rw [hedits.shown_identity, find?_eq_some.mpr hitem]
  rfl

/-- Sides that differ under a name have it as a key of either. -/
theorem Pass.exists_key {name : Bytes}
    (hdiffers : pass.shown left name ≠ pass.shown right name) :
    ∃ key, name = pass.identity key := by
  by_contra hnone
  have habsent : ∀ map : OrderedMap κ α, pass.shown map name = none := by
    intro map
    rw [Pass.shown, Option.map_eq_none_iff, List.find?_eq_none]
    intro entry _ hsame
    exact hnone ⟨entry.1, (of_decide_eq_true hsame).symm⟩
  rw [habsent, habsent] at hdiffers
  exact hdiffers rfl

theorem Pass.Edits.removed_of (hedits : pass.Edits table) {item : κ × α}
    (hitem : item ∈ left.entries) (habsent : right.find? item.1 = none) :
    editOf (pass.removal item).difference =
      some { key := (table, pass.identity item.1)
             old := pass.shown left (pass.identity item.1)
             new := pass.shown right (pass.identity item.1) } := by
  rw [hedits.removed, hedits.shown_entry hitem, hedits.shown_identity, habsent]
  rfl

theorem Pass.Edits.added_of (hedits : pass.Edits table) {item : κ × α}
    (hitem : item ∈ right.entries) (habsent : left.find? item.1 = none) :
    editOf (pass.addition item).difference =
      some { key := (table, pass.identity item.1)
             old := pass.shown left (pass.identity item.1)
             new := pass.shown right (pass.identity item.1) } := by
  rw [hedits.added, hedits.shown_entry hitem, hedits.shown_identity, habsent]
  rfl

theorem mem_compareAfter {item : κ × α} {change : Change} :
    change ∈ pass.compareAfter left item ↔
      left.find? item.1 = none ∧ change = pass.addition item := by
  unfold Pass.compareAfter OrderedMap.contains
  cases left.find? item.1 <;> simp

theorem mem_compareBefore {item : κ × α} {change : Change} :
    change ∈ pass.compareBefore right item ↔
      right.find? item.1 = none ∧ change = pass.removal item := by
  unfold Pass.compareBefore OrderedMap.contains
  cases right.find? item.1 <;> simp

/-- A table whose items are present or absent, all with one description. -/
theorem Pass.Edits.tells (hedits : pass.Edits table)
    (hconstant : ∀ item other, pass.description item = pass.description other)
    (key : α → κ) (before after : List α) :
    Tells table (pass.shown (index key before)) (pass.shown (index key after))
      (pass.changes key before after) := by
  constructor
  · intro change hchange
    rcases List.mem_append.mp hchange with hchange | hchange
    · obtain ⟨item, hitem, hchange⟩ := List.mem_flatMap.mp hchange
      obtain ⟨habsent, rfl⟩ := mem_compareBefore.mp hchange
      exact ⟨_, hedits.removed_of hitem habsent⟩
    · obtain ⟨item, hitem, hchange⟩ := List.mem_flatMap.mp hchange
      obtain ⟨habsent, rfl⟩ := mem_compareAfter.mp hchange
      exact ⟨_, hedits.added_of hitem habsent⟩
  · intro name hdiffers
    obtain ⟨found, rfl⟩ := Pass.exists_key hdiffers
    rw [hedits.shown_identity, hedits.shown_identity] at hdiffers
    cases hleft : (index key before).find? found with
    | none =>
        cases hright : (index key after).find? found with
        | none => simp [hleft, hright] at hdiffers
        | some item =>
            refine ⟨pass.addition (found, item), ?_,
              hedits.added_of (find?_eq_some.mp hright) hleft⟩
            exact List.mem_append_right _ (List.mem_flatMap.mpr
              ⟨_, find?_eq_some.mp hright, mem_compareAfter.mpr ⟨hleft, rfl⟩⟩)
    | some item =>
        cases hright : (index key after).find? found with
        | none =>
            refine ⟨pass.removal (found, item), ?_,
              hedits.removed_of (find?_eq_some.mp hleft) hright⟩
            exact List.mem_append_left _ (List.mem_flatMap.mpr
              ⟨_, find?_eq_some.mp hleft, mem_compareBefore.mpr ⟨hright, rfl⟩⟩)
        | some other =>
            rw [hleft, hright, Option.map_some, Option.map_some,
              hconstant item other] at hdiffers
            exact absurd rfl hdiffers

end

/-- How the modifications of a pass read as edits. -/
structure DescribedPass.Edits (pass : DescribedPass κ α) (table : Table) :
    Prop extends pass.toPass.Edits table where
  changed : ∀ item found, editOf (pass.modification item found).difference =
    some { key := (table, pass.identity item.1)
           old := some (pass.description item.2)
           new := some (pass.description found) }

section

variable {pass : DescribedPass κ α} {left right : OrderedMap κ α}

theorem DescribedPass.Edits.changed_of (hedits : pass.Edits table)
    {item : κ × α} {found : α} (hitem : item ∈ left.entries)
    (hfound : right.find? item.1 = some found) :
    editOf (pass.modification item found).difference =
      some { key := (table, pass.identity item.1)
             old := pass.shown left (pass.identity item.1)
             new := pass.shown right (pass.identity item.1) } := by
  rw [hedits.changed, hedits.shown_entry hitem, hedits.shown_identity, hfound]
  rfl

theorem mem_compareFound {item : κ × α} {change : Change} :
    change ∈ pass.compareFound right item ↔
      right.find? item.1 = none ∧ change = pass.removal item ∨
        ∃ found, right.find? item.1 = some found ∧
          pass.description item.2 ≠ pass.description found ∧
            change = pass.modification item found := by
  unfold DescribedPass.compareFound
  cases right.find? item.1 with
  | none => simp
  | some found =>
      dsimp only
      split_ifs with hdiffers <;> simp [hdiffers]

/-- A table whose items are described. -/
theorem DescribedPass.Edits.tells (hedits : pass.Edits table) (key : α → κ)
    (before after : List α) :
    Tells table (pass.shown (index key before)) (pass.shown (index key after))
      (pass.describedChanges key before after) := by
  constructor
  · intro change hchange
    rcases List.mem_append.mp hchange with hchange | hchange
    · obtain ⟨item, hitem, hchange⟩ := List.mem_flatMap.mp hchange
      rcases mem_compareFound.mp hchange with ⟨habsent, rfl⟩ |
          ⟨found, hfound, -, rfl⟩
      · exact ⟨_, hedits.removed_of hitem habsent⟩
      · exact ⟨_, hedits.changed_of hitem hfound⟩
    · obtain ⟨item, hitem, hchange⟩ := List.mem_flatMap.mp hchange
      obtain ⟨habsent, rfl⟩ := mem_compareAfter.mp hchange
      exact ⟨_, hedits.added_of hitem habsent⟩
  · intro name hdiffers
    obtain ⟨found, rfl⟩ := Pass.exists_key hdiffers
    rw [hedits.shown_identity, hedits.shown_identity] at hdiffers
    cases hleft : (index key before).find? found with
    | none =>
        cases hright : (index key after).find? found with
        | none => simp [hleft, hright] at hdiffers
        | some item =>
            refine ⟨pass.addition (found, item), ?_,
              hedits.added_of (find?_eq_some.mp hright) hleft⟩
            exact List.mem_append_right _ (List.mem_flatMap.mpr
              ⟨_, find?_eq_some.mp hright, mem_compareAfter.mpr ⟨hleft, rfl⟩⟩)
    | some item =>
        have hitem := find?_eq_some.mp hleft
        cases hright : (index key after).find? found with
        | none =>
            refine ⟨pass.removal (found, item), ?_,
              hedits.removed_of hitem hright⟩
            exact List.mem_append_left _ (List.mem_flatMap.mpr
              ⟨_, hitem, mem_compareFound.mpr (.inl ⟨hright, rfl⟩)⟩)
        | some other =>
            rw [hleft, hright, Option.map_some, Option.map_some] at hdiffers
            have hother : pass.description item ≠ pass.description other :=
              fun hsame => hdiffers (congrArg some hsame)
            refine ⟨pass.modification (found, item) other, ?_,
              hedits.changed_of hitem hright⟩
            exact List.mem_append_left _ (List.mem_flatMap.mpr
              ⟨_, hitem, mem_compareFound.mpr
                (.inr ⟨other, hright, hother, rfl⟩)⟩)

end

theorem sectionPass_edits : sectionPass.Edits .sections where
  injective := Function.injective_id
  removed _ := rfl
  added _ := rfl
  changed _ _ := rfl

theorem segmentPass_edits : segmentPass.Edits .segments where
  injective _ _ hsame :=
    UInt64.toNat_inj.mp (ImageAnalyzer.decimal_injective hsame)
  removed _ := rfl
  added _ := rfl
  changed _ _ := rfl

theorem symbolPass_edits : symbolPass.Edits .symbols where
  injective := Function.injective_id
  removed _ := rfl
  added _ := rfl
  changed _ _ := rfl

theorem importPass_edits : importPass.Edits .imports where
  injective := Function.injective_id
  removed _ := rfl
  added _ := rfl

theorem exportPass_edits : exportPass.Edits .exports where
  injective := Function.injective_id
  removed _ := rfl
  added _ := rfl

/-! ## Relocations -/

theorem shownRelocation_decimal (relocations : List Relocation) (position : ℕ) :
    shownRelocation relocations (decimal position) =
      textOrNone (presence relocations[position]?) := by
  have hinside : ((List.range relocations.length).any fun index =>
      decimal index = decimal position) = true ↔
        position < relocations.length := by
    simp [ImageAnalyzer.decimal_injective.eq_iff]
  unfold shownRelocation textOrNone presence
  by_cases hposition : position < relocations.length
  · rw [if_pos (hinside.mpr hposition), List.getElem?_eq_getElem hposition]
    rfl
  · rw [if_neg (mt hinside.mp hposition),
      List.getElem?_eq_none (not_lt.mp hposition)]
    rfl

theorem editOf_relocationChange (position : ℕ)
    (before after : List Relocation) :
    editOf (relocationChange position before[position]?
        after[position]?).difference =
      some { key := (.relocations, decimal position)
             old := shownRelocation before (decimal position)
             new := shownRelocation after (decimal position) } := by
  rw [shownRelocation_decimal, shownRelocation_decimal]
  rfl

theorem eq_of_mem_compareRelocation {before after : List Relocation}
    {position : ℕ} {change : Change}
    (hchange : change ∈ compareRelocation before after position) :
    change = relocationChange position before[position]? after[position]? := by
  unfold compareRelocation at hchange
  dsimp only at hchange
  split at hchange
  · split_ifs at hchange
    · exact List.mem_singleton.mp hchange
    · contradiction
  · exact List.mem_singleton.mp hchange

theorem relocationChanges_tells (before after : List Relocation) :
    Tells .relocations (shownRelocation before) (shownRelocation after)
      (relocationChanges before after) := by
  constructor
  · intro change hchange
    obtain ⟨position, -, hchange⟩ := List.mem_flatMap.mp hchange
    obtain rfl := eq_of_mem_compareRelocation hchange
    exact ⟨_, editOf_relocationChange position before after⟩
  · intro name hdiffers
    obtain ⟨position, rfl⟩ : ∃ position, name = decimal position := by
      by_contra hnone
      have habsent : ∀ relocations : List Relocation,
          shownRelocation relocations name = none := by
        intro relocations
        apply if_neg
        simp only [List.any_eq_true, decide_eq_true_eq, not_exists, not_and]
        intro position _ hsame
        exact hnone ⟨position, hsame.symm⟩
      rw [habsent, habsent] at hdiffers
      exact hdiffers rfl
    refine ⟨_, ?_, editOf_relocationChange position before after⟩
    rw [shownRelocation_decimal, shownRelocation_decimal] at hdiffers
    -- One list ends in front of the position and the other behind it.
    have hinside : position < max before.length after.length := by
      by_contra houtside
      rw [List.getElem?_eq_none (by omega),
        List.getElem?_eq_none (by omega)] at hdiffers
      exact hdiffers rfl
    refine List.mem_flatMap.mpr ⟨position, List.mem_range.mpr hinside, ?_⟩
    unfold compareRelocation
    dsimp only
    split
    next left right hleft hright =>
      rw [hleft, hright] at hdiffers
      exact absurd rfl hdiffers
    next => exact List.mem_singleton_self _

/-! ## The whole comparison -/

/-- The changes of one table. -/
def tableChanges (before after : BinaryImage) : Table → List Change
  | .sections =>
      sectionPass.describedChanges sectionKey before.sections after.sections
  | .segments =>
      segmentPass.describedChanges segmentKey before.segments after.segments
  | .symbols =>
      symbolPass.describedChanges symbolKey before.symbols after.symbols
  | .imports => importPass.changes importKey before.imports after.imports
  | .exports => exportPass.changes exportKey before.exports after.exports
  | .relocations => relocationChanges before.relocations after.relocations

theorem mem_changes {change : Change} :
    change ∈ changes before after ↔
      change ∈ headerChanges before.header after.header ∨
        ∃ table, change ∈ tableChanges before after table := by
  simp only [changes, List.mem_append, or_assoc]
  constructor
  · rintro (hchange | hchange | hchange | hchange | hchange | hchange |
      hchange)
    · exact .inl hchange
    · exact .inr ⟨.sections, hchange⟩
    · exact .inr ⟨.segments, hchange⟩
    · exact .inr ⟨.symbols, hchange⟩
    · exact .inr ⟨.imports, hchange⟩
    · exact .inr ⟨.exports, hchange⟩
    · exact .inr ⟨.relocations, hchange⟩
  · rintro (hchange | ⟨table, hchange⟩)
    · exact .inl hchange
    · cases table <;> simp only [tableChanges] at hchange <;> tauto

theorem tableChanges_tell (before after : BinaryImage) (table : Table) :
    Tells table (fun name => tablesOf before (table, name))
      (fun name => tablesOf after (table, name))
      (tableChanges before after table) := by
  cases table with
  | sections => exact sectionPass_edits.tells sectionKey _ _
  | segments => exact segmentPass_edits.tells segmentKey _ _
  | symbols => exact symbolPass_edits.tells symbolKey _ _
  | imports => exact importPass_edits.tells (fun _ _ => rfl) importKey _ _
  | exports => exact exportPass_edits.tells (fun _ _ => rfl) exportKey _ _
  | relocations => exact relocationChanges_tells _ _

theorem editOf_headerChange {left right : FileHeader} {change : Change}
    (hchange : change ∈ headerChanges left right) :
    editOf change.difference = none := by
  unfold headerChanges at hchange
  split_ifs at hchange
  · rw [List.mem_singleton.mp hchange]
    rfl
  · contradiction

/-- The edits of the two images lead from the one to the other. -/
theorem changes_leadTo (before after : BinaryImage) :
    LeadsTo (tablesOf before) (tablesOf after)
      (editsOf ((changes before after).map Change.difference)) := by
  constructor
  · intro edit hedit
    obtain ⟨difference, hdifference, hedit⟩ := List.mem_filterMap.mp hedit
    obtain ⟨change, hchange, rfl⟩ := List.mem_map.mp hdifference
    rcases mem_changes.mp hchange with hheader | ⟨table, hchange⟩
    · rw [editOf_headerChange hheader] at hedit
      contradiction
    · obtain ⟨name, hname⟩ :=
        (tableChanges_tell before after table).sound change hchange
      rw [hedit] at hname
      obtain rfl := Option.some.inj hname
      exact ⟨rfl, rfl⟩
  · rintro ⟨table, name⟩ hdiffers
    obtain ⟨change, hchange, hedit⟩ :=
      (tableChanges_tell before after table).complete name hdiffers
    have hmem := mem_changes.mpr (.inr ⟨table, hchange⟩)
    exact ⟨_, List.mem_filterMap.mpr
      ⟨_, List.mem_map_of_mem hmem, hedit⟩, rfl⟩

/-- The differences carried out turn the tables of the first image into those
of the second, and undone they lead back. -/
theorem replay_differences (hlimit : totalItems before after ≤ itemLimit limits) :
    let edits := editsOf (compare limits before after).1.differences
    replay (tablesOf before) edits = tablesOf after ∧
      replay (tablesOf after) (undo edits) = tablesOf before := by
  intro edits
  have hleads : LeadsTo (tablesOf before) (tablesOf after) edits := by
    have hdifferences := congrArg ImageDiffReport.differences
      (compare_within hlimit)
    rw [show edits = editsOf ((changes before after).map Change.difference) from
      congrArg editsOf hdifferences]
    exact changes_leadTo before after
  exact ⟨hleads.replay_eq, hleads.undo.replay_eq⟩

theorem replay_differences_moved :
    let before : BinaryImage :=
      { sections := [{ name := ".text", virtualAddress := 0x1000 },
          { name := ".data", virtualAddress := 0x2000 }] }
    let after : BinaryImage :=
      { sections := [{ name := ".text", virtualAddress := 0x3000 }]
        relocations := [{ offset := 0x3000 }] }
    let edits := editsOf (compare {} before after).1.differences
    edits.length = 3 ∧ replay (tablesOf before) edits = tablesOf after := by
  intro before after edits
  exact ⟨by decide +kernel, (replay_differences (by decide +kernel)).1⟩

end ImageDiffer
end BinForge
