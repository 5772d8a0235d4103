import BinForge.LoadedTranslation

/-!
# The same image at two bases

Where an image is loaded decides what its relocations store.  A value that
follows the image is moved by the distance of the two bases, one that counts
from its own place is not, and every byte that no moving value is stored over
is the same at both bases.
-/

namespace CellMemory

variable {β : Type} {memory other : CellMemory β} {left right cell : ℕ}

/-- A store at two bases: the same bytes, if they reach the cell. -/
def MovedAlike (left right cell : ℕ) (first second : ℕ × List β) : Prop :=
  ∃ place, first.1 = place + left ∧ second.1 = place + right ∧
    first.2.length = second.2.length ∧
    (place ≤ cell → cell < place + first.2.length → first.2 = second.2)

theorem storeAll_moved {firsts seconds : List (ℕ × List β)}
    (hmoved : List.Forall₂ (MovedAlike left right cell) firsts seconds)
    (hstart : memory (cell + left) = other (cell + right)) :
    memory.storeAll firsts (cell + left) =
      other.storeAll seconds (cell + right) := by
  induction hmoved generalizing memory other with
  | nil => exact hstart
  | @cons first second _ _ hhead _ ih =>
      obtain ⟨place, hfirst, hsecond, hlength, hsame⟩ := hhead
      rw [storeAll_cons, storeAll_cons]
      apply ih
      rw [hfirst, hsecond]
      by_cases hinside : place ≤ cell ∧ cell < place + first.2.length
      · rw [store_inside (by omega) (by omega),
          store_inside (by omega) (by omega), hsame hinside.1 hinside.2]
        congr 1
        omega
      · rw [store_outside (by omega), store_outside (by omega), hstart]

/-- The last store to a range is what is loaded from it. -/
theorem load_storeAll_last {address : ℕ} {cells : List β}
    {front back : List (ℕ × List β)}
    (hapart : ∀ later ∈ back, StoresApart (address, cells) later) :
    (memory.storeAll (front ++ (address, cells) :: back)).load address
      cells.length = cells := by
  rw [storeAll_append, storeAll_cons]
  refine (load_congr fun target hlow hhigh => ?_).trans
    (load_store_self (memory.storeAll front) address cells)
  refine storeAll_outside fun later hlater => ?_
  rcases hapart later hlater with hempty | hempty | hapart
  · rw [show cells = [] from hempty, List.length_nil] at hhigh
    omega
  · rw [hempty, List.length_nil]
    omega
  · dsimp only at hapart
    omega

end CellMemory

namespace RelatedLists

variable {α β γ : Type} {first : α → β → Prop} {second : α → γ → Prop}
  {both : β → γ → Prop} {items : List α} {lefts : List β} {rights : List γ}

/-- Two lists that are related to a third one. -/
theorem join (hlefts : List.Forall₂ first items lefts)
    (hrights : List.Forall₂ second items rights)
    (hboth : ∀ item ∈ items, ∀ left right, first item left →
      second item right → both left right) :
    List.Forall₂ both lefts rights := by
  induction hlefts generalizing rights with
  | nil =>
      cases hrights
      exact .nil
  | cons hleft _ ih =>
      cases hrights with
      | cons hright hrest =>
          obtain ⟨hhead, htail⟩ := List.forall_mem_cons.mp hboth
          exact .cons (hhead _ _ hleft hright) (ih hrest htail)

/-- The list related to one that is cut at an item. -/
theorem split {front back : List α} {item : α}
    (hall : List.Forall₂ first (front ++ item :: back) lefts) :
    ∃ fronts left backs, lefts = fronts ++ left :: backs ∧ first item left ∧
      List.Forall₂ first back backs := by
  induction front generalizing lefts with
  | nil =>
      cases hall with
      | cons hhead hrest => exact ⟨[], _, _, rfl, hhead, hrest⟩
  | cons head front ih =>
      cases hall with
      | cons hhead hrest =>
          obtain ⟨fronts, left, backs, rfl, hleft, hbacks⟩ := ih hrest
          exact ⟨_ :: fronts, left, backs, rfl, hleft, hbacks⟩

end RelatedLists

namespace StatefulExcept

theorem except_map_eq_ok {ε α β : Type} {f : α → β} {computed : Except ε α}
    {value : β} :
    computed.map f = .ok value ↔ ∃ found, computed = .ok found ∧ f found = value := by
  cases computed <;> simp [Except.map]

end StatefulExcept

namespace BinForge

open StatefulExcept
open AddressSpace

namespace RelocationProcessor

variable {image : BinaryImage} {bias newBias target place : UInt64}
  {resolver : Option SymbolResolver} {relocation : Relocation}

/-! ## What moves with the image -/

/-- The symbol belongs to the image, and its address moves along. -/
def symbolMoves (image : BinaryImage) (resolver : Option SymbolResolver)
    (relocation : Relocation) : Bool :=
  relocation.symbolIndex ≠ 0 &&
    match image.symbol? relocation.symbolIndex, resolver with
    | some symbol, some _ => symbol.binding ≠ .importSymbol
    | _, _ => true

/-- How often the distance between two bases is in what is computed. -/
def shift (image : BinaryImage) (resolver : Option SymbolResolver)
    (relocation : Relocation) : UInt64 :=
  let symbol := if symbolMoves image resolver relocation then 1 else 0
  match relocation.kind with
  | .relative32 | .relative64 => 1
  | .pcRelative32 => symbol - 1
  | _ => symbol

/-- The whole value, of which two kinds store a half only. -/
def wholeValue (relocation : Relocation) (bias target symbol : UInt64) :
    UInt64 :=
  let addend := relocation.addend.toUInt64
  match relocation.kind with
  | .relative32 | .relative64 => bias + addend
  | .pcRelative32 => symbol + addend - target
  | _ => symbol + addend

def storedPart (relocation : Relocation) (value : UInt64) : UInt64 :=
  match relocation.kind with
  | .high16 => value >>> 16
  | .low16 => value &&& 0xffff
  | _ => value

theorem computeValue_whole {symbol value : UInt64} {width : UInt8}
    (hvalue : computeValue relocation bias target symbol =
      .ok (some (value, width))) :
    value = storedPart relocation (wholeValue relocation bias target symbol) := by
  unfold computeValue at hvalue
  unfold storedPart wholeValue
  cases hkind : relocation.kind <;> simp_all

theorem computeValue_none_iff {symbol : UInt64} :
    computeValue relocation bias target symbol = .ok none ↔
      relocation.kind = .none := by
  unfold computeValue
  cases hkind : relocation.kind <;> simp_all

theorem symbolValue_moved {symbol found : UInt64}
    (hfirst : symbolValue relocation image bias target resolver = .ok symbol)
    (hsecond : symbolValue relocation image newBias place resolver = .ok found) :
    found = symbol +
      if symbolMoves image resolver relocation then newBias - bias else 0 := by
  unfold symbolValue at hfirst hsecond
  unfold symbolMoves
  by_cases hnone : relocation.symbolIndex = 0
  · rw [if_pos hnone] at hfirst hsecond
    obtain rfl := Except.ok.inj hfirst
    obtain rfl := Except.ok.inj hsecond
    simp [hnone]
  · rw [if_neg hnone] at hfirst hsecond
    obtain ⟨entry, hentry, hfirst⟩ := demand_except_bind_eq_ok.mp hfirst
    obtain ⟨again, hagain, hsecond⟩ := demand_except_bind_eq_ok.mp hsecond
    obtain rfl := Option.some.inj (hentry.symm.trans hagain)
    rw [hentry, decide_eq_true hnone, Bool.true_and]
    -- The image's own symbols are moved by the bias, imports are looked up.
    have hown : ∀ {why other : Failure},
        (demand (checkedAdd entry.value bias) why : Except Failure UInt64) =
          .ok symbol →
        (demand (checkedAdd entry.value newBias) other : Except Failure UInt64) =
          .ok found →
        found = symbol + (newBias - bias) := by
      intro why other hsymbol hfound
      obtain ⟨-, rfl⟩ := checkedAdd_eq_some.mp (demand_except_eq_ok.mp hsymbol)
      obtain ⟨-, rfl⟩ := checkedAdd_eq_some.mp (demand_except_eq_ok.mp hfound)
      grind
    cases resolver with
    | none =>
        rw [if_pos rfl]
        cases hbinding : entry.binding <;>
          (rw [hbinding] at hfirst hsecond; exact hown hfirst hsecond)
    | some resolver =>
        by_cases himported : entry.binding = .importSymbol
        · rw [himported] at hfirst hsecond
          have hsame := (demand_except_eq_ok.mp hfirst).symm.trans
            (demand_except_eq_ok.mp hsecond)
          simp [himported, Option.some.inj hsame]
        · rw [if_pos (decide_eq_true himported)]
          cases hbinding : entry.binding with
          | importSymbol => exact absurd hbinding himported
          | _ =>
              rw [hbinding] at hfirst hsecond
              exact hown hfirst hsecond

/-- The whole value is moved as often as the relocation says. -/
theorem wholeValue_moved {symbol found : UInt64}
    (htarget : checkedAdd relocation.offset bias = some target)
    (hplace : checkedAdd relocation.offset newBias = some place)
    (hfirst : symbolValue relocation image bias target resolver = .ok symbol)
    (hsecond : symbolValue relocation image newBias place resolver = .ok found) :
    wholeValue relocation newBias place found =
      wholeValue relocation bias target symbol +
        shift image resolver relocation * (newBias - bias) := by
  obtain ⟨-, rfl⟩ := checkedAdd_eq_some.mp htarget
  obtain ⟨-, rfl⟩ := checkedAdd_eq_some.mp hplace
  rw [symbolValue_moved hfirst hsecond]
  unfold wholeValue shift
  cases relocation.kind <;>
    cases symbolMoves image resolver relocation <;>
      simp only [if_true, if_false, Bool.false_eq_true] <;> grind

/-- What the same relocation stores at two bases. -/
theorem Stores.moved {input output : Bytes}
    (hfirst : Stores relocation image bias resolver target input)
    (hsecond : Stores relocation image newBias resolver place output) :
    (relocation.kind = .none ∧ input = [] ∧ output = []) ∨
      relocation.kind ≠ .none ∧ ∃ value,
        input = integerBytes image.header.byteOrder (writtenWidth relocation)
          (storedPart relocation value) ∧
        output = integerBytes image.header.byteOrder (writtenWidth relocation)
          (storedPart relocation
            (value + shift image resolver relocation * (newBias - bias))) := by
  obtain ⟨symbol, htarget, hsymbol, hinput⟩ := hfirst
  obtain ⟨found, hplace, hfound, houtput⟩ := hsecond
  rcases hinput with ⟨hnone, rfl⟩ | ⟨value, width, hvalue, -, -, rfl⟩
  · have hkind := computeValue_none_iff.mp hnone
    rcases houtput with ⟨-, rfl⟩ | ⟨other, size, hother, -⟩
    · exact Or.inl ⟨hkind, rfl, rfl⟩
    · rw [computeValue_none_iff.mpr hkind] at hother
      cases hother
  · have hkind : relocation.kind ≠ .none := by
      intro hkind
      rw [computeValue_none_iff.mpr hkind] at hvalue
      cases hvalue
    rcases houtput with ⟨hnone, -⟩ | ⟨other, size, hother, -, -, rfl⟩
    · exact absurd (computeValue_none_iff.mp hnone) hkind
    · refine Or.inr ⟨hkind, wholeValue relocation bias target symbol, ?_, ?_⟩
      · rw [computeValue_width hvalue, computeValue_whole hvalue]
      · rw [computeValue_width hother, computeValue_whole hother,
          wholeValue_moved htarget hplace hsymbol hfound]

/-- The addresses of the image a relocation is stored over. -/
def Covers (relocation : Relocation) (cell : ℕ) : Prop :=
  relocation.kind ≠ .none ∧ relocation.offset.toNat ≤ cell ∧
    cell < relocation.offset.toNat + (writtenWidth relocation).toNat

/-- A relocation is stored alike at both bases, unless it moves and covers the
cell. -/
theorem Stores.movedAlike {input output : Bytes}
    (hfirst : Stores relocation image bias resolver target input)
    (hsecond : Stores relocation image newBias resolver place output) {cell : ℕ}
    (hstill : shift image resolver relocation ≠ 0 → ¬Covers relocation cell) :
    CellMemory.MovedAlike bias.toNat newBias.toNat cell (target.toNat, input)
      (place.toNat, output) := by
  refine ⟨relocation.offset.toNat, hfirst.target_toNat, hsecond.target_toNat,
    ?_⟩
  rcases hfirst.moved hsecond with ⟨-, rfl, rfl⟩ | ⟨hkind, value, rfl, rfl⟩
  · exact ⟨rfl, fun _ _ => rfl⟩
  · refine ⟨by rw [integerBytes_length, integerBytes_length], ?_⟩
    intro hlow hhigh
    rw [integerBytes_length] at hhigh
    by_cases hshift : shift image resolver relocation = 0
    · rw [hshift, UInt64.zero_mul, UInt64.add_zero]
    · exact absurd ⟨hkind, hlow, hhigh⟩ (hstill hshift)

end RelocationProcessor

/-! ## Loads at two bases -/

namespace BinaryLoader

open AddressTranslator
open RelocationProcessor

variable {limits other : Limits} {image : BinaryImage} {options : LoadOptions}
  {resolver : Option SymbolResolver} {data : Bytes} {bias newBias base : UInt64}
  {memory second next last : AddressSpace} {result found : LoadResult}
  {imported : Import}

/-- The same options, for another base. -/
def movedTo (options : LoadOptions) (base : UInt64) : LoadOptions :=
  { options with preferredBase := base }

/-- No relocation that moves is stored over the cell. -/
def Still (image : BinaryImage) (resolver : Option SymbolResolver)
    (cell : ℕ) : Prop :=
  ∀ relocation ∈ image.relocations, shift image resolver relocation ≠ 0 →
    ¬Covers relocation cell

/-- The import's slot does not meet what the relocation stores. -/
def SlotApart (image : BinaryImage) (relocation : Relocation)
    (imported : Import) : Prop :=
  relocation.offset.toNat + (writtenWidth relocation).toNat ≤
      imported.slotAddress.toNat ∨
    imported.slotAddress.toNat + image.header.wordSize.toByte.toNat ≤
      relocation.offset.toNat

theorem relocationStores_movedAlike {firsts seconds : List Store} {cell : ℕ}
    (hstill : options.applyRelocations = true → Still image resolver cell)
    (hfirsts : relocationStores image options resolver = .ok firsts)
    (hseconds : relocationStores image (movedTo options base) resolver =
      .ok seconds) :
    List.Forall₂ (CellMemory.MovedAlike (loadBias image options).toNat
        (loadBias image (movedTo options base)).toNat cell)
      (firsts.map Store.cells) (seconds.map Store.cells) := by
  unfold relocationStores at hfirsts hseconds
  rw [List.forall₂_map_left_iff, List.forall₂_map_right_iff]
  by_cases henabled : options.applyRelocations = true
  · rw [if_pos henabled, mapM_eq_ok] at hfirsts
    rw [if_pos (show (movedTo options base).applyRelocations = true from
      henabled), mapM_eq_ok] at hseconds
    exact RelatedLists.join hfirsts hseconds
      fun relocation hmem first second hfirst hsecond =>
        (storeOf_eq_ok.mp hfirst).movedAlike (storeOf_eq_ok.mp hsecond)
          (hstill henabled relocation hmem)
  · rw [if_neg henabled] at hfirsts
    rw [if_neg (show ¬(movedTo options base).applyRelocations = true from
      henabled)] at hseconds
    obtain rfl := Except.ok.inj hfirsts
    obtain rfl := Except.ok.inj hseconds
    exact .nil

theorem slotOf_eq_ok {slot : Option Store} :
    slotOf image bias resolver imported = .ok slot ↔
      (resolveImport resolver imported = .ok none ∧ slot = none) ∨
        ∃ address place, resolveImport resolver imported = .ok (some address) ∧
          checkedAdd imported.slotAddress bias = some place ∧
          slot = some ⟨place, integerBytes image.header.byteOrder
            image.header.wordSize.toByte address⟩ := by
  unfold slotOf
  rw [except_bind_eq_ok]
  constructor
  · rintro ⟨_ | address, hresolved, hslot⟩
    · exact Or.inl ⟨hresolved, (Except.ok.inj hslot).symm⟩
    · obtain ⟨place, hplace, hslot⟩ := demand_except_bind_eq_ok.mp hslot
      exact Or.inr ⟨address, place, hresolved, hplace,
        (Except.ok.inj hslot).symm⟩
  · rintro (⟨hresolved, rfl⟩ | ⟨address, place, hresolved, hplace, rfl⟩)
    · exact ⟨none, hresolved, rfl⟩
    · exact ⟨some address, hresolved,
        demand_except_bind_eq_ok.mpr ⟨place, hplace, rfl⟩⟩

/-- An import is bound to the same address at both bases. -/
theorem slotOf_movedAlike {slot other : Option Store} {cell : ℕ}
    (hfirst : slotOf image bias resolver imported = .ok slot)
    (hsecond : slotOf image newBias resolver imported = .ok other) :
    List.Forall₂ (fun first second => CellMemory.MovedAlike bias.toNat
        newBias.toNat cell first.cells second.cells)
      slot.toList other.toList := by
  rcases slotOf_eq_ok.mp hfirst with ⟨hnone, rfl⟩ |
    ⟨address, place, hsome, hplace, rfl⟩
  · rcases slotOf_eq_ok.mp hsecond with ⟨-, rfl⟩ | ⟨_, _, hsome, -⟩
    · exact .nil
    · cases hnone.symm.trans hsome
  · rcases slotOf_eq_ok.mp hsecond with ⟨hnone, -⟩ |
      ⟨found, target, hfound, htarget, rfl⟩
    · cases hnone.symm.trans hsome
    · obtain rfl : address = found :=
        Option.some.inj (Except.ok.inj (hsome.symm.trans hfound))
      exact .cons ⟨imported.slotAddress.toNat, checkedAdd_toNat hplace,
        checkedAdd_toNat htarget, rfl, fun _ _ => rfl⟩ .nil

theorem reduceOption_forall₂ {both : Store → Store → Prop}
    {firsts seconds : List (Option Store)}
    (hall : List.Forall₂ (fun first second =>
      List.Forall₂ both first.toList second.toList) firsts seconds) :
    List.Forall₂ both firsts.reduceOption seconds.reduceOption := by
  induction hall with
  | nil => exact .nil
  | @cons first second _ _ hhead _ ih =>
      cases first with
      | none =>
          cases second with
          | none => exact ih
          | some second => cases hhead
      | some first =>
          cases second with
          | none => cases hhead
          | some second =>
              cases hhead with
              | cons hboth _ => exact .cons hboth ih

theorem importStores_movedAlike {firsts seconds : List Store} {cell : ℕ}
    (hfirsts : importStores image options resolver = .ok firsts)
    (hseconds : importStores image (movedTo options base) resolver =
      .ok seconds) :
    List.Forall₂ (CellMemory.MovedAlike (loadBias image options).toNat
        (loadBias image (movedTo options base)).toNat cell)
      (firsts.map Store.cells) (seconds.map Store.cells) := by
  unfold importStores at hfirsts hseconds
  rw [List.forall₂_map_left_iff, List.forall₂_map_right_iff]
  by_cases henabled : options.resolveImports = true
  · rw [if_pos henabled] at hfirsts
    rw [if_pos (show (movedTo options base).resolveImports = true from
      henabled)] at hseconds
    obtain ⟨slots, hslots, rfl⟩ := except_map_eq_ok.mp hfirsts
    obtain ⟨others, hothers, rfl⟩ := except_map_eq_ok.mp hseconds
    exact reduceOption_forall₂ (RelatedLists.join (mapM_eq_ok.mp hslots)
      (mapM_eq_ok.mp hothers)
      fun imported _ slot other => slotOf_movedAlike)
  · rw [if_neg henabled] at hfirsts
    rw [if_neg (show ¬(movedTo options base).resolveImports = true from
      henabled)] at hseconds
    obtain rfl := Except.ok.inj hfirsts
    obtain rfl := Except.ok.inj hseconds
    exact .nil

/-- Two loads of one image, at different bases, differ in the values that move
and in nothing else. -/
structure MovedOnly (image : BinaryImage) (options : LoadOptions)
    (resolver : Option SymbolResolver) (bias newBias : UInt64)
    (memory other : AddressSpace) : Prop where
  still : ∀ segment ∈ image.segments, ∀ cell, SegmentOccupies segment cell →
    (options.applyRelocations = true → Still image resolver cell) →
    memory.contents (cell + bias.toNat) = other.contents (cell + newBias.toNat)
  moved : options.applyRelocations = true → ∀ front relocation back,
    image.relocations = front ++ relocation :: back →
    relocation.kind ≠ .none →
    (∀ later ∈ back, Independent bias relocation later) →
    (options.resolveImports = true →
      ∀ imported ∈ image.imports, SlotApart image relocation imported) →
    ∃ value,
      memory.contents.load (relocation.offset.toNat + bias.toNat)
          (writtenWidth relocation).toNat =
        integerBytes image.header.byteOrder (writtenWidth relocation)
          (storedPart relocation value) ∧
      other.contents.load (relocation.offset.toNat + newBias.toNat)
          (writtenWidth relocation).toNat =
        integerBytes image.header.byteOrder (writtenWidth relocation)
          (storedPart relocation
            (value + shift image resolver relocation * (newBias - bias)))

/-- A slot stores as many bytes as the image's words have, where the import
says. -/
theorem importStores_place {bound : List Store}
    (himports : importStores image options resolver = .ok bound)
    {store : Store} (hstore : store ∈ bound) :
    options.resolveImports = true ∧ ∃ imported ∈ image.imports,
      store.target.toNat =
          imported.slotAddress.toNat + (loadBias image options).toNat ∧
        store.bytes.length = image.header.wordSize.toByte.toNat := by
  unfold importStores at himports
  by_cases henabled : options.resolveImports = true
  · rw [if_pos henabled] at himports
    obtain ⟨slots, hslots, rfl⟩ := except_map_eq_ok.mp himports
    obtain ⟨imported, himported, hslot⟩ := RelatedLists.exists_left
      (mapM_eq_ok.mp hslots) (List.reduceOption_mem_iff.mp hstore)
    rcases slotOf_eq_ok.mp hslot with ⟨-, hnone⟩ |
      ⟨address, place, -, hplace, hsome⟩
    · contradiction
    · obtain rfl := Option.some.inj hsome
      exact ⟨henabled, imported, himported, checkedAdd_toNat hplace,
        integerBytes_length _ _ _⟩
  · rw [if_neg henabled] at himports
    obtain rfl := Except.ok.inj himports
    contradiction

/-- What a relocation stores is there after the load, unless a later relocation
or an import is written over it. -/
theorem load_relocated (hmemory : memory.WellFormed)
    (hrun : load limits image options resolver memory = .ok result next)
    (henabled : options.applyRelocations = true)
    {front back : List Relocation} {relocation : Relocation}
    (hsplit : image.relocations = front ++ relocation :: back)
    (hkind : relocation.kind ≠ .none)
    (hback : ∀ later ∈ back, Independent bias relocation later)
    (hslots : options.resolveImports = true →
      ∀ imported ∈ image.imports, SlotApart image relocation imported) :
    ∃ target input, Stores relocation image (loadBias image options) resolver
        target input ∧
      next.contents.load
        (relocation.offset.toNat + (loadBias image options).toNat)
          (writtenWidth relocation).toNat = input := by
  obtain ⟨data, _, _, _, hloads, -⟩ := loaded_of_load hmemory hrun
  obtain ⟨middle, relocated, bound, -, -, hrelocations, himports, hcontents⟩ :=
    contents_of_load hmemory hloads.file hrun
  rw [relocationStores, if_pos henabled, mapM_eq_ok, hsplit] at hrelocations
  obtain ⟨fronts, store, backs, rfl, hstore, hbacks⟩ :=
    RelatedLists.split hrelocations
  have hstores := storeOf_eq_ok.mp hstore
  refine ⟨store.target, store.bytes, hstores, ?_⟩
  have hlength : store.bytes.length = (writtenWidth relocation).toNat := by
    rcases hstores.moved hstores with ⟨hnone, -⟩ | ⟨-, value, hbytes, -⟩
    · exact absurd hnone hkind
    · rw [hbytes, integerBytes_length]
  rw [hcontents, ← hstores.target_toNat, ← hlength, List.append_assoc,
    List.map_append, List.cons_append, List.map_cons]
  refine CellMemory.load_storeAll_last fun later hlater => ?_
  obtain ⟨other, hother, rfl⟩ := List.mem_map.mp hlater
  by_cases hempty : other.bytes = []
  · exact Or.inr (Or.inl hempty)
  refine Or.inr (Or.inr ?_)
  show store.target.toNat + store.bytes.length ≤ other.target.toNat ∨
    other.target.toNat + other.bytes.length ≤ store.target.toNat
  rw [hlength, hstores.target_toNat]
  rcases List.mem_append.mp hother with hother | hother
  · obtain ⟨later, hlater, hlaterStore⟩ :=
      RelatedLists.exists_left hbacks hother
    have hlaterStores := storeOf_eq_ok.mp hlaterStore
    obtain ⟨hlaterKind, hlaterLength⟩ := hlaterStores.length hempty
    have hapart := hback later hlater hkind hlaterKind
    unfold Apart at hapart
    rw [hlaterLength, hlaterStores.target_toNat]
    omega
  · obtain ⟨hresolve, imported, himported, htarget, hwidth⟩ :=
      importStores_place himports hother
    have hapart := hslots hresolve imported himported
    unfold SlotApart at hapart
    rw [htarget, hwidth]
    omega

/-- Loaded at two bases, an image is the same but for the values that move, and
these move by the distance of the bases as often as they say. -/
theorem load_moves_only (hmemory : memory.Reachable) (hsecond : second.Reachable)
    (hrun : load limits image options resolver memory = .ok result next)
    (hrerun : load other image (movedTo options base) resolver second =
      .ok found last) :
    MovedOnly image options resolver (loadBias image options)
      (loadBias image (movedTo options base)) next last := by
  obtain ⟨data, _, _, _, hloads, -⟩ := loaded_of_load hmemory.wellFormed hrun
  constructor
  · intro segment hsegment cell hoccupied hstill
    obtain ⟨middle, relocated, bound, hvalid, hsegments, hrelocations, himports,
      hcontents⟩ := contents_of_load hmemory.wellFormed hloads.file hrun
    obtain ⟨between, relocated', bound', hvalid', hsegments', hrelocations',
      himports', hcontents'⟩ :=
        contents_of_load hsecond.wellFormed hloads.file hrerun
    have hnonempty : segment.memorySize ≠ 0 := by
      intro hzero
      unfold SegmentOccupies at hoccupied
      rw [hzero, show (0 : UInt64).toNat = 0 from rfl] at hoccupied
      omega
    have hloaded := segmentLoaded_of_loadSegments hmemory.wellFormed hloads.file
      hvalid.segments hsegments hsegment hnonempty
    have hloaded' := segmentLoaded_of_loadSegments hsecond.wellFormed
      hloads.file hvalid'.segments hsegments' hsegment hnonempty
    rw [hcontents, hcontents', List.map_append, List.map_append]
    refine CellMemory.storeAll_moved (List.rel_append
      (relocationStores_movedAlike hstill hrelocations hrelocations')
      (importStores_movedAlike himports himports')) ?_
    rw [contents_of_segmentByte hloaded hoccupied,
      contents_of_segmentByte hloaded' hoccupied]
  · intro henabled front relocation back hsplit hkind hback hslots
    obtain ⟨target, input, hstores, hload⟩ := load_relocated hmemory.wellFormed
      hrun henabled hsplit hkind hback hslots
    obtain ⟨place, output, hstores', hload'⟩ := load_relocated
      hsecond.wellFormed hrerun henabled hsplit hkind hback hslots
    rcases hstores.moved hstores' with ⟨hnone, -⟩ | ⟨-, value, rfl, rfl⟩
    · exact absurd hnone hkind
    · exact ⟨value, hload, hload'⟩

/-- A pointer into the image, a call of a function of the image and a plain
word, loaded at two bases. -/
def linkedImage : BinaryImage :=
  { fileData := some (List.replicate 16 7)
    segments := [{ index := 0, fileSize := 16, virtualAddress := 0x1000,
                   memorySize := 32 }]
    symbols := [{ index := 0 }, { index := 1, value := 0x1010 }]
    relocations :=
      [{ index := 0, kind := .absolute64, symbolIndex := 1, offset := 0x1000 },
        { index := 1, kind := .pcRelative32, symbolIndex := 1, offset := 0x1008,
          addend := 4 }] }

theorem load_moves_only_linked :
    ∃ result next found last,
      load { pageSize := 16 } linkedImage {} none (new {}) =
          .ok result next ∧
        load { pageSize := 16 } linkedImage (movedTo {} 0x5000) none (new {}) =
          .ok found last ∧
        MovedOnly linkedImage {} none (loadBias linkedImage {})
          (loadBias linkedImage (movedTo {} 0x5000)) next last := by
  obtain ⟨result, next, hrun⟩ := succeeded_iff.mp (by decide +kernel :
    succeeded (load { pageSize := 16 } linkedImage {} none (new {})) = true)
  obtain ⟨found, last, hrerun⟩ := succeeded_iff.mp (by decide +kernel :
    succeeded (load { pageSize := 16 } linkedImage (movedTo {} 0x5000) none
      (new {})) = true)
  exact ⟨result, next, found, last, hrun, hrerun, load_moves_only
    ⟨{}, [], rfl⟩ ⟨{}, [], rfl⟩ hrun hrerun⟩

end BinaryLoader
end BinForge
