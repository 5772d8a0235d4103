import BinForge.Image
import BinForge.ListSplice

/-!
# String and signature scanners

`StringScanner` looks for text in the bytes of the file, in up to four
encodings one after the other; `SignatureScanner` looks for byte patterns under
a mask.  Both attribute what they find to the first section whose file range
holds its first byte.
-/

namespace BinForge

open StatefulExcept
open ListSplice

inductive StringEncoding where
  | ascii
  | utf8
  | utf16Little
  | utf16Big
  deriving DecidableEq, Repr

structure ExtractedString where
  fileOffset : UInt64 := 0
  virtualAddress : UInt64 := 0
  encoding : StringEncoding := .ascii
  value : Bytes := []
  byteLength : UInt32 := 0
  sectionIndex : UInt32 := 0xffffffff
  deriving DecidableEq, Repr

structure StringScanOptions where
  minimumCharacters : UInt32 := 4
  maximumCharacters : UInt32 := 4096
  maximumResults : UInt32 := 100000
  ascii : Bool := true
  utf8 : Bool := true
  utf16Little : Bool := true
  utf16Big : Bool := false
  requireTerminator : Bool := false
  deriving DecidableEq, Repr

structure BytePattern where
  name : Bytes := []
  bytes : Bytes := []
  mask : Bytes := []
  alignment : UInt64 := 1
  deriving DecidableEq, Repr

structure PatternMatch where
  pattern : Bytes := []
  fileOffset : UInt64 := 0
  virtualAddress : UInt64 := 0
  sectionIndex : UInt32 := 0xffffffff
  deriving DecidableEq, Repr

/-! ## Locations -/

/-- What a section says about a place of the file: nothing, or its index and
the address of the place, if that fits. -/
def lookLocation (fileOffset : UInt64) (item : Section) :
    Option (UInt32 × Option UInt64) :=
  let displacement := fileOffset - item.fileOffset
  if fileOffset < item.fileOffset then none
  else if displacement ≥ item.fileSize then none
  else some (item.index, checkedAdd item.virtualAddress displacement)

def populateLocation (image : BinaryImage) (result : ExtractedString) :
    ExtractedString :=
  match image.sections.findSome? (lookLocation result.fileOffset) with
  | none => result
  | some (index, address) =>
      { result with sectionIndex := index
                    virtualAddress := address.getD result.virtualAddress }

@[simp] theorem populateLocation_fileOffset (image : BinaryImage)
    (result : ExtractedString) :
    (populateLocation image result).fileOffset = result.fileOffset := by
  unfold populateLocation
  split <;> rfl

@[simp] theorem populateLocation_encoding (image : BinaryImage)
    (result : ExtractedString) :
    (populateLocation image result).encoding = result.encoding := by
  unfold populateLocation
  split <;> rfl

@[simp] theorem populateLocation_value (image : BinaryImage)
    (result : ExtractedString) :
    (populateLocation image result).value = result.value := by
  unfold populateLocation
  split <;> rfl

@[simp] theorem populateLocation_byteLength (image : BinaryImage)
    (result : ExtractedString) :
    (populateLocation image result).byteLength = result.byteLength := by
  unfold populateLocation
  split <;> rfl

def populateMatchLocation (image : BinaryImage) (result : PatternMatch) :
    PatternMatch :=
  match image.sections.findSome? (lookLocation result.fileOffset) with
  | none => result
  | some (index, address) =>
      { result with sectionIndex := index
                    virtualAddress := address.getD result.virtualAddress }

/-! ## Characters -/

def asciiCharacter (value : UInt8) : Bool :=
  value = 0x09 ∨ value = 0x0a ∨ value = 0x0d ∨ (value ≥ 0x20 ∧ value ≤ 0x7e)

/-- The length a leading byte announces, and its bits of the code point. -/
def utf8Lead (first : UInt8) : Option (ℕ × UInt32) :=
  if first &&& 0xe0 = 0xc0 then
    let codePoint := (first &&& 0x1f).toUInt32
    if codePoint < 2 then none else some (2, codePoint)
  else if first &&& 0xf0 = 0xe0 then some (3, (first &&& 0x0f).toUInt32)
  else if first &&& 0xf8 = 0xf0 then some (4, (first &&& 0x07).toUInt32)
  else none

/-- The length and the code point of the sequence `data` begins with. -/
def utf8Sequence (data : Bytes) : Option (ℕ × UInt32) :=
  let first := data.getD 0 0
  if first < 0x80 then
    if asciiCharacter first then some (1, first.toUInt32) else none
  else
    match utf8Lead first with
    | none => none
    | some (length, lead) =>
        let rest := slice data 1 (length - 1)
        let codePoint : UInt32 := rest.foldl (fun point byte =>
          (point <<< 6) ||| (byte &&& 0x3f).toUInt32) lead
        if length > data.length then none
        else if rest.all (fun byte => byte &&& 0xc0 == 0x80) = false then none
        else if (length = 3 ∧ codePoint < 0x800) ∨
            (length = 4 ∧ codePoint < 0x10000) ∨ codePoint > 0x10ffff ∨
            (codePoint ≥ 0xd800 ∧ codePoint ≤ 0xdfff) then none
        else some (length, codePoint)

def appendUtf8 (output : Bytes) (codePoint : UInt32) : Bytes :=
  let tail (shift : UInt32) : UInt8 :=
    ((0x80 : UInt32) ||| ((codePoint >>> shift) &&& 0x3f)).toUInt8
  if codePoint < 0x80 then output ++ [codePoint.toUInt8]
  else if codePoint < 0x800 then
    output ++ [((0xc0 : UInt32) ||| (codePoint >>> 6)).toUInt8, tail 0]
  else if codePoint < 0x10000 then
    output ++ [((0xe0 : UInt32) ||| (codePoint >>> 12)).toUInt8, tail 6, tail 0]
  else
    output ++ [((0xf0 : UInt32) ||| (codePoint >>> 18)).toUInt8, tail 12,
      tail 6, tail 0]

/-! ## Strings -/

namespace StringScanner

/-- The end of the text from `cursor` on, at most `room` characters away. -/
def asciiEnd (bytes : Bytes) : ℕ → ℕ → ℕ
  | 0, cursor => cursor
  | room + 1, cursor =>
      if cursor < bytes.length ∧ asciiCharacter (bytes.getD cursor 0) then
        asciiEnd bytes room (cursor + 1)
      else cursor

/-- A text read so far: where it ends, its characters and its UTF-8 form. -/
structure TextRun where
  cursor : ℕ
  characters : ℕ := 0
  value : Bytes := []
  deriving DecidableEq, Repr

/-- The text from a place on, at most `room` characters more. -/
def utf8Run (bytes : Bytes) : ℕ → TextRun → TextRun
  | 0, run => run
  | room + 1, run =>
      if run.cursor < bytes.length then
        match utf8Sequence (bytes.drop run.cursor) with
        | none => run
        | some (length, codePoint) =>
            utf8Run bytes room
              { cursor := run.cursor + length, characters := run.characters + 1
                value := appendUtf8 run.value codePoint }
      else run

def utf16Unit (little : Bool) (bytes : Bytes) (cursor : ℕ) : UInt16 :=
  let first := (bytes.getD cursor 0).toUInt16
  let second := (bytes.getD (cursor + 1) 0).toUInt16
  if little then first ||| (second <<< 8) else (first <<< 8) ||| second

/-- The code units that end a text. -/
def endsUtf16 (unit : UInt16) : Bool :=
  unit = 0 ∨ unit < 0x20 ∨ (unit ≥ 0xd800 ∧ unit ≤ 0xdfff)

def utf16Run (little : Bool) (bytes : Bytes) : ℕ → TextRun → TextRun
  | 0, run => run
  | room + 1, run =>
      let unit := utf16Unit little bytes run.cursor
      if run.cursor + 1 < bytes.length ∧ endsUtf16 unit = false then
        utf16Run little bytes room
          { cursor := run.cursor + 2, characters := run.characters + 1
            value := appendUtf8 run.value unit.toUInt32 }
      else run

section Loops

variable (image : BinaryImage) (options : StringScanOptions) (bytes : Bytes)

/-- The loops go on while there are bytes and room for results. -/
def goesOn (place : ℕ) (result : List ExtractedString) : Bool :=
  place < bytes.length ∧ result.length < options.maximumResults.toNat

def longEnough (characters : ℕ) (terminated : Bool) : Bool :=
  characters ≥ options.minimumCharacters.toNat ∧
    (options.requireTerminator = false ∨ terminated = true)

def append (result : List ExtractedString) (value : ExtractedString) :
    List ExtractedString :=
  result ++ [populateLocation image value]

/-- Every pass moves on, so a pass for each byte is enough. -/
def asciiLoop : ℕ → ℕ → List ExtractedString → List ExtractedString
  | 0, _, result => result
  | passes + 1, start, result =>
      if goesOn options bytes start result = false then result
      else if asciiCharacter (bytes.getD start 0) = false then
        asciiLoop passes (start + 1) result
      else
        let stop := asciiEnd bytes options.maximumCharacters.toNat start
        let terminated : Bool := stop < bytes.length ∧ bytes.getD stop 0 = 0
        let next :=
          if stop = start then start + 1
          else stop + if terminated then 1 else 0
        if longEnough options (stop - start) terminated then
          asciiLoop passes next (append image result
            { fileOffset := UInt64.ofNat start, encoding := .ascii
              value := slice bytes start (stop - start)
              byteLength := UInt32.ofNat (stop - start) })
        else asciiLoop passes next result

def utf8Loop : ℕ → ℕ → List ExtractedString → List ExtractedString
  | 0, _, result => result
  | passes + 1, start, result =>
      if goesOn options bytes start result = false then result
      else if bytes.getD start 0 < 0x80 then
        utf8Loop passes (start + 1) result
      else
        let run := utf8Run bytes options.maximumCharacters.toNat
          { cursor := start }
        let terminated : Bool :=
          run.cursor < bytes.length ∧ bytes.getD run.cursor 0 = 0
        if longEnough options run.characters terminated then
          utf8Loop passes (start + 1) (append image result
            { fileOffset := UInt64.ofNat start, encoding := .utf8
              value := run.value
              byteLength := UInt32.ofNat (run.cursor - start) })
        else utf8Loop passes (start + 1) result

def utf16Loop (little : Bool) :
    ℕ → ℕ → List ExtractedString → List ExtractedString
  | 0, _, result => result
  | passes + 1, start, result =>
      if goesOn options bytes (start + 1) result = false then result
      else
        let run := utf16Run little bytes options.maximumCharacters.toNat
          { cursor := start }
        let terminated : Bool := run.cursor + 1 < bytes.length ∧
          bytes.getD run.cursor 0 = 0 ∧ bytes.getD (run.cursor + 1) 0 = 0
        if longEnough options run.characters terminated then
          -- The loop's own increment follows the assignment.
          utf16Loop little passes
            (run.cursor + (if terminated then 1 else 0) + 1)
            (append image result
              { fileOffset := UInt64.ofNat start
                encoding := if little then .utf16Little else .utf16Big
                value := run.value
                byteLength := UInt32.ofNat (run.cursor - start) })
        else utf16Loop little passes (start + 1) result

end Loops

def badOptions (limits : Limits) (options : StringScanOptions) : Bool :=
  options.minimumCharacters = 0 ∨
    options.minimumCharacters > options.maximumCharacters ∨
    options.maximumCharacters.toUInt64 > limits.maxStringBytes ∨
    options.maximumResults > limits.maxSymbols

/-- The four scans of one file. -/
def scanBytes (image : BinaryImage) (options : StringScanOptions)
    (bytes : Bytes) : List ExtractedString :=
  let room (result : List ExtractedString) : Bool :=
    result.length < options.maximumResults.toNat
  let result :=
    if options.ascii then
      asciiLoop image options bytes bytes.length 0 []
    else []
  let result :=
    if options.utf8 ∧ room result then
      utf8Loop image options bytes bytes.length 0 result
    else result
  let result :=
    if options.utf16Little then
      utf16Loop image options bytes true bytes.length 0 result
    else result
  if options.utf16Big ∧ room result then
    utf16Loop image options bytes false bytes.length 0 result
  else result

def scan (limits : Limits) (image : BinaryImage) (options : StringScanOptions) :
    Except Failure (List ExtractedString) := do
  let bytes ← demand image.fileData (failure .invalidHeader 0
    "string scanning requires backing file data")
  rejectIf (badOptions limits options = true)
    (failure .resourceLimit 0 "string scan options are invalid")
  return scanBytes image options bytes

end StringScanner

/-! ## Signatures -/

structure SignatureScanner where
  limits : Limits := {}
  patterns : List BytePattern := []
  deriving DecidableEq, Repr

namespace SignatureScanner

def badPattern (limits : Limits) (pattern : BytePattern) : Bool :=
  pattern.name = [] ∨ pattern.name.length > limits.maxStringBytes.toNat ∨
    pattern.bytes = [] ∨
    pattern.bytes.length > limits.maxSectionBytes.toNat ∨
    (pattern.mask ≠ [] ∧ pattern.mask.length ≠ pattern.bytes.length) ∨
    pattern.alignment = 0 ∨
    pattern.alignment &&& (pattern.alignment - 1) ≠ 0

/-- A pattern without a mask compares whole bytes. -/
def masked (pattern : BytePattern) : BytePattern :=
  if pattern.mask = [] then
    { pattern with mask := List.replicate pattern.bytes.length 0xff }
  else pattern

def add (scanner : SignatureScanner) (pattern : BytePattern) :
    Except Failure SignatureScanner := do
  rejectIf (badPattern scanner.limits pattern = true)
    (failure .invalidHeader 0 "byte pattern is invalid")
  rejectIf (scanner.patterns.length ≥ scanner.limits.maxSections.toNat)
    (failure .resourceLimit 0 "signature pattern limit exceeded")
  return { scanner with patterns := scanner.patterns ++ [masked pattern] }

def clear (scanner : SignatureScanner) : SignatureScanner :=
  { scanner with patterns := [] }

theorem add_eq_ok {scanner next : SignatureScanner} {pattern : BytePattern} :
    scanner.add pattern = .ok next ↔
      badPattern scanner.limits pattern = false ∧
        scanner.patterns.length < scanner.limits.maxSections.toNat ∧
        next =
          { scanner with patterns := scanner.patterns ++ [masked pattern] } := by
  unfold SignatureScanner.add
  rw [rejectIf_except_bind_eq_ok, rejectIf_except_bind_eq_ok, Bool.not_eq_true,
    not_le]
  apply and_congr_right
  intro _
  apply and_congr_right
  intro _
  exact ⟨fun h => (Except.ok.inj h).symm, fun h => congrArg Except.ok h.symm⟩

@[simp] theorem masked_name (pattern : BytePattern) :
    (masked pattern).name = pattern.name := by
  unfold masked
  split_ifs <;> rfl

@[simp] theorem masked_bytes (pattern : BytePattern) :
    (masked pattern).bytes = pattern.bytes := by
  unfold masked
  split_ifs <;> rfl

@[simp] theorem masked_alignment (pattern : BytePattern) :
    (masked pattern).alignment = pattern.alignment := by
  unfold masked
  split_ifs <;> rfl

def equalAt (data : Bytes) (pattern : BytePattern) (offset : ℕ) : Bool :=
  (List.range pattern.bytes.length).all fun index =>
    data.getD (offset + index) 0 &&& pattern.mask.getD index 0 ==
      pattern.bytes.getD index 0 &&& pattern.mask.getD index 0

/-- The loop over the offsets for one pattern.  An exception is the return from
the middle of the scan.  Every pass moves on, so a pass for each offset is
enough. -/
def scanPattern (limits : Limits) (image : BinaryImage) (data : Bytes)
    (pattern : BytePattern) :
    ℕ → ℕ → List PatternMatch → Except (List PatternMatch) (List PatternMatch)
  | 0, _, found => .ok found
  | passes + 1, offset, found =>
      let alignment := pattern.alignment.toNat
      if offset > data.length - pattern.bytes.length then .ok found
      else if offset % alignment ≠ 0 then
        scanPattern limits image data pattern passes
          (offset + (alignment - offset % alignment)) found
      else if equalAt data pattern offset then
        let found := found ++ [populateMatchLocation image
          { pattern := pattern.name, fileOffset := UInt64.ofNat offset }]
        if found.length ≥ limits.maxSymbols.toNat then .error found
        else
          scanPattern limits image data pattern passes
            (offset + max 1 alignment) found
      else
        scanPattern limits image data pattern passes
          (offset + max 1 alignment) found

/-- One pattern of the scan; one longer than the file is passed over. -/
def scanNext (limits : Limits) (image : BinaryImage) (data : Bytes)
    (found : List PatternMatch) (pattern : BytePattern) :
    Except (List PatternMatch) (List PatternMatch) :=
  if pattern.bytes.length > data.length then .ok found
  else scanPattern limits image data pattern (data.length + 1) 0 found

/-- The matches of a scan, whichever way it returned. -/
def returned : Except (List PatternMatch) (List PatternMatch) →
    List PatternMatch
  | .ok found => found
  | .error found => found

def scan (scanner : SignatureScanner) (image : BinaryImage) :
    Except Failure (List PatternMatch) := do
  let data ← demand image.fileData (failure .invalidHeader 0
    "signature scanning requires backing file data")
  return returned
    (scanner.patterns.foldlM (scanNext scanner.limits image data) [])

end SignatureScanner
end BinForge
