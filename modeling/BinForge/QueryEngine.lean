import BinForge.IndexLoop
import BinForge.Loader

/-!
# Queries over images

`ImageQueryEngine` walks over the entities of one kind, tests each against the
predicates of a query and collects a row for each that passes, up to a limit.
The rows are sorted by address and name at the end.
-/

namespace BinForge

open StatefulExcept
open OrderedMap (empty)
open BinaryLoader (decimal)

inductive QueryEntity
  | section
  | segment
  | symbol
  | importSymbol
  | exportSymbol
  deriving DecidableEq, Repr

inductive QueryField
  | name
  | library
  | address
  | size
  | permissions
  | kind
  | binding
  | ordinal
  deriving DecidableEq, Repr

inductive QueryOperator
  | equal
  | notEqual
  | less
  | lessEqual
  | greater
  | greaterEqual
  | contains
  | startsWith
  | bitwiseContains
  deriving DecidableEq, Repr

inductive QueryValue
  | number (value : UInt64)
  | text (value : Bytes)
  deriving DecidableEq, Repr

structure QueryPredicate where
  field : QueryField := .name
  operation : QueryOperator := .equal
  value : QueryValue := .number 0
  deriving DecidableEq, Repr

structure ImageQuery where
  entity : QueryEntity := .section
  predicates : List QueryPredicate := []
  limit : UInt32 := 1000
  requireAll : Bool := true
  ascending : Bool := true
  deriving DecidableEq, Repr

structure QueryRow where
  index : UInt32 := 0
  identity : Bytes := []
  address : UInt64 := 0
  size : UInt64 := 0
  attributes : OrderedMap Bytes Bytes := empty
  deriving DecidableEq

structure QueryResult where
  examined : UInt64 := 0
  truncated : Bool := false
  rows : List QueryRow := []
  deriving DecidableEq

namespace ImageQueryEngine

/-! ## Predicates -/

def numericCompare (actual : UInt64) (predicate : QueryPredicate) : Bool :=
  match predicate.value with
  | .text _ => false
  | .number expected =>
      match predicate.operation with
      | .equal => actual == expected
      | .notEqual => actual != expected
      | .less => actual < expected
      | .lessEqual => actual ≤ expected
      | .greater => actual > expected
      | .greaterEqual => actual ≥ expected
      | .bitwiseContains => actual &&& expected == expected
      | .contains | .startsWith => false

def textCompare (actual : Bytes) (predicate : QueryPredicate) : Bool :=
  match predicate.value with
  | .number _ => false
  | .text expected =>
      match predicate.operation with
      | .equal => actual == expected
      | .notEqual => actual != expected
      | .contains => expected <:+: actual
      | .startsWith => actual.length ≥ expected.length ∧
          actual.take expected.length = expected
      | .less => actual < expected
      | .lessEqual => actual ≤ expected
      | .greater => actual > expected
      | .greaterEqual => actual ≥ expected
      | .bitwiseContains => false

def combine (values : List Bool) (requireAll : Bool) : Bool :=
  if values.isEmpty then true
  else if requireAll then values.all id
  else values.any id

def permissionString (permissions : UInt8) : Bytes :=
  ascii (if hasPermission permissions permissionRead then "r" else "-") ++
    ascii (if hasPermission permissions permissionWrite then "w" else "-") ++
    ascii (if hasPermission permissions permissionExecute then "x" else "-")

/-- The value of an enumerator as the engine compares and prints it. -/
def enumerator {α : Type} [ByteCoded α] (value : α) : UInt64 :=
  (ByteCoded.toByte value).toUInt64

/-! ## The entities -/

def sectionRow (item : Section) : QueryRow where
  index := item.index
  identity := item.name
  address := item.virtualAddress
  size := item.memorySize
  attributes := ((empty.emplace (ascii "permissions")
    (permissionString item.permissions)).emplace (ascii "file_offset")
      (decimal item.fileOffset.toNat)).emplace (ascii "kind")
        (decimal (enumerator item.kind).toNat)

def sectionTest (item : Section) (predicate : QueryPredicate) : Bool :=
  match predicate.field with
  | .name => textCompare item.name predicate
  | .address => numericCompare item.virtualAddress predicate
  | .size => numericCompare item.memorySize predicate
  | .permissions => numericCompare item.permissions.toUInt64 predicate
  | .kind => numericCompare (enumerator item.kind) predicate
  | _ => false

def segmentRow (segment : Segment) : QueryRow where
  index := segment.index
  identity := ascii "segment." ++ decimal segment.index.toNat
  address := segment.virtualAddress
  size := segment.memorySize
  attributes := (empty.emplace (ascii "permissions")
    (permissionString segment.permissions)).emplace (ascii "file_offset")
      (decimal segment.fileOffset.toNat)

def segmentTest (segment : Segment) (predicate : QueryPredicate) : Bool :=
  match predicate.field with
  | .name => textCompare (segmentRow segment).identity predicate
  | .address => numericCompare segment.virtualAddress predicate
  | .size => numericCompare segment.memorySize predicate
  | .permissions => numericCompare segment.permissions.toUInt64 predicate
  | _ => false

def symbolRow (symbol : Symbol) : QueryRow where
  index := symbol.index
  identity := symbol.name
  address := symbol.value
  size := symbol.size
  attributes := ((empty.emplace (ascii "library") symbol.library).emplace
    (ascii "binding") (decimal (enumerator symbol.binding).toNat)).emplace
      (ascii "kind") (decimal (enumerator symbol.kind).toNat)

def symbolTest (symbol : Symbol) (predicate : QueryPredicate) : Bool :=
  match predicate.field with
  | .name => textCompare symbol.name predicate
  | .library => textCompare symbol.library predicate
  | .address => numericCompare symbol.value predicate
  | .size => numericCompare symbol.size predicate
  | .binding => numericCompare (enumerator symbol.binding) predicate
  | .kind => numericCompare (enumerator symbol.kind) predicate
  | _ => false

def importRow (index : UInt32) (imported : Import) : QueryRow where
  index := index
  identity := imported.name
  address := imported.slotAddress
  attributes := (empty.emplace (ascii "library") imported.library).emplace
    (ascii "ordinal") (decimal imported.ordinal.toNat)

def importTest (imported : Import) (predicate : QueryPredicate) : Bool :=
  match predicate.field with
  | .name => textCompare imported.name predicate
  | .library => textCompare imported.library predicate
  | .address => numericCompare imported.slotAddress predicate
  | .ordinal => numericCompare imported.ordinal predicate
  | _ => false

def exportRow (index : UInt32) (exported : Export) : QueryRow where
  index := index
  identity := exported.name
  address := exported.address
  attributes := (empty.emplace (ascii "ordinal")
    (decimal exported.ordinal.toNat)).emplace (ascii "forward")
      exported.forwardTarget

def exportTest (exported : Export) (predicate : QueryPredicate) : Bool :=
  match predicate.field with
  | .name => textCompare exported.name predicate
  | .address => numericCompare exported.address predicate
  | .ordinal => numericCompare exported.ordinal predicate
  | _ => false

/-! ## The search -/

def accept (query : ImageQuery) (result : QueryResult) (row : QueryRow)
    (verdicts : List Bool) : QueryResult :=
  let result := { result with examined := result.examined + 1 }
  if combine verdicts query.requireAll = false then result
  else if result.rows.length ≥ query.limit.toNat then
    { result with truncated := true }
  else { result with rows := result.rows ++ [row] }

/-- The body of the five loops. -/
def examine {α : Type} (query : ImageQuery) (row : α → QueryRow)
    (test : α → QueryPredicate → Bool) (result : QueryResult) (entity : α) :
    QueryResult :=
  accept query result (row entity) (query.predicates.map (test entity))

/-- The loops over imports and exports count with 32 bits, so that their passes
are limited here. -/
def search (passes : ℕ) (image : BinaryImage) (query : ImageQuery) :
    Option QueryResult :=
  match query.entity with
  | .section =>
      some (image.sections.foldl (examine query sectionRow sectionTest) {})
  | .segment =>
      some (image.segments.foldl (examine query segmentRow segmentTest) {})
  | .symbol =>
      some (image.symbols.foldl (examine query symbolRow symbolTest) {})
  | .importSymbol =>
      indexLoop image.imports (fun index imported result =>
        examine query (importRow index) importTest result imported) passes 0 {}
  | .exportSymbol =>
      indexLoop image.exports (fun index exported result =>
        examine query (exportRow index) exportTest result exported) passes 0 {}

/-- The comparison the rows are sorted by. -/
def rowBefore (ascending : Bool) (left right : QueryRow) : Prop :=
  if left.address ≠ right.address then
    if ascending then left.address < right.address
    else left.address > right.address
  else if ascending then left.identity < right.identity
  else left.identity > right.identity

instance (ascending : Bool) (left right : QueryRow) :
    Decidable (rowBefore ascending left right) :=
  inferInstanceAs (Decidable (ite _ (ite _ _ _) (ite _ _ _)))

/-- The source's sort may leave rows that compare equal in any order; here
they keep theirs. -/
def sortRows (ascending : Bool) (rows : List QueryRow) : List QueryRow :=
  rows.insertionSort fun left right => ¬rowBefore ascending right left

def badLimits (limits : Limits) (query : ImageQuery) : Bool :=
  query.limit = 0 ∨ query.limit > limits.maxSymbols ∨
    query.predicates.length > limits.maxSections.toNat

def isNumber : QueryValue → Bool
  | .number _ => true
  | .text _ => false

/-- The value is not of the type of the field. -/
def mistyped (predicate : QueryPredicate) : Bool :=
  let numericField := predicate.field != .name && predicate.field != .library
  numericField != isNumber predicate.value

def execute (passes : ℕ) (limits : Limits) (image : BinaryImage)
    (query : ImageQuery) : Except Failure (Option QueryResult) := do
  rejectIf (badLimits limits query = true)
    (failure .resourceLimit 0 "query limits are invalid")
  rejectIf (query.predicates.any mistyped = true)
    (failure .invalidHeader 0 "query predicate type does not match field")
  return (search passes image query).map fun result =>
    { result with rows := sortRows query.ascending result.rows }

end ImageQueryEngine
end BinForge
