import BinForge.QueryEngine

/-!
# What queries answer

An entity is seen by a query through its fields, some of which entities of its
kind do not have.  A query has an exact answer: the entities that match, up to
the limit, in the order asked for.  The five loops of the engine give it,
whenever they come to an end.
-/

namespace BinForge

open StatefulExcept

namespace ImageQueryEngine

/-! ## Meaning of a query -/

/-- The fields of an entity; those it lacks have no value. -/
abbrev Fields := QueryField → Option QueryValue

/-- The row of an entity and the fields a query sees. -/
structure Queried where
  row : QueryRow
  field : Fields

/-- The six comparisons in an ordered type. -/
def OrderHolds {α : Type} [LinearOrder α] :
    QueryOperator → α → α → Prop
  | .equal, actual, expected => actual = expected
  | .notEqual, actual, expected => actual ≠ expected
  | .less, actual, expected => actual < expected
  | .lessEqual, actual, expected => actual ≤ expected
  | .greater, actual, expected => expected < actual
  | .greaterEqual, actual, expected => expected ≤ actual
  | _, _, _ => False

/-- Numbers also contain the bits of others, texts their parts. -/
def Compares (operation : QueryOperator) : QueryValue → QueryValue → Prop
  | .number actual, .number expected =>
      OrderHolds operation actual expected ∨
        operation = .bitwiseContains ∧
          ∀ bit, expected.toNat.testBit bit = true →
            actual.toNat.testBit bit = true
  | .text actual, .text expected =>
      OrderHolds operation actual expected ∨
        operation = .contains ∧ expected <:+: actual ∨
          operation = .startsWith ∧ expected <+: actual
  | _, _ => False

def Queried.Satisfies (entity : Queried) (predicate : QueryPredicate) : Prop :=
  ∃ value, entity.field predicate.field = some value ∧
    Compares predicate.operation value predicate.value

/-- All predicates hold or, if they need not all, one of those there are. -/
def Queried.Matches (query : ImageQuery) (entity : Queried) : Prop :=
  if query.requireAll then
    ∀ predicate ∈ query.predicates, entity.Satisfies predicate
  else query.predicates = [] ∨
    ∃ predicate ∈ query.predicates, entity.Satisfies predicate

def sectionFields (item : Section) : Fields
  | .name => some (.text item.name)
  | .address => some (.number item.virtualAddress)
  | .size => some (.number item.memorySize)
  | .permissions => some (.number item.permissions.toUInt64)
  | .kind => some (.number (enumerator item.kind))
  | _ => none

def segmentFields (segment : Segment) : Fields
  | .name => some (.text (segmentRow segment).identity)
  | .address => some (.number segment.virtualAddress)
  | .size => some (.number segment.memorySize)
  | .permissions => some (.number segment.permissions.toUInt64)
  | _ => none

def symbolFields (symbol : Symbol) : Fields
  | .name => some (.text symbol.name)
  | .library => some (.text symbol.library)
  | .address => some (.number symbol.value)
  | .size => some (.number symbol.size)
  | .binding => some (.number (enumerator symbol.binding))
  | .kind => some (.number (enumerator symbol.kind))
  | _ => none

def importFields (imported : Import) : Fields
  | .name => some (.text imported.name)
  | .library => some (.text imported.library)
  | .address => some (.number imported.slotAddress)
  | .ordinal => some (.number imported.ordinal)
  | _ => none

def exportFields (exported : Export) : Fields
  | .name => some (.text exported.name)
  | .address => some (.number exported.address)
  | .ordinal => some (.number exported.ordinal)
  | _ => none

/-- The entities of one kind, in the order of the image. -/
def entities (image : BinaryImage) : QueryEntity → List Queried
  | .section => image.sections.map fun item =>
      ⟨sectionRow item, sectionFields item⟩
  | .segment => image.segments.map fun segment =>
      ⟨segmentRow segment, segmentFields segment⟩
  | .symbol => image.symbols.map fun symbol =>
      ⟨symbolRow symbol, symbolFields symbol⟩
  | .importSymbol => image.imports.zipIdx.map fun entry =>
      ⟨importRow (UInt32.ofNat entry.2) entry.1, importFields entry.1⟩
  | .exportSymbol => image.exports.zipIdx.map fun entry =>
      ⟨exportRow (UInt32.ofNat entry.2) entry.1, exportFields entry.1⟩

open Classical in
noncomputable def matching (image : BinaryImage) (query : ImageQuery) :
    List Queried :=
  (entities image query.entity).filter fun entity => entity.Matches query

/-- By address, then by identity, up or down. -/
def InOrder (ascending : Bool) (left right : QueryRow) : Prop :=
  if ascending then
    toLex (left.address, left.identity) ≤ toLex (right.address, right.identity)
  else
    toLex (right.address, right.identity) ≤ toLex (left.address, left.identity)

/-- The rows stand for entities that match, each for another, and there are as
many as match or as are asked for. -/
structure Answers (image : BinaryImage) (query : ImageQuery)
    (result : QueryResult) : Prop where
  examined : result.examined =
    UInt64.ofNat (entities image query.entity).length
  rows : ∃ chosen : List Queried,
    chosen.Sublist (entities image query.entity) ∧
      (∀ entity ∈ chosen, entity.Matches query) ∧
        result.rows.Perm (chosen.map Queried.row)
  length : result.rows.length =
    min query.limit.toNat (matching image query).length
  truncated : result.truncated = true ↔
    query.limit.toNat < (matching image query).length
  ordered : result.rows.Pairwise (InOrder query.ascending)

/-! ## Predicates -/

/-- The comparison of a field by its type. -/
def fieldTest (fields : Fields) (predicate : QueryPredicate) : Bool :=
  match fields predicate.field with
  | none => false
  | some (.number actual) => numericCompare actual predicate
  | some (.text actual) => textCompare actual predicate

theorem sectionTest_eq (item : Section) :
    sectionTest item = fieldTest (sectionFields item) := by
  funext predicate
  unfold sectionTest fieldTest
  cases predicate.field <;> rfl

theorem segmentTest_eq (segment : Segment) :
    segmentTest segment = fieldTest (segmentFields segment) := by
  funext predicate
  unfold segmentTest fieldTest
  cases predicate.field <;> rfl

theorem symbolTest_eq (symbol : Symbol) :
    symbolTest symbol = fieldTest (symbolFields symbol) := by
  funext predicate
  unfold symbolTest fieldTest
  cases predicate.field <;> rfl

theorem importTest_eq (imported : Import) :
    importTest imported = fieldTest (importFields imported) := by
  funext predicate
  unfold importTest fieldTest
  cases predicate.field <;> rfl

theorem exportTest_eq (exported : Export) :
    exportTest exported = fieldTest (exportFields exported) := by
  funext predicate
  unfold exportTest fieldTest
  cases predicate.field <;> rfl

/-- A mask is contained when each of its bits is. -/
theorem and_eq_right_iff (actual expected : UInt64) :
    actual &&& expected = expected ↔
      ∀ bit, expected.toNat.testBit bit = true →
        actual.toNat.testBit bit = true := by
  rw [← UInt64.toNat_inj, UInt64.toNat_and]
  constructor
  · intro hcontains bit hbit
    rw [← hcontains, Nat.testBit_and, Bool.and_eq_true] at hbit
    exact hbit.1
  · intro hbits
    apply Nat.eq_of_testBit_eq
    intro bit
    rw [Nat.testBit_and]
    cases hbit : expected.toNat.testBit bit with
    | false => rw [Bool.and_false]
    | true => rw [hbits bit hbit, Bool.and_true]

theorem numericCompare_iff (actual : UInt64) (predicate : QueryPredicate) :
    numericCompare actual predicate = true ↔
      Compares predicate.operation (.number actual) predicate.value := by
  obtain ⟨field, operation, value⟩ := predicate
  cases value with
  | text expected => simp [numericCompare, Compares]
  | number expected =>
      cases operation <;>
        simp [numericCompare, Compares, OrderHolds, and_eq_right_iff]

theorem startsWith_iff (actual expected : Bytes) :
    expected.length ≤ actual.length ∧
        actual.take expected.length = expected ↔ expected <+: actual := by
  rw [List.prefix_iff_eq_take, eq_comm, and_iff_right_iff_imp]
  intro htake
  rw [htake]
  exact List.length_take_le' _ _

theorem textCompare_iff (actual : Bytes) (predicate : QueryPredicate) :
    textCompare actual predicate = true ↔
      Compares predicate.operation (.text actual) predicate.value := by
  obtain ⟨field, operation, value⟩ := predicate
  cases value with
  | number expected => simp [textCompare, Compares]
  | text expected =>
      cases operation <;>
        simp [textCompare, Compares, OrderHolds, startsWith_iff]

theorem fieldTest_iff (entity : Queried) (predicate : QueryPredicate) :
    fieldTest entity.field predicate = true ↔ entity.Satisfies predicate := by
  unfold fieldTest Queried.Satisfies
  cases entity.field predicate.field with
  | none => simp
  | some value =>
      cases value with
      | number actual => simp [numericCompare_iff]
      | text actual => simp [textCompare_iff]

theorem combine_iff (query : ImageQuery) (entity : Queried) :
    combine (query.predicates.map (fieldTest entity.field))
        query.requireAll = true ↔ entity.Matches query := by
  unfold combine Queried.Matches
  cases hpredicates : query.predicates with
  | nil => simp
  | cons predicate predicates =>
      cases query.requireAll with
      | true => simp [fieldTest_iff]
      | false => simp [fieldTest_iff]

/-! ## The loops -/

/-- What the loop has made of the entities it has seen: their number, and the
rows of those that match. -/
structure Collected (query : ImageQuery) (count : ℕ) (rows : List QueryRow)
    (result : QueryResult) : Prop where
  examined : result.examined = UInt64.ofNat count
  truncated : result.truncated = true ↔ query.limit.toNat < rows.length
  rows : result.rows = rows.take query.limit.toNat

variable {query : ImageQuery} {result : QueryResult} {count : ℕ}
  {rows : List QueryRow}

theorem Collected.empty (query : ImageQuery) : Collected query 0 [] {} where
  examined := rfl
  truncated := by simp
  rows := by simp

theorem ofNat_succ (count : ℕ) :
    UInt64.ofNat count + 1 = UInt64.ofNat (count + 1) := by
  simp [UInt64.ofNat_add]

theorem Collected.skip {row : QueryRow} {verdicts : List Bool}
    (hcollected : Collected query count rows result)
    (hfails : combine verdicts query.requireAll = false) :
    Collected query (count + 1) rows (accept query result row verdicts) := by
  unfold accept
  rw [if_pos hfails]
  constructor
  · simp only [hcollected.examined, ofNat_succ]
  · exact hcollected.truncated
  · exact hcollected.rows

theorem Collected.take {row : QueryRow} {verdicts : List Bool}
    (hcollected : Collected query count rows result)
    (hpasses : combine verdicts query.requireAll = true) :
    Collected query (count + 1) (rows ++ [row])
      (accept query result row verdicts) := by
  have hlength : result.rows.length =
      min query.limit.toNat rows.length := by
    rw [hcollected.rows, List.length_take]
  unfold accept
  rw [if_neg (Bool.not_eq_false _ ▸ hpasses)]
  by_cases hroom : result.rows.length < query.limit.toNat
  · have hfewer : rows.length < query.limit.toNat := by omega
    rw [if_neg (not_le.mpr hroom)]
    constructor
    · simp only [hcollected.examined, ofNat_succ]
    · rw [hcollected.truncated, List.length_append, List.length_singleton]
      omega
    · simp only [hcollected.rows]
      rw [List.take_of_length_le hfewer.le, List.take_of_length_le]
      rw [List.length_append]
      exact hfewer
  · have hfull : query.limit.toNat ≤ rows.length := by omega
    rw [if_pos (not_lt.mp hroom)]
    constructor
    · simp only [hcollected.examined, ofNat_succ]
    · simp only [List.length_append, List.length_singleton, true_iff]
      exact Nat.lt_succ_of_le hfull
    · simp only [hcollected.rows]
      rw [List.take_append_of_le_length hfull]

open Classical in
theorem Collected.foldl {α : Type} {view : α → Queried}
    {step : QueryResult → α → QueryResult}
    (hstep : ∀ result entity, step result entity =
      accept query result (view entity).row
        (query.predicates.map (fieldTest (view entity).field)))
    (hcollected : Collected query count rows result) (seen : List α) :
    Collected query (count + (seen.map view).length)
      (rows ++ ((seen.map view).filter fun entity =>
        entity.Matches query).map Queried.row)
      (seen.foldl step result) := by
  induction seen generalizing count rows result with
  | nil => simpa using hcollected
  | cons entity seen ih =>
      rw [List.foldl_cons, hstep, List.map_cons, List.length_cons,
        Nat.add_comm _ 1, ← Nat.add_assoc]
      by_cases hmatches : (view entity).Matches query
      · have hpasses := (combine_iff query (view entity)).mpr hmatches
        rw [List.filter_cons_of_pos (by simpa using hmatches), List.map_cons,
          List.append_cons]
        exact ih (hcollected.take hpasses)
      · have hfails := Bool.eq_false_iff.mpr
          (mt (combine_iff query (view entity)).mp hmatches)
        rw [List.filter_cons_of_neg (by simpa using hmatches)]
        exact ih (hcollected.skip hfails)

theorem search_collected {passes : ℕ} {image : BinaryImage}
    (hsearch : search passes image query = some result) :
    Collected query (entities image query.entity).length
      ((matching image query).map Queried.row) result := by
  unfold search at hsearch
  unfold matching entities
  rw [← Nat.zero_add (List.length _), ← List.nil_append (List.map _ _)]
  cases hentity : query.entity with
  | «section» =>
      rw [hentity] at hsearch
      obtain rfl := Option.some.inj hsearch
      apply (Collected.empty query).foldl
      intro result item
      rw [examine, sectionTest_eq]
  | segment =>
      rw [hentity] at hsearch
      obtain rfl := Option.some.inj hsearch
      apply (Collected.empty query).foldl
      intro result segment
      rw [examine, segmentTest_eq]
  | symbol =>
      rw [hentity] at hsearch
      obtain rfl := Option.some.inj hsearch
      apply (Collected.empty query).foldl
      intro result symbol
      rw [examine, symbolTest_eq]
  | importSymbol =>
      rw [hentity] at hsearch
      obtain rfl := IndexLoop.eq_foldl_zero hsearch
      apply (Collected.empty query).foldl
      intro result entry
      rw [IndexLoop.visit, examine, importTest_eq]
  | exportSymbol =>
      rw [hentity] at hsearch
      obtain rfl := IndexLoop.eq_foldl_zero hsearch
      apply (Collected.empty query).foldl
      intro result entry
      rw [IndexLoop.visit, examine, exportTest_eq]

/-- The kinds whose entities are counted with 32 bits. -/
def Countable (image : BinaryImage) : QueryEntity → Prop
  | .importSymbol => image.imports.length < 2 ^ 32
  | .exportSymbol => image.exports.length < 2 ^ 32
  | _ => True

theorem search_ends_iff {image : BinaryImage} :
    (∃ passes result, search passes image query = some result) ↔
      Countable image query.entity := by
  unfold search Countable
  cases query.entity with
  | importSymbol => exact IndexLoop.ends_iff
  | exportSymbol => exact IndexLoop.ends_iff
  | _ => exact iff_of_true ⟨0, _, rfl⟩ trivial

/-! ## The order of the rows -/

variable {ascending : Bool}

theorem not_rowBefore_iff {left right : QueryRow} :
    ¬rowBefore ascending right left ↔ InOrder ascending left right := by
  unfold rowBefore InOrder
  simp only [Prod.Lex.toLex_le_toLex]
  by_cases hsame : right.address = left.address
  · cases ascending <;> simp [hsame]
  · have hother : ¬left.address = right.address := fun h => hsame h.symm
    cases ascending with
    | true => simp [hsame, hother, lt_iff_le_and_ne]
    | false => simp [hsame, hother, lt_iff_le_and_ne]

theorem inOrder_total (ascending : Bool) (left right : QueryRow) :
    InOrder ascending left right ∨ InOrder ascending right left := by
  unfold InOrder
  cases ascending with
  | true => exact le_total _ _
  | false => exact le_total _ _

theorem InOrder.trans {first second third : QueryRow}
    (hfirst : InOrder ascending first second)
    (hsecond : InOrder ascending second third) :
    InOrder ascending first third := by
  unfold InOrder at hfirst hsecond ⊢
  cases ascending with
  | true => exact le_trans hfirst hsecond
  | false => exact le_trans hsecond hfirst

theorem sortRows_perm (ascending : Bool) (rows : List QueryRow) :
    (sortRows ascending rows).Perm rows :=
  List.perm_insertionSort ..

theorem sortRows_ordered (ascending : Bool) (rows : List QueryRow) :
    (sortRows ascending rows).Pairwise (InOrder ascending) := by
  have htotal : Std.Total fun left right =>
      ¬rowBefore ascending right left := by
    constructor
    intro left right
    rw [not_rowBefore_iff, not_rowBefore_iff]
    exact inOrder_total ascending left right
  have htrans : IsTrans QueryRow fun left right =>
      ¬rowBefore ascending right left := by
    constructor
    intro first second third
    rw [not_rowBefore_iff, not_rowBefore_iff, not_rowBefore_iff]
    exact InOrder.trans
  apply (List.pairwise_insertionSort
    (fun left right => ¬rowBefore ascending right left) rows).imp
  intro left right hbefore
  exact not_rowBefore_iff.mp hbefore

/-! ## The answer -/

def Accepted (limits : Limits) (query : ImageQuery) : Prop :=
  badLimits limits query = false ∧ query.predicates.any mistyped = false

theorem execute_eq_ok {limits : Limits} {image : BinaryImage} {passes : ℕ}
    {answer : Option QueryResult} :
    execute passes limits image query = .ok answer ↔
      Accepted limits query ∧
        (search passes image query).map (fun result =>
          { result with rows := sortRows query.ascending result.rows }) =
            answer := by
  unfold execute Accepted
  rw [rejectIf_except_bind_eq_ok, rejectIf_except_bind_eq_ok, Bool.not_eq_true,
    Bool.not_eq_true, and_assoc]
  apply and_congr_right
  intro _
  apply and_congr_right
  intro _
  exact ⟨Except.ok.inj, congrArg Except.ok⟩

theorem matches_of_mem {image : BinaryImage} {entity : Queried}
    (hentity : entity ∈ matching image query) : entity.Matches query := by
  simp only [matching, List.mem_filter, decide_eq_true_eq] at hentity
  exact hentity.2

theorem Collected.answers {image : BinaryImage}
    (hcollected : Collected query (entities image query.entity).length
      ((matching image query).map Queried.row) result) :
    Answers image query
      { result with rows := sortRows query.ascending result.rows } := by
  have hperm := sortRows_perm query.ascending result.rows
  constructor
  · exact hcollected.examined
  · refine ⟨(matching image query).take query.limit.toNat, ?_, ?_, ?_⟩
    · exact (List.take_sublist _ _).trans List.filter_sublist
    · intro entity hentity
      exact matches_of_mem (List.mem_of_mem_take hentity)
    · rw [List.map_take, ← hcollected.rows]
      exact hperm
  · rw [hperm.length_eq, hcollected.rows, List.length_take, List.length_map]
  · rw [hcollected.truncated, List.length_map]
  · exact sortRows_ordered _ _

/-- A query that is accepted has its answer as soon as the loop has come to an
end, which it does for all kinds and numbers of entities but imports and
exports whose number takes more than 32 bits. -/
theorem execute_answers (limits : Limits) (image : BinaryImage)
    (query : ImageQuery) (haccepted : Accepted limits query) :
    ((∃ passes result, execute passes limits image query =
        .ok (some result)) ↔ Countable image query.entity) ∧
      ∀ passes result, execute passes limits image query = .ok (some result) →
        Answers image query result := by
  constructor
  · rw [← search_ends_iff]
    apply exists_congr
    intro passes
    constructor
    · intro hends
      obtain ⟨result, hresult⟩ := hends
      obtain ⟨-, hmap⟩ := execute_eq_ok.mp hresult
      obtain ⟨found, hfound, -⟩ := Option.map_eq_some_iff.mp hmap
      exact ⟨found, hfound⟩
    · intro hends
      obtain ⟨found, hfound⟩ := hends
      refine ⟨{ found with rows := sortRows query.ascending found.rows },
        execute_eq_ok.mpr ⟨haccepted, ?_⟩⟩
      rw [hfound]
      rfl
  · intro passes result hresult
    obtain ⟨-, hmap⟩ := execute_eq_ok.mp hresult
    obtain ⟨found, hfound, rfl⟩ := Option.map_eq_some_iff.mp hmap
    exact (search_collected hfound).answers

/-- The sections that can be executed, and an image with one of two. -/
def executableSections : ImageQuery :=
  { predicates := [{ field := .permissions, operation := .bitwiseContains
                     value := .number permissionExecute.toUInt64 }] }

def codeAndData : BinaryImage :=
  { sections := [
      { index := 0, name := ascii ".text", virtualAddress := 0x1000
        permissions := permissionRead ||| permissionExecute },
      { index := 1, name := ascii ".data", virtualAddress := 0x2000
        permissions := permissionRead ||| permissionWrite }] }

theorem execute_answers_codeAndData :
    ((∃ passes result, execute passes {} codeAndData executableSections =
        .ok (some result)) ↔
      Countable codeAndData executableSections.entity) ∧
      ∀ passes result, execute passes {} codeAndData executableSections =
          .ok (some result) →
        Answers codeAndData executableSections result :=
  execute_answers {} codeAndData executableSections ⟨by decide, by decide⟩

example : (search 0 codeAndData executableSections).map (fun result =>
    (result.examined, result.truncated, result.rows.map QueryRow.index)) =
      some (2, false, [0]) := by decide +kernel

end ImageQueryEngine
end BinForge
