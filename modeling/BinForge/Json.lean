import Mathlib

/-!
# JSON texts

The grammar of JSON over bytes and the value each text stands for.  A string
is the list of its code units, and a byte beyond the ASCII range is an ordinary
character.  A number is a rational number.
-/

namespace Json

inductive Value
  | null
  | boolean (flag : Bool)
  | number (value : ℚ)
  | string (units : List UInt16)
  | array (items : List Value)
  | object (members : List (List UInt16 × Value))

/-! ## Characters -/

def IsBlank (byte : UInt8) : Prop :=
  byte = 0x20 ∨ byte = 0x09 ∨ byte = 0x0a ∨ byte = 0x0d

instance : DecidablePred IsBlank := fun _ => inferInstanceAs (Decidable (_ ∨ _))

def IsDigit (byte : UInt8) : Prop := 0x30 ≤ byte ∧ byte ≤ 0x39

instance : DecidablePred IsDigit := fun _ => inferInstanceAs (Decidable (_ ∧ _))

def hexDigit (byte : UInt8) : Option UInt16 :=
  if IsDigit byte then some (byte - 0x30).toUInt16
  else if 0x61 ≤ byte ∧ byte ≤ 0x66 then some (byte - 0x57).toUInt16
  else if 0x41 ≤ byte ∧ byte ≤ 0x46 then some (byte - 0x37).toUInt16
  else none

/-- The code unit that four hexadecimal digits stand for. -/
def codeUnit (a b c d : UInt8) : Option UInt16 := do
  let a ← hexDigit a
  let b ← hexDigit b
  let c ← hexDigit c
  let d ← hexDigit d
  return ((a * 16 + b) * 16 + c) * 16 + d

/-- The code unit that a letter after a backslash stands for. -/
def escaped (letter : UInt8) : Option UInt16 :=
  if letter = 0x22 ∨ letter = 0x5c ∨ letter = 0x2f then some letter.toUInt16
  else if letter = 0x62 then some 0x08
  else if letter = 0x66 then some 0x0c
  else if letter = 0x6e then some 0x0a
  else if letter = 0x72 then some 0x0d
  else if letter = 0x74 then some 0x09
  else none

/-- What may stand between the quotes of a string. -/
inductive Characters : List UInt8 → List UInt16 → Prop
  | nil : Characters [] []
  | plain {byte : UInt8} {rest : List UInt8} {units : List UInt16}
      (hcontrol : 0x20 ≤ byte) (hquote : byte ≠ 0x22) (hescape : byte ≠ 0x5c)
      (hrest : Characters rest units) :
      Characters (byte :: rest) (byte.toUInt16 :: units)
  | short {letter : UInt8} {unit : UInt16} {rest : List UInt8}
      {units : List UInt16} (hletter : escaped letter = some unit)
      (hrest : Characters rest units) :
      Characters (0x5c :: letter :: rest) (unit :: units)
  | code {a b c d : UInt8} {unit : UInt16} {rest : List UInt8}
      {units : List UInt16} (hunit : codeUnit a b c d = some unit)
      (hrest : Characters rest units) :
      Characters (0x5c :: 0x75 :: a :: b :: c :: d :: rest) (unit :: units)

def IsString (text : List UInt8) (units : List UInt16) : Prop :=
  ∃ body, text = 0x22 :: (body ++ [0x22]) ∧ Characters body units

/-! ## Numbers -/

def digitsValue (digits : List UInt8) : ℕ :=
  digits.foldl (fun value digit => 10 * value + (digit.toNat - 0x30)) 0

/-- At least one digit. -/
def Digits (text : List UInt8) : Prop := text ≠ [] ∧ ∀ byte ∈ text, IsDigit byte

structure Exponent where
  mark : UInt8
  sign : List UInt8
  digits : List UInt8

def Exponent.text (exponent : Exponent) : List UInt8 :=
  exponent.mark :: (exponent.sign ++ exponent.digits)

def Exponent.value (exponent : Exponent) : ℤ :=
  if exponent.sign = [0x2d] then -(digitsValue exponent.digits : ℤ)
  else digitsValue exponent.digits

structure Exponent.WellFormed (exponent : Exponent) : Prop where
  mark : exponent.mark = 0x65 ∨ exponent.mark = 0x45
  sign : exponent.sign = [] ∨ exponent.sign = [0x2b] ∨ exponent.sign = [0x2d]
  digits : Digits exponent.digits

/-- The parts of a number; an absent fraction has no digits. -/
structure Numeral where
  negative : Bool
  whole : List UInt8
  fraction : List UInt8
  exponent : Option Exponent

namespace Numeral

def text (numeral : Numeral) : List UInt8 :=
  (if numeral.negative then [0x2d] else []) ++ numeral.whole ++
    (if numeral.fraction = [] then [] else 0x2e :: numeral.fraction) ++
    numeral.exponent.elim [] Exponent.text

def value (numeral : Numeral) : ℚ :=
  (if numeral.negative then -1 else 1) *
    digitsValue (numeral.whole ++ numeral.fraction) *
    10 ^ (numeral.exponent.elim 0 Exponent.value -
      (numeral.fraction.length : ℤ))

structure WellFormed (numeral : Numeral) : Prop where
  whole : Digits numeral.whole
  leading : numeral.whole.head? = some 0x30 → numeral.whole.length = 1
  fraction : ∀ byte ∈ numeral.fraction, IsDigit byte
  exponent : ∀ exponent ∈ numeral.exponent, exponent.WellFormed

end Numeral

/-! ## Values -/

/-- A value with the blanks around it. -/
structure Padded (α : Type) where
  before : List UInt8
  body : List UInt8
  after : List UInt8
  value : α

def Padded.text {α : Type} (padded : Padded α) : List UInt8 :=
  padded.before ++ padded.body ++ padded.after

structure Padded.Blank {α : Type} (padded : Padded α) : Prop where
  before : ∀ byte ∈ padded.before, IsBlank byte
  after : ∀ byte ∈ padded.after, IsBlank byte

structure Member where
  key : Padded (List UInt16)
  item : Padded Value

def Member.text (entry : Member) : List UInt8 :=
  entry.key.text ++ 0x3a :: entry.item.text

def Member.value (entry : Member) : List UInt16 × Value :=
  (entry.key.value, entry.item.value)

def separated (texts : List (List UInt8)) : List UInt8 :=
  [0x2c].intercalate texts

def nullText : List UInt8 := [0x6e, 0x75, 0x6c, 0x6c]

def booleanText : Bool → List UInt8
  | true => [0x74, 0x72, 0x75, 0x65]
  | false => [0x66, 0x61, 0x6c, 0x73, 0x65]

/-- The text, without blanks around it, stands for the value. -/
inductive Spells : List UInt8 → Value → Prop
  | null : Spells nullText .null
  | boolean (flag : Bool) : Spells (booleanText flag) (.boolean flag)
  | number {numeral : Numeral} (hnumeral : numeral.WellFormed) :
      Spells numeral.text (.number numeral.value)
  | string {text : List UInt8} {units : List UInt16}
      (htext : IsString text units) : Spells text (.string units)
  | emptyArray {blanks : List UInt8} (hblanks : ∀ byte ∈ blanks, IsBlank byte) :
      Spells (0x5b :: (blanks ++ [0x5d])) (.array [])
  | array {items : List (Padded Value)} (hnonempty : items ≠ [])
      (hblank : ∀ item ∈ items, item.Blank)
      (hitems : ∀ item ∈ items, Spells item.body item.value) :
      Spells (0x5b :: (separated (items.map Padded.text) ++ [0x5d]))
        (.array (items.map Padded.value))
  | emptyObject {blanks : List UInt8}
      (hblanks : ∀ byte ∈ blanks, IsBlank byte) :
      Spells (0x7b :: (blanks ++ [0x7d])) (.object [])
  | object {members : List Member} (hnonempty : members ≠ [])
      (hblank : ∀ entry ∈ members, entry.key.Blank ∧ entry.item.Blank)
      (hkeys : ∀ entry ∈ members, IsString entry.key.body entry.key.value)
      (hitems : ∀ entry ∈ members, Spells entry.item.body entry.item.value) :
      Spells (0x7b :: (separated (members.map Member.text) ++ [0x7d]))
        (.object (members.map Member.value))

theorem separated_cons (first : List UInt8) {rest : List (List UInt8)}
    (hrest : rest ≠ []) :
    separated (first :: rest) = first ++ 0x2c :: separated rest := by
  obtain ⟨second, others, rfl⟩ := List.exists_cons_of_ne_nil hrest
  rw [separated, List.intercalate_cons_cons, List.append_assoc]
  rfl

theorem separated_singleton (text : List UInt8) : separated [text] = text := by
  rw [separated, List.intercalate_singleton]

/-- The text is one value. -/
def IsText (text : List UInt8) (value : Value) : Prop :=
  ∃ whole : Padded Value, whole.Blank ∧ Spells whole.body whole.value ∧
    whole.text = text ∧ whole.value = value

/-! ## Texts without blanks

What a writer that adds no blanks has to put together. -/

def Padded.tight {α : Type} (body : List UInt8) (value : α) : Padded α :=
  { before := [], body, after := [], value }

theorem Padded.tight_blank {α : Type} (body : List UInt8) (value : α) :
    (Padded.tight body value).Blank :=
  ⟨fun _ hbyte => absurd hbyte List.not_mem_nil,
    fun _ hbyte => absurd hbyte List.not_mem_nil⟩

theorem Padded.tight_text {α : Type} (body : List UInt8) (value : α) :
    (Padded.tight body value).text = body := by
  rw [Padded.text, Padded.tight, List.append_nil, List.nil_append]

theorem Spells.isText {text : List UInt8} {value : Value}
    (hspells : Spells text value) : IsText text value :=
  ⟨Padded.tight text value, Padded.tight_blank _ _, hspells,
    Padded.tight_text _ _, rfl⟩

/-- Each text after the first has a comma before it. -/
theorem separated_cons_eq_flatMap (first : List UInt8)
    (rest : List (List UInt8)) :
    separated (first :: rest) =
      first ++ rest.flatMap fun text => 0x2c :: text := by
  induction rest generalizing first with
  | nil => rw [separated_singleton, List.flatMap_nil, List.append_nil]
  | cons second others ih =>
      rw [separated_cons first (List.cons_ne_nil _ _), ih, List.flatMap_cons,
        List.cons_append]

def quoted (body : List UInt8) : List UInt8 := 0x22 :: (body ++ [0x22])

/-- A member of an object: what stands between the quotes of its name, the
name, the text of its item and the item. -/
structure Entry where
  body : List UInt8
  units : List UInt16
  text : List UInt8
  value : Value

def Entry.spelling (entry : Entry) : List UInt8 :=
  quoted entry.body ++ 0x3a :: entry.text

structure Entry.Spelled (entry : Entry) : Prop where
  name : Characters entry.body entry.units
  item : Spells entry.text entry.value

theorem spells_array {items : List (List UInt8 × Value)}
    (hitems : ∀ item ∈ items, Spells item.1 item.2) :
    Spells (0x5b :: (separated (items.map Prod.fst) ++ [0x5d]))
      (.array (items.map Prod.snd)) := by
  by_cases hempty : items = []
  · rw [hempty]
    exact @Spells.emptyArray [] fun _ hbyte =>
      absurd hbyte List.not_mem_nil
  · have hspells := @Spells.array
      (items.map fun item => Padded.tight item.1 item.2)
      (by rwa [ne_eq, List.map_eq_nil_iff])
      (by
        intro padded hpadded
        obtain ⟨item, -, rfl⟩ := List.mem_map.mp hpadded
        exact Padded.tight_blank _ _)
      (by
        intro padded hpadded
        obtain ⟨item, hitem, rfl⟩ := List.mem_map.mp hpadded
        exact hitems item hitem)
    have htexts : (Padded.text ∘ fun item : List UInt8 × Value =>
        Padded.tight item.1 item.2) = Prod.fst :=
      funext fun item => Padded.tight_text _ _
    rw [List.map_map, List.map_map, htexts] at hspells
    exact hspells

theorem spells_object {entries : List Entry} (hnonempty : entries ≠ [])
    (hentries : ∀ entry ∈ entries, entry.Spelled) :
    Spells (0x7b :: (separated (entries.map Entry.spelling) ++ [0x7d]))
      (.object (entries.map fun entry => (entry.units, entry.value))) := by
  have hspells := @Spells.object
    (entries.map fun entry =>
      ⟨Padded.tight (quoted entry.body) entry.units,
        Padded.tight entry.text entry.value⟩)
    (by rwa [ne_eq, List.map_eq_nil_iff])
    (by
      intro found hfound
      obtain ⟨entry, -, rfl⟩ := List.mem_map.mp hfound
      exact ⟨Padded.tight_blank _ _, Padded.tight_blank _ _⟩)
    (by
      intro found hfound
      obtain ⟨entry, hentry, rfl⟩ := List.mem_map.mp hfound
      exact ⟨entry.body, rfl, (hentries entry hentry).name⟩)
    (by
      intro found hfound
      obtain ⟨entry, hentry, rfl⟩ := List.mem_map.mp hfound
      exact (hentries entry hentry).item)
  have htexts : (Member.text ∘ fun entry : Entry =>
      ⟨Padded.tight (quoted entry.body) entry.units,
        Padded.tight entry.text entry.value⟩) = Entry.spelling :=
    funext fun entry => by
      rw [Function.comp_apply, Member.text, Padded.tight_text,
        Padded.tight_text, Entry.spelling]
  rw [List.map_map, List.map_map, htexts] at hspells
  exact hspells

theorem spells_quoted {body : List UInt8} {units : List UInt16}
    (hbody : Characters body units) : Spells (quoted body) (.string units) :=
  Spells.string ⟨body, rfl, hbody⟩

theorem spells_digits {digits : List UInt8} (hdigits : Digits digits)
    (hleading : digits.head? = some 0x30 → digits.length = 1) :
    Spells digits (.number (digitsValue digits)) := by
  have hspells := @Spells.number ⟨false, digits, [], none⟩
    ⟨hdigits, hleading, fun _ hbyte => absurd hbyte List.not_mem_nil,
      fun _ hnone => absurd hnone (Option.not_mem_none _)⟩
  have htext : (⟨false, digits, [], none⟩ : Numeral).text = digits := by
    rw [Numeral.text]
    simp
  have hvalue : (⟨false, digits, [], none⟩ : Numeral).value =
      digitsValue digits := by
    rw [Numeral.value]
    simp
  rwa [htext, hvalue] at hspells

end Json
