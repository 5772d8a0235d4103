import BinForge.Json

/-!
# Reading JSON texts

A recursive-descent reader takes a value off the front of its input.  It
accepts every text of the grammar with the value the text stands for, so a text
stands for one value at most.
-/

namespace Json

abbrev Reader (α : Type) := List UInt8 → Option (α × List UInt8)

variable {α β : Type}

/-! ## The reader -/

def dropBlanks (input : List UInt8) : List UInt8 :=
  input.dropWhile fun byte => IsBlank byte

/-- A reader of at least one digit. -/
def readDigits : Reader (List UInt8) := fun input =>
  let digits := input.takeWhile fun byte => IsDigit byte
  if digits = [] then none
  else some (digits, input.dropWhile fun byte => IsDigit byte)

def readFraction : Reader (List UInt8) := fun input =>
  if input.head? = some 0x2e then readDigits input.tail else some ([], input)

def readSign : Reader (List UInt8) := fun input =>
  if input.head? = some 0x2b ∨ input.head? = some 0x2d then
    some (input.take 1, input.tail)
  else some ([], input)

def readExponent : Reader (Option Exponent) := fun input =>
  match input with
  | [] => some (none, [])
  | mark :: rest =>
      if mark = 0x65 ∨ mark = 0x45 then do
        let (sign, rest) ← readSign rest
        let (digits, rest) ← readDigits rest
        return (some { mark, sign, digits }, rest)
      else some (none, input)

def readNumeral : Reader Numeral := fun input => do
  let negative := decide (input.head? = some 0x2d)
  let (whole, input) ← readDigits (if negative then input.tail else input)
  if whole.head? = some 0x30 ∧ whole.length ≠ 1 then none
  else
    let (fraction, input) ← readFraction input
    let (exponent, input) ← readExponent input
    return ({ negative, whole, fraction, exponent }, input)

/-- Put a unit before what the rest of the string gives. -/
def withUnit (unit : Option UInt16) (rest : Option (List UInt16 × List UInt8)) :
    Option (List UInt16 × List UInt8) := do
  let unit ← unit
  let (units, input) ← rest
  return (unit :: units, input)

/-- The characters up to the closing quote. -/
def readCharacters : List UInt8 → Option (List UInt16 × List UInt8)
  | [] => none
  | byte :: rest =>
      if byte = 0x22 then some ([], rest)
      else if byte = 0x5c then
        match rest with
        | [] => none
        | letter :: rest =>
            if letter = 0x75 then
              match rest with
              | a :: b :: c :: d :: rest =>
                  withUnit (codeUnit a b c d) (readCharacters rest)
              | _ => none
            else withUnit (escaped letter) (readCharacters rest)
      else if byte < 0x20 then none
      else withUnit (some byte.toUInt16) (readCharacters rest)

def readString : Reader (List UInt16) := fun input =>
  if input.head? = some 0x22 then readCharacters input.tail else none

def readPadded (read : Reader α) : Reader α := fun input =>
  (read (dropBlanks input)).map fun (value, rest) => (value, dropBlanks rest)

/-- Up to this many items, with commas between them. -/
def readSeparated (read : Reader α) : ℕ → Reader (List α)
  | 0, _ => none
  | count + 1, input => do
      let (first, input) ← read input
      if input.head? = some 0x2c then
        let (items, input) ← readSeparated read count input.tail
        return (first :: items, input)
      else return ([first], input)

/-- The items up to a closing bracket. -/
def readItems (close : UInt8) (read : Reader α) : Reader (List α) :=
  fun input =>
    let inside := dropBlanks input
    if inside.head? = some close then some ([], inside.tail)
    else do
      let (items, input) ← readSeparated read input.length input
      if input.head? = some close then return (items, input.tail) else none

def readMember (read : Reader Value) : Reader (List UInt16 × Value) :=
  fun input => do
    let (key, input) ← readPadded readString input
    if input.head? = some 0x3a then
      let (item, input) ← readPadded read input.tail
      return ((key, item), input)
    else none

def readScalar : Reader Value := fun input =>
  if nullText <+: input then some (.null, input.drop nullText.length)
  else if booleanText true <+: input then
    some (.boolean true, input.drop (booleanText true).length)
  else if booleanText false <+: input then
    some (.boolean false, input.drop (booleanText false).length)
  else (readNumeral input).map fun (numeral, rest) =>
    (.number numeral.value, rest)

/-- A value of at most this nesting. -/
def readValue : ℕ → Reader Value
  | 0, _ => none
  | depth + 1, input =>
      if input.head? = some 0x22 then
        (readString input).map fun (units, rest) => (.string units, rest)
      else if input.head? = some 0x5b then
        (readItems 0x5d (readPadded (readValue depth)) input.tail).map
          fun (items, rest) => (.array items, rest)
      else if input.head? = some 0x7b then
        (readItems 0x7d (readMember (readValue depth)) input.tail).map
          fun (members, rest) => (.object members, rest)
      else readScalar input

/-- The value of a whole text. -/
def parse (text : List UInt8) : Option Value :=
  match readPadded (readValue text.length) text with
  | some (value, []) => some value
  | _ => none

/-! ## Where a reader stops -/

/-- No number goes on with this input. -/
def Stops (tail : List UInt8) : Prop :=
  ∀ byte ∈ tail.head?,
    ¬IsDigit byte ∧ byte ≠ 0x2e ∧ byte ≠ 0x65 ∧ byte ≠ 0x45

/-- Neither a number nor a blank goes on with this input. -/
def Ends (tail : List UInt8) : Prop :=
  Stops tail ∧ ∀ byte ∈ tail.head?, ¬IsBlank byte

/-- In front of every tail of this kind the reader takes exactly the text. -/
def Reads (before : List UInt8 → Prop) (read : Reader α) (text : List UInt8)
    (value : α) : Prop :=
  ∀ tail, before tail → read (text ++ tail) = some (value, tail)

theorem stops_nil : Stops [] := by
  intro byte hbyte
  contradiction

theorem ends_nil : Ends [] := ⟨stops_nil, by intro byte hbyte; contradiction⟩

theorem stops_cons {byte : UInt8} (rest : List UInt8)
    (hbyte : ¬IsDigit byte ∧ byte ≠ 0x2e ∧ byte ≠ 0x65 ∧ byte ≠ 0x45) :
    Stops (byte :: rest) := by
  intro found hfound
  rw [List.head?_cons, Option.mem_some_iff] at hfound
  rwa [← hfound]

theorem ends_cons {byte : UInt8} (rest : List UInt8)
    (hbyte : ¬IsDigit byte ∧ byte ≠ 0x2e ∧ byte ≠ 0x65 ∧ byte ≠ 0x45)
    (hblank : ¬IsBlank byte) : Ends (byte :: rest) := by
  refine ⟨stops_cons rest hbyte, ?_⟩
  intro found hfound
  rw [List.head?_cons, Option.mem_some_iff] at hfound
  rwa [← hfound]

theorem IsBlank.not_number {byte : UInt8} (hblank : IsBlank byte) :
    ¬IsDigit byte ∧ byte ≠ 0x2e ∧ byte ≠ 0x65 ∧ byte ≠ 0x45 := by
  rcases hblank with rfl | rfl | rfl | rfl <;> decide

theorem Stops.blanks {blanks tail : List UInt8}
    (hblanks : ∀ byte ∈ blanks, IsBlank byte) (htail : Stops tail) :
    Stops (blanks ++ tail) := by
  cases blanks with
  | nil => exact htail
  | cons byte rest =>
      exact stops_cons _ (hblanks byte List.mem_cons_self).not_number

/-! ## Blanks and digits -/

theorem takeWhile_append_stop {p : UInt8 → Bool} {front tail : List UInt8}
    (hfront : ∀ byte ∈ front, p byte = true)
    (htail : ∀ byte ∈ tail.head?, p byte = false) :
    (front ++ tail).takeWhile p = front ∧
      (front ++ tail).dropWhile p = tail := by
  rw [List.takeWhile_append_of_pos hfront, List.dropWhile_append_of_pos hfront]
  cases tail with
  | nil => exact ⟨List.append_nil _, rfl⟩
  | cons byte rest =>
      have hstop := htail byte rfl
      rw [List.takeWhile_cons_of_neg (by rw [hstop]; exact Bool.false_ne_true),
        List.dropWhile_cons_of_neg (by rw [hstop]; exact Bool.false_ne_true)]
      exact ⟨List.append_nil _, rfl⟩

theorem dropBlanks_append {blanks tail : List UInt8}
    (hblanks : ∀ byte ∈ blanks, IsBlank byte)
    (htail : ∀ byte ∈ tail.head?, ¬IsBlank byte) :
    dropBlanks (blanks ++ tail) = tail :=
  (takeWhile_append_stop (fun byte hbyte => decide_eq_true (hblanks byte hbyte))
    fun byte hbyte => decide_eq_false (htail byte hbyte)).2

theorem readDigits_append {digits tail : List UInt8} (hdigits : Digits digits)
    (htail : ∀ byte ∈ tail.head?, ¬IsDigit byte) :
    readDigits (digits ++ tail) = some (digits, tail) := by
  obtain ⟨htake, hdrop⟩ := @takeWhile_append_stop _ _ tail
    (fun byte hbyte => decide_eq_true (hdigits.2 byte hbyte))
    fun byte hbyte => decide_eq_false (htail byte hbyte)
  unfold readDigits
  simp only [htake, hdrop]
  rw [if_neg hdigits.1]

/-! ## Numbers -/

theorem readFraction_append {fraction tail : List UInt8}
    (hfraction : ∀ byte ∈ fraction, IsDigit byte)
    (htail : ∀ byte ∈ tail.head?, ¬IsDigit byte ∧ byte ≠ 0x2e) :
    readFraction ((if fraction = [] then [] else 0x2e :: fraction) ++ tail) =
      some (fraction, tail) := by
  unfold readFraction
  by_cases hempty : fraction = []
  · have hpoint : tail.head? ≠ some 0x2e := fun hhead =>
      (htail 0x2e hhead).2 rfl
    rw [if_pos hempty, List.nil_append, if_neg hpoint, hempty]
  · rw [if_neg hempty, List.cons_append, List.head?_cons, if_pos rfl,
      List.tail_cons]
    exact readDigits_append ⟨hempty, hfraction⟩ fun byte hbyte =>
      (htail byte hbyte).1

theorem readSign_append {sign digits tail : List UInt8}
    (hsign : sign = [] ∨ sign = [0x2b] ∨ sign = [0x2d])
    (hdigits : Digits digits) :
    readSign (sign ++ (digits ++ tail)) = some (sign, digits ++ tail) := by
  unfold readSign
  rcases hsign with rfl | rfl | rfl
  · obtain ⟨hnonempty, hall⟩ := hdigits
    cases digits with
    | nil => contradiction
    | cons digit rest =>
        have hdigit := hall digit List.mem_cons_self
        rw [List.nil_append, List.cons_append, List.head?_cons, if_neg]
        rintro (hplus | hminus)
        · rw [Option.some.inj hplus] at hdigit
          exact absurd hdigit (by decide)
        · rw [Option.some.inj hminus] at hdigit
          exact absurd hdigit (by decide)
  · rfl
  · rfl

theorem readExponent_append {exponent : Option Exponent} {tail : List UInt8}
    (hexponent : ∀ found ∈ exponent, found.WellFormed) (htail : Stops tail) :
    readExponent (exponent.elim [] Exponent.text ++ tail) =
      some (exponent, tail) := by
  cases exponent with
  | none =>
      rw [Option.elim_none, List.nil_append]
      cases tail with
      | nil => rfl
      | cons byte rest =>
          obtain ⟨-, -, hsmall, hlarge⟩ := htail byte rfl
          exact if_neg (not_or.mpr ⟨hsmall, hlarge⟩)
  | some found =>
      obtain ⟨hmark, hsign, hdigits⟩ := hexponent found rfl
      have hread := readDigits_append hdigits fun byte hbyte =>
        (htail byte hbyte).1
      rw [Option.elim_some, Exponent.text, List.cons_append, List.append_assoc]
      dsimp only [readExponent]
      rw [if_pos hmark, readSign_append hsign hdigits]
      dsimp only [Option.bind_eq_bind, Option.bind_some]
      rw [hread]
      rfl

/-- The exponent goes on neither with a digit nor with a point. -/
theorem exponent_append_head {exponent : Option Exponent} {tail : List UInt8}
    (hexponent : ∀ found ∈ exponent, found.WellFormed) (htail : Stops tail) :
    ∀ byte ∈ (exponent.elim [] Exponent.text ++ tail).head?,
      ¬IsDigit byte ∧ byte ≠ 0x2e := by
  cases exponent with
  | none => exact fun byte hbyte =>
      ⟨(htail byte hbyte).1, (htail byte hbyte).2.1⟩
  | some found =>
      intro byte hbyte
      rw [Option.elim_some, Exponent.text, List.cons_append, List.head?_cons,
        Option.mem_some_iff] at hbyte
      rw [← hbyte]
      rcases (hexponent found rfl).mark with hmark | hmark
      · rw [hmark]
        decide
      · rw [hmark]
        decide

/-- What follows the digits before the point is not another digit. -/
theorem fraction_append_head {fraction tail : List UInt8}
    (htail : ∀ byte ∈ tail.head?, ¬IsDigit byte ∧ byte ≠ 0x2e) :
    ∀ byte ∈ ((if fraction = [] then [] else 0x2e :: fraction) ++ tail).head?,
      ¬IsDigit byte := by
  intro byte hbyte
  split at hbyte
  · exact (htail byte hbyte).1
  · rw [List.cons_append, List.head?_cons, Option.mem_some_iff] at hbyte
    rw [← hbyte]
    decide

theorem readNumeral_reads {numeral : Numeral} (hnumeral : numeral.WellFormed) :
    Reads Stops readNumeral numeral.text numeral := by
  intro tail htail
  obtain ⟨hwhole, hleading, hfraction, hexponent⟩ := hnumeral
  obtain ⟨negative, whole, fraction, exponent⟩ := numeral
  dsimp only at hwhole hleading hfraction hexponent
  have hafter := exponent_append_head hexponent htail
  have hdigits := readDigits_append hwhole
    (@fraction_append_head fraction _ hafter)
  have hsign : ∀ rest, (whole ++ rest).head? ≠ some 0x2d := by
    intro rest hminus
    obtain ⟨hnonempty, hall⟩ := hwhole
    cases whole with
    | nil => contradiction
    | cons digit others =>
        have hdigit := hall digit List.mem_cons_self
        rw [List.cons_append, List.head?_cons, Option.some.injEq] at hminus
        rw [hminus] at hdigit
        exact absurd hdigit (by decide)
  have hlead : ¬(whole.head? = some 0x30 ∧ whole.length ≠ 1) := by
    rintro ⟨hzero, hlong⟩
    exact hlong (hleading hzero)
  have hread : ∀ input, decide (input.head? = some 0x2d) = negative →
      (if negative then input.tail else input) =
        whole ++ ((if fraction = [] then [] else 0x2e :: fraction) ++
          (exponent.elim [] Exponent.text ++ tail)) →
      readNumeral input =
        some (⟨negative, whole, fraction, exponent⟩, tail) := by
    intro input hnegative hinput
    unfold readNumeral
    simp only [hnegative, hinput, hdigits, Option.bind_eq_bind,
      Option.bind_some]
    rw [if_neg hlead, readFraction_append hfraction hafter]
    dsimp only [Option.bind_some]
    rw [readExponent_append hexponent htail]
    rfl
  unfold Numeral.text
  dsimp only
  rw [List.append_assoc, List.append_assoc, List.append_assoc]
  cases negative with
  | true => exact hread _ rfl rfl
  | false =>
      rw [if_neg Bool.false_ne_true, List.nil_append]
      exact hread _ (decide_eq_false (hsign _)) rfl

/-! ## Strings -/

theorem escaped_ne {letter : UInt8} {unit : UInt16}
    (hletter : escaped letter = some unit) : letter ≠ 0x75 := by
  rintro rfl
  rw [show escaped 0x75 = none by decide] at hletter
  contradiction

theorem readCharacters_quote (rest : List UInt8) :
    readCharacters (0x22 :: rest) = some ([], rest) := by
  rw [readCharacters.eq_def]
  exact if_pos rfl

theorem readCharacters_plain {byte : UInt8} (rest : List UInt8)
    (hcontrol : 0x20 ≤ byte) (hquote : byte ≠ 0x22) (hescape : byte ≠ 0x5c) :
    readCharacters (byte :: rest) =
      withUnit (some byte.toUInt16) (readCharacters rest) := by
  conv_lhs => rw [readCharacters.eq_def]
  dsimp only
  rw [if_neg hquote, if_neg hescape, if_neg (UInt8.not_lt.mpr hcontrol)]

theorem readCharacters_short {letter : UInt8} (rest : List UInt8)
    (hletter : letter ≠ 0x75) :
    readCharacters (0x5c :: letter :: rest) =
      withUnit (escaped letter) (readCharacters rest) := by
  conv_lhs => rw [readCharacters.eq_def]
  dsimp only
  rw [if_neg (by decide), if_pos rfl, if_neg hletter]

theorem readCharacters_code (a b c d : UInt8) (rest : List UInt8) :
    readCharacters (0x5c :: 0x75 :: a :: b :: c :: d :: rest) =
      withUnit (codeUnit a b c d) (readCharacters rest) := by
  conv_lhs => rw [readCharacters.eq_def]
  dsimp only
  rw [if_neg (by decide), if_pos rfl, if_pos rfl]

theorem readCharacters_append {body : List UInt8} {units : List UInt16}
    (hbody : Characters body units) (tail : List UInt8) :
    readCharacters (body ++ 0x22 :: tail) = some (units, tail) := by
  induction hbody with
  | nil => exact readCharacters_quote tail
  | plain hcontrol hquote hescape _ ih =>
      rw [List.cons_append, readCharacters_plain _ hcontrol hquote hescape, ih]
      rfl
  | short hletter _ ih =>
      rw [List.cons_append, List.cons_append,
        readCharacters_short _ (escaped_ne hletter), ih, hletter]
      rfl
  | code hunit _ ih =>
      simp only [List.cons_append]
      rw [readCharacters_code, ih, hunit]
      rfl

theorem readString_append {text : List UInt8} {units : List UInt16}
    (htext : IsString text units) (tail : List UInt8) :
    readString (text ++ tail) = some (units, tail) := by
  obtain ⟨body, rfl, hbody⟩ := htext
  rw [List.cons_append, List.append_assoc, readString, List.head?_cons,
    if_pos rfl]
  exact readCharacters_append hbody tail

/-! ## Lists -/

/-- The text begins with a byte that a padded reader does not skip, and that no
closing bracket is. -/
def Begins (text : List UInt8) : Prop :=
  ∃ byte rest, text = byte :: rest ∧ ¬IsBlank byte ∧ byte ≠ 0x5d ∧ byte ≠ 0x7d

theorem Begins.append {text : List UInt8} (hbegins : Begins text)
    (tail : List UInt8) : Begins (text ++ tail) := by
  obtain ⟨byte, rest, rfl, hbyte⟩ := hbegins
  exact ⟨byte, rest ++ tail, rfl, hbyte⟩

theorem Begins.length_pos {text : List UInt8} (hbegins : Begins text) :
    0 < text.length := by
  obtain ⟨byte, rest, rfl, -⟩ := hbegins
  exact Nat.succ_pos _

theorem Begins.head {text : List UInt8} (hbegins : Begins text) :
    ∀ byte ∈ text.head?, ¬IsBlank byte := by
  obtain ⟨byte, rest, rfl, hblank, -⟩ := hbegins
  intro found hfound
  rw [List.head?_cons, Option.mem_some_iff] at hfound
  rwa [← hfound]

theorem dropBlanks_padded {padded : Padded α} (hblank : padded.Blank)
    (hbegins : Begins padded.body) (tail : List UInt8) :
    dropBlanks (padded.text ++ tail) =
      padded.body ++ (padded.after ++ tail) := by
  rw [Padded.text, List.append_assoc, List.append_assoc]
  exact dropBlanks_append hblank.before (hbegins.append _).head

theorem readPadded_reads {padded : Padded α} {read : Reader α}
    (hblank : padded.Blank) (hbegins : Begins padded.body)
    (hread : Reads Stops read padded.body padded.value) :
    Reads Ends (readPadded read) padded.text padded.value := by
  intro tail htail
  rw [readPadded, dropBlanks_padded hblank hbegins,
    hread _ (htail.1.blanks hblank.after), Option.map_some]
  dsimp only
  rw [dropBlanks_append hblank.after htail.2]

theorem ends_comma (rest : List UInt8) : Ends (0x2c :: rest) :=
  ends_cons rest (by decide) (by decide)

theorem readSeparated_reads {read : Reader α} (text : β → List UInt8)
    (value : β → α) {items : List β} {count : ℕ} {tail : List UInt8}
    (hitems : ∀ item ∈ items, Reads Ends read (text item) (value item))
    (hnonempty : items ≠ []) (hcount : items.length ≤ count) (htail : Ends tail)
    (hcomma : tail.head? ≠ some 0x2c) :
    readSeparated read count (separated (items.map text) ++ tail) =
      some (items.map value, tail) := by
  induction items generalizing count with
  | nil => contradiction
  | cons item rest ih =>
      have hitem := hitems item List.mem_cons_self
      obtain ⟨count, rfl⟩ := Nat.exists_eq_succ_of_ne_zero
        (Nat.ne_of_gt (Nat.lt_of_lt_of_le (Nat.succ_pos _) hcount))
      rw [readSeparated]
      by_cases hrest : rest = []
      · rw [hrest, List.map_singleton, separated_singleton, hitem tail htail]
        exact if_neg hcomma
      · rw [List.map_cons, separated_cons _ (by rwa [ne_eq, List.map_eq_nil_iff]),
          List.append_assoc, List.cons_append, hitem _ (ends_comma _)]
        dsimp only [Option.bind_eq_bind, Option.bind_some]
        rw [List.head?_cons, if_pos rfl, List.tail_cons,
          ih (fun other hother => hitems other (List.mem_cons_of_mem _ hother))
            hrest (Nat.le_of_succ_le_succ hcount)]
        rfl

theorem length_le_separated (text : β → List UInt8) {items : List β}
    (hitems : ∀ item ∈ items, text item ≠ []) :
    items.length ≤ (separated (items.map text)).length := by
  induction items with
  | nil => exact Nat.zero_le _
  | cons item rest ih =>
      have hitem := List.length_pos_of_ne_nil (hitems item List.mem_cons_self)
      have hrest := ih fun other hother =>
        hitems other (List.mem_cons_of_mem _ hother)
      by_cases hempty : rest = []
      · rw [hempty, List.map_singleton, separated_singleton]
        exact hitem
      · rw [List.map_cons,
          separated_cons _ (by rwa [ne_eq, List.map_eq_nil_iff]),
          List.length_append, List.length_cons, List.length_cons]
        omega

/-- The text begins so after blanks. -/
def BeginsInside (text : List UInt8) : Prop :=
  ∃ before core, text = before ++ core ∧ (∀ byte ∈ before, IsBlank byte) ∧
    Begins core

theorem BeginsInside.append {text : List UInt8} (hbegins : BeginsInside text)
    (tail : List UInt8) : BeginsInside (text ++ tail) := by
  obtain ⟨before, core, rfl, hbefore, hcore⟩ := hbegins
  exact ⟨before, core ++ tail, List.append_assoc _ _ _, hbefore,
    hcore.append tail⟩

theorem BeginsInside.ne_nil {text : List UInt8} (hbegins : BeginsInside text) :
    text ≠ [] := by
  obtain ⟨before, core, rfl, -, byte, rest, rfl, -⟩ := hbegins
  simp

theorem BeginsInside.dropBlanks {text : List UInt8}
    (hbegins : BeginsInside text) : Begins (dropBlanks text) := by
  obtain ⟨before, core, rfl, hbefore, hcore⟩ := hbegins
  rwa [dropBlanks_append hbefore hcore.head]

theorem Padded.Blank.beginsInside {padded : Padded α} (hblank : padded.Blank)
    (hbegins : Begins padded.body) : BeginsInside padded.text :=
  ⟨padded.before, padded.body ++ padded.after, List.append_assoc _ _ _,
    hblank.before, hbegins.append _⟩

theorem separated_beginsInside {text : β → List UInt8} {items : List β}
    (hnonempty : items ≠ [])
    (hitems : ∀ item ∈ items, BeginsInside (text item)) :
    BeginsInside (separated (items.map text)) := by
  obtain ⟨first, rest, rfl⟩ := List.exists_cons_of_ne_nil hnonempty
  have hfirst := hitems first List.mem_cons_self
  rw [List.map_cons]
  by_cases hrest : rest.map text = []
  · rw [hrest, separated_singleton]
    exact hfirst
  · rw [separated_cons _ hrest]
    exact hfirst.append _

/-- The two closing brackets. -/
theorem ends_close {close : UInt8} (hclose : close = 0x5d ∨ close = 0x7d)
    (tail : List UInt8) : Ends (close :: tail) := by
  rcases hclose with rfl | rfl <;> exact ends_cons tail (by decide) (by decide)

theorem readItems_empty {close : UInt8} (read : Reader α)
    {blanks : List UInt8} (hclose : close = 0x5d ∨ close = 0x7d)
    (hblanks : ∀ byte ∈ blanks, IsBlank byte) (tail : List UInt8) :
    readItems close read (blanks ++ close :: tail) = some ([], tail) := by
  rw [readItems, dropBlanks_append hblanks (ends_close hclose tail).2]
  exact if_pos rfl

theorem readItems_append {close : UInt8} {read : Reader α}
    (text : β → List UInt8) (value : β → α) {items : List β}
    (hclose : close = 0x5d ∨ close = 0x7d) (hnonempty : items ≠ [])
    (hbegins : ∀ item ∈ items, BeginsInside (text item))
    (hitems : ∀ item ∈ items, Reads Ends read (text item) (value item))
    (tail : List UInt8) :
    readItems close read (separated (items.map text) ++ close :: tail) =
      some (items.map value, tail) := by
  obtain ⟨byte, rest, hinside, -, hbracket, hbrace⟩ :=
    ((separated_beginsInside hnonempty hbegins).append
      (close :: tail)).dropBlanks
  have hcount : items.length ≤
      (separated (items.map text) ++ close :: tail).length := by
    have hle := length_le_separated text fun item hitem =>
      (hbegins item hitem).ne_nil
    rw [List.length_append]
    omega
  have hcomma : (close :: tail).head? ≠ some 0x2c := by
    rw [List.head?_cons, ne_eq, Option.some.injEq]
    rcases hclose with rfl | rfl
    · decide
    · decide
  have hopen : ¬(byte :: rest).head? = some close := by
    rw [List.head?_cons, Option.some.injEq]
    rintro rfl
    exact hclose.elim hbracket hbrace
  rw [readItems, hinside]
  dsimp only
  rw [if_neg hopen,
    readSeparated_reads text value hitems hnonempty hcount
      (ends_close hclose tail) hcomma]
  exact if_pos rfl

/-! ## Values -/

theorem isString_begins {text : List UInt8} {units : List UInt16}
    (htext : IsString text units) : Begins text := by
  obtain ⟨body, rfl, -⟩ := htext
  exact ⟨0x22, _, rfl, by decide, by decide, by decide⟩

theorem digit_begins {byte : UInt8} (hbyte : IsDigit byte) :
    ¬IsBlank byte ∧ byte ≠ 0x5d ∧ byte ≠ 0x7d := by
  refine ⟨fun hblank => hblank.not_number.1 hbyte, ?_, ?_⟩
  · rintro rfl
    exact absurd hbyte (by decide)
  · rintro rfl
    exact absurd hbyte (by decide)

theorem numeral_begins {numeral : Numeral} (hnumeral : numeral.WellFormed) :
    ∃ byte rest, numeral.text = byte :: rest ∧
      (byte = 0x2d ∨ IsDigit byte) := by
  obtain ⟨⟨hnonempty, hall⟩, -⟩ := hnumeral
  obtain ⟨digit, others, hwhole⟩ := List.exists_cons_of_ne_nil hnonempty
  rw [hwhole] at hall
  rw [Numeral.text, hwhole]
  cases numeral.negative with
  | true => exact ⟨0x2d, _, rfl, Or.inl rfl⟩
  | false => exact ⟨digit, _, rfl, Or.inr (hall digit List.mem_cons_self)⟩

theorem Spells.begins {text : List UInt8} {value : Value}
    (hspells : Spells text value) : Begins text := by
  cases hspells with
  | null => exact ⟨_, _, rfl, by decide, by decide, by decide⟩
  | boolean flag =>
      cases flag <;> exact ⟨_, _, rfl, by decide, by decide, by decide⟩
  | number hnumeral =>
      obtain ⟨byte, rest, htext, rfl | hdigit⟩ := numeral_begins hnumeral
      · exact ⟨_, rest, htext, by decide, by decide, by decide⟩
      · exact ⟨byte, rest, htext, digit_begins hdigit⟩
  | string htext => exact isString_begins htext
  | emptyArray => exact ⟨_, _, rfl, by decide, by decide, by decide⟩
  | array => exact ⟨_, _, rfl, by decide, by decide, by decide⟩
  | emptyObject => exact ⟨_, _, rfl, by decide, by decide, by decide⟩
  | object => exact ⟨_, _, rfl, by decide, by decide, by decide⟩

theorem readMember_reads {entry : Member} {read : Reader Value}
    (hkey : entry.key.Blank) (hitem : entry.item.Blank)
    (hstring : IsString entry.key.body entry.key.value)
    (hbegins : Begins entry.item.body)
    (hread : Reads Stops read entry.item.body entry.item.value) :
    Reads Ends (readMember read) entry.text entry.value := by
  intro tail htail
  have hname : readPadded readString (entry.key.text ++
      0x3a :: (entry.item.text ++ tail)) =
        some (entry.key.value, 0x3a :: (entry.item.text ++ tail)) :=
    readPadded_reads hkey (isString_begins hstring)
      (fun rest _ => readString_append hstring rest) _
      (ends_cons _ (by decide) (by decide))
  have hvalue := readPadded_reads hitem hbegins hread tail htail
  rw [Member.text, List.append_assoc, List.cons_append, readMember, hname]
  dsimp only [Option.bind_eq_bind, Option.bind_some]
  rw [List.head?_cons, if_pos rfl, List.tail_cons, hvalue]
  rfl

theorem not_prefix_of_head {word input : List UInt8} {byte : UInt8}
    (hword : word.head? = some byte) (hinput : input.head? ≠ some byte) :
    ¬word <+: input := by
  rintro ⟨rest, rfl⟩
  cases word with
  | nil => contradiction
  | cons first others => exact hinput hword

theorem readScalar_numeral {numeral : Numeral}
    (hnumeral : numeral.WellFormed) :
    Reads Stops readScalar numeral.text (.number numeral.value) := by
  intro tail htail
  obtain ⟨byte, rest, htext, hbyte⟩ := numeral_begins hnumeral
  have hhead : ∀ {letter : UInt8}, letter ≠ 0x2d → ¬IsDigit letter →
      (numeral.text ++ tail).head? ≠ some letter := by
    intro letter hminus hdigit hletter
    rw [htext, List.cons_append, List.head?_cons, Option.some.injEq] at hletter
    rw [hletter] at hbyte
    exact hbyte.elim hminus hdigit
  rw [readScalar,
    if_neg (not_prefix_of_head rfl (hhead (by decide) (by decide))),
    if_neg (not_prefix_of_head rfl (hhead (by decide) (by decide))),
    if_neg (not_prefix_of_head rfl (hhead (by decide) (by decide))),
    readNumeral_reads hnumeral tail htail]
  rfl

section ReadValue

variable {depth : ℕ} {input : List UInt8}

theorem readValue_scalar {byte : UInt8} (hinput : input.head? = some byte)
    (hbyte : byte ≠ 0x22 ∧ byte ≠ 0x5b ∧ byte ≠ 0x7b) :
    readValue (depth + 1) input = readScalar input := by
  rw [readValue, hinput, if_neg (mt Option.some.inj hbyte.1),
    if_neg (mt Option.some.inj hbyte.2.1),
    if_neg (mt Option.some.inj hbyte.2.2)]

theorem readValue_string :
    readValue (depth + 1) (0x22 :: input) =
      (readString (0x22 :: input)).map fun (units, rest) =>
        (.string units, rest) := by
  rw [readValue, List.head?_cons, if_pos rfl]

theorem readValue_array :
    readValue (depth + 1) (0x5b :: input) =
      (readItems 0x5d (readPadded (readValue depth)) input).map
        fun (items, rest) => (.array items, rest) := by
  rw [readValue, List.head?_cons, if_neg (by decide), if_pos rfl,
    List.tail_cons]

theorem readValue_object :
    readValue (depth + 1) (0x7b :: input) =
      (readItems 0x7d (readMember (readValue depth)) input).map
        fun (members, rest) => (.object members, rest) := by
  rw [readValue, List.head?_cons, if_neg (by decide), if_neg (by decide),
    if_pos rfl, List.tail_cons]

end ReadValue

theorem Padded.body_length_le (padded : Padded α) :
    padded.body.length ≤ padded.text.length := by
  rw [Padded.text, List.length_append, List.length_append]
  omega

theorem Member.body_length_le (entry : Member) :
    entry.item.body.length ≤ entry.text.length := by
  have hle := entry.item.body_length_le
  rw [Member.text, List.length_append, List.length_cons]
  omega

theorem body_length_le {items : List β} {text : β → List UInt8} {item : β}
    (hitem : item ∈ items) :
    (text item).length ≤ (separated (items.map text)).length := by
  induction items with
  | nil => contradiction
  | cons first rest ih =>
      by_cases hempty : rest = []
      · rw [hempty, List.mem_singleton] at hitem
        rw [hempty, hitem, List.map_singleton, separated_singleton]
      · rw [List.map_cons,
          separated_cons _ (by rwa [ne_eq, List.map_eq_nil_iff]),
          List.length_append, List.length_cons]
        rcases List.mem_cons.mp hitem with rfl | hrest
        · omega
        · have hle := ih hrest
          omega

/-- A reader that nests deep enough takes the text of a value. -/
theorem readValue_reads {text : List UInt8} {value : Value}
    (hspells : Spells text value) {depth : ℕ}
    (hdepth : text.length ≤ depth + 1) :
    Reads Stops (readValue (depth + 1)) text value := by
  induction hspells generalizing depth with
  | null =>
      intro tail _
      rw [readValue_scalar rfl (by decide)]
      rfl
  | boolean flag =>
      intro tail _
      cases flag with
      | true =>
          rw [readValue_scalar rfl (by decide)]
          rfl
      | false =>
          rw [readValue_scalar rfl (by decide)]
          rfl
  | number hnumeral =>
      intro tail htail
      obtain ⟨byte, rest, htext, hbyte⟩ := numeral_begins hnumeral
      have hscalar : byte ≠ 0x22 ∧ byte ≠ 0x5b ∧ byte ≠ 0x7b := by
        refine ⟨?_, ?_, ?_⟩
        all_goals
          rintro rfl
          exact absurd hbyte (by decide)
      rw [@readValue_scalar _ _ byte (by rw [htext]; rfl) hscalar]
      exact readScalar_numeral hnumeral tail htail
  | string htext =>
      intro tail _
      have hread := readString_append htext tail
      obtain ⟨body, rfl, -⟩ := htext
      rw [List.cons_append, readValue_string, ← List.cons_append, hread]
      rfl
  | emptyArray hblanks =>
      intro tail _
      rw [List.cons_append, List.append_assoc, readValue_array]
      exact congrArg (Option.map _)
        (readItems_empty _ (Or.inl rfl) hblanks tail)
  | @array items hnonempty hblank hitems ih =>
      intro tail _
      rw [List.length_cons, List.length_append] at hdepth
      have hinside : ∀ item ∈ items,
          Reads Ends (readPadded (readValue depth)) item.text item.value := by
        intro item hitem
        have hbegins := (hitems item hitem).begins
        have hle := @body_length_le _ _ Padded.text _ hitem
        have hbody := item.body_length_le
        have hsome := hbegins.length_pos
        obtain ⟨depth, rfl⟩ := Nat.exists_eq_succ_of_ne_zero
          (by omega : depth ≠ 0)
        exact readPadded_reads (hblank item hitem) hbegins
          (ih item hitem (by omega))
      rw [List.cons_append, List.append_assoc, readValue_array]
      exact congrArg (Option.map _) (readItems_append _ _ (Or.inl rfl)
        hnonempty (fun item hitem =>
          (hblank item hitem).beginsInside (hitems item hitem).begins)
        hinside tail)
  | emptyObject hblanks =>
      intro tail _
      rw [List.cons_append, List.append_assoc, readValue_object]
      exact congrArg (Option.map _)
        (readItems_empty _ (Or.inr rfl) hblanks tail)
  | @object members hnonempty hblank hkeys hitems ih =>
      intro tail _
      rw [List.length_cons, List.length_append] at hdepth
      have hinside : ∀ entry ∈ members,
          Reads Ends (readMember (readValue depth)) entry.text entry.value := by
        intro entry hentry
        have hbegins := (hitems entry hentry).begins
        have hle := @body_length_le _ _ Member.text _ hentry
        have hbody := entry.body_length_le
        have hsome := hbegins.length_pos
        obtain ⟨depth, rfl⟩ := Nat.exists_eq_succ_of_ne_zero
          (by omega : depth ≠ 0)
        exact readMember_reads (hblank entry hentry).1 (hblank entry hentry).2
          (hkeys entry hentry) hbegins (ih entry hentry (by omega))
      rw [List.cons_append, List.append_assoc, readValue_object]
      exact congrArg (Option.map _) (readItems_append _ _ (Or.inr rfl)
        hnonempty (fun entry hentry =>
          ((hblank entry hentry).1.beginsInside
            (isString_begins (hkeys entry hentry))).append _)
        hinside tail)

/-- The reader accepts every text with the value it stands for. -/
theorem parse_of_isText {text : List UInt8} {value : Value}
    (htext : IsText text value) : parse text = some value := by
  obtain ⟨whole, hblank, hspells, rfl, rfl⟩ := htext
  have hsome := hspells.begins.length_pos
  have hlength := whole.body_length_le
  obtain ⟨depth, hdepth⟩ := Nat.exists_eq_succ_of_ne_zero
    (by omega : whole.text.length ≠ 0)
  have hread := readPadded_reads hblank hspells.begins
    (readValue_reads hspells (hdepth ▸ hlength)) [] ends_nil
  rw [List.append_nil] at hread
  rw [parse, hdepth, hread]

/-- The grammar is unambiguous. -/
theorem IsText.unique {text : List UInt8} {value other : Value}
    (htext : IsText text value) (hother : IsText text other) :
    value = other :=
  Option.some.inj ((parse_of_isText htext).symm.trans (parse_of_isText hother))

end Json
