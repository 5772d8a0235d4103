import BinForge.DebugInfo
import BinForge.SignedLeb

/-!
# Reading back a forest of debug entries

A forest is written in pre-order: tag, children flag, attributes, and for an
entry with the flag its children and a zero tag.  The loop that reads it back
keeps no recursion of its own, so every statement is about what the loop makes
of the bytes of one entry, or of one child list, wherever it stands.
-/

namespace BinForge

open StatefulExcept
open StreamCodec
open ByteReader

/-! ## Forests -/

namespace DebugEntry

mutual

/-- The entry without the offsets the parser records. -/
def erase : DebugEntry → DebugEntry
  | ⟨_, tag, hasChildren, attributes, children⟩ =>
      ⟨0, tag, hasChildren, attributes, eraseAll children⟩

def eraseAll : List DebugEntry → List DebugEntry
  | [] => []
  | entry :: rest => erase entry :: eraseAll rest

end

mutual

/-- The number of nested entries on the longest path. -/
def depth : DebugEntry → ℕ
  | ⟨_, _, _, _, children⟩ => depthAll children + 1

def depthAll : List DebugEntry → ℕ
  | [] => 0
  | entry :: rest => max (depth entry) (depthAll rest)

end

end DebugEntry

namespace DebugInfoParser

open DebugEntry

/-! ## Pre-order serialisation -/

def valueBytes : DebugValue → Bytes
  | .unsigned value => ulebBytes value
  | .signed value => slebBytes value
  | .text value => ulebBytes (UInt64.ofNat value.length) ++ value
  | .block _ => []

def attributeBytes (attr : DebugAttribute) : Bytes :=
  ulebBytes attr.name.toUInt64 ++ ulebBytes attr.form.toUInt64 ++
    valueBytes attr.value

/-- An entry up to its children. -/
def entryHead (tag : UInt32) (hasChildren : Bool)
    (attributes : List DebugAttribute) : Bytes :=
  ulebBytes tag.toUInt64 ++ [if hasChildren then 1 else 0] ++
    [UInt8.ofNat attributes.length] ++ attributes.flatMap attributeBytes

mutual

def entryBytes : DebugEntry → Bytes
  | ⟨_, tag, hasChildren, attributes, children⟩ =>
      entryHead tag hasChildren attributes ++
        if hasChildren then forestBytes children ++ [0] else []

def forestBytes : List DebugEntry → Bytes
  | [] => []
  | entry :: rest => entryBytes entry ++ forestBytes rest

end

/-! ## Forests that can be written -/

/-- The form belongs to the value. -/
def AttributeFits (limits : Limits) (attr : DebugAttribute) : Prop :=
  match attr.value with
  | .unsigned _ => attr.form = 1
  | .signed _ => attr.form = 2
  | .text value => attr.form = 3 ∧
      value.length ≤ limits.maxStringBytes.toNat
  | .block _ => False

/-- What one entry must satisfy apart from its children. -/
structure EntryFits (limits : Limits) (tag : UInt32) (hasChildren : Bool)
    (attributes : List DebugAttribute) (children : List DebugEntry) :
    Prop where
  tag : tag ≠ 0
  flag : hasChildren = false → children = []
  count : attributes.length ≤ 255
  attributes : ∀ attr ∈ attributes, AttributeFits limits attr

mutual

def Fits (limits : Limits) : DebugEntry → Prop
  | ⟨_, tag, hasChildren, attributes, children⟩ =>
      EntryFits limits tag hasChildren attributes children ∧
        AllFit limits children

def AllFit (limits : Limits) : List DebugEntry → Prop
  | [] => True
  | entry :: rest => Fits limits entry ∧ AllFit limits rest

end

variable {limits : Limits}

/-! ## Attributes -/

theorem silently_consumes {α : Type} {action : ReaderCall α} {items : Bytes}
    {value : α} {room : ℕ} (haction : Consumes Ahead room action items value) :
    Consumes Ahead room (silently action) items value :=
  Consumes.adaptError _ haction

theorem readText_consumes {value : Bytes}
    (hfits : value.length ≤ limits.maxStringBytes.toNat) :
    Consumes Ahead 0 (do
      let length ← readUleb128
      let reader ← get
      rejectIf (length.toNat > reader.remaining ∨
        length > limits.maxStringBytes) ()
      let bytes ← readBytes length.toNat
      return DebugValue.text bytes)
      (ulebBytes (UInt64.ofNat value.length) ++ value) (.text value) := by
  have hlimit := limits.maxStringBytes.toNat_lt
  have hlength : (UInt64.ofNat value.length).toNat = value.length :=
    UInt64.toNat_ofNat_of_lt' (by
      show value.length < 2 ^ 64
      omega)
  refine (readUleb128_consumes _).bind (Consumes.rejectIf_state ?_ ?_)
  · rintro cursor tail - hahead (hshort | hlong)
    · rw [hahead.remaining, List.length_append, hlength] at hshort
      omega
    · rw [gt_iff_lt, UInt64.lt_iff_toNat_lt, hlength] at hlong
      omega
  · rw [hlength]
    exact (take_consumes_any value).bind_last (Consumes.pure _)

theorem readAttributeValue_consumes {attr : DebugAttribute}
    (hfits : AttributeFits limits attr) :
    Consumes Ahead 0 (readAttributeValue limits attr.form.toUInt64)
      (valueBytes attr.value) attr.value := by
  obtain ⟨name, form, value⟩ := attr
  unfold AttributeFits at hfits
  unfold readAttributeValue
  cases value with
  | unsigned value =>
      obtain rfl : form = 1 := hfits
      exact (silently_consumes (readUleb128_consumes value)).bind_last
        (Consumes.pure _)
  | signed value =>
      obtain rfl : form = 2 := hfits
      exact (silently_consumes (readSleb128_consumes value)).bind_last
        (Consumes.pure _)
  | text value =>
      obtain ⟨rfl, hlength⟩ : form = 3 ∧ _ := hfits
      exact silently_consumes (readText_consumes hlength)
  | block value => exact hfits.elim

theorem readAttribute_consumes {attr : DebugAttribute}
    (hfits : AttributeFits limits attr) :
    Consumes Ahead 0 (readAttribute limits) (attributeBytes attr)
      attr := by
  have hnames : Consumes Ahead 0 (adaptError
      (reportAt .truncated "debug attribute truncated") do
        let name ← readUleb128
        let form ← readUleb128
        return (name, form))
      (ulebBytes attr.name.toUInt64 ++ ulebBytes attr.form.toUInt64)
      (attr.name.toUInt64, attr.form.toUInt64) :=
    Consumes.adaptError _ ((readUleb128_consumes _).bind
      ((readUleb128_consumes _).bind_last (Consumes.pure _)))
  refine hnames.bind ((readAttributeValue_consumes hfits).bind_last ?_)
  rw [UInt32.toUInt32_toUInt64, UInt32.toUInt32_toUInt64]
  exact Consumes.pure attr

/-! ## Rounds of the loop -/

theorem readEntry_of_ahead {tag : UInt32} {hasChildren : Bool}
    {attributes : List DebugAttribute} {children : List DebugEntry}
    {cursor : ByteReader} {tail : Bytes}
    (hfits : EntryFits limits tag hasChildren attributes children)
    (hahead : Ahead cursor ([if hasChildren then 1 else 0] ++
      [UInt8.ofNat attributes.length] ++ attributes.flatMap attributeBytes ++
        tail)) :
    ∃ offset next, readEntry limits tag.toUInt64 cursor =
        .ok { offset, tag, hasChildren, attributes } next ∧
      Ahead next tail := by
  have hcount := ofNat_byte_toNat
    (Nat.lt_succ_of_le (hfits.count : attributes.length ≤ 255))
  have hheader : Consumes Ahead 0 readEntryHeader
      ([if hasChildren then 1 else 0] ++ [UInt8.ofNat attributes.length])
      (if hasChildren then 1 else 0, UInt8.ofNat attributes.length) :=
    (readU8_consumes_any _).bind
      ((readU8_consumes_any _).bind_last (Consumes.pure _))
  rw [List.append_assoc] at hahead
  obtain ⟨middle, hread, hmiddle⟩ := Consumes.adaptError
    (reportAt .truncated "debug entry header truncated") hheader cursor _
    (Nat.zero_le _) hahead
  obtain ⟨next, hvalues, hnext⟩ := Consumes.collect id
    (fun attr hattr => readAttribute_consumes (hfits.attributes attr hattr))
    middle tail (Nat.zero_le _) hmiddle
  refine ⟨UInt64.ofNat middle.position, next, ?_, hnext⟩
  have hflag : ((if hasChildren then 1 else 0 : UInt8) != 0) = hasChildren := by
    cases hasChildren <;> rfl
  unfold readEntry
  rw [bind_of_ok hread]
  dsimp only
  rw [bind_of_ok (get_apply middle), hcount, bind_of_ok hvalues, pure_apply,
    hflag, List.map_id, UInt32.toUInt32_toUInt64]

theorem ulebBytes_length_pos (value : UInt64) : 0 < (ulebBytes value).length := by
  rw [ulebBytes, unsignedLeb]
  split <;> exact Nat.succ_pos _

/-- A round that finds a tag continues with it. -/
theorem entryLoop_of_tag {rounds : ℕ} {tag : UInt64} {state : EntryState}
    {tail : Bytes} (hahead : Ahead state.reader (ulebBytes tag ++ tail)) :
    ∃ next, Ahead next tail ∧
      entryLoop limits (rounds + 1) state =
        entryRound limits (entryLoop limits rounds) tag
          { state with reader := next } := by
  obtain ⟨next, hread, hnext⟩ := Consumes.adaptError
    (reportAt .truncated "debug tag truncated") (readUleb128_consumes tag)
    state.reader tail (Nat.zero_le _) hahead
  refine ⟨next, hnext, ?_⟩
  have hpositive := ulebBytes_length_pos tag
  have hmore : state.reader.remaining ≠ 0 := by
    rw [hahead.remaining, List.length_append]
    omega
  rw [entryLoop, bind_of_ok (get_apply state), if_neg hmore,
    bind_of_ok (reading_of_ok hread)]

/-- A zero tag closes the innermost child list. -/
theorem entryLoop_close {rounds : ℕ} {state : EntryState} {tail : Bytes}
    (hlevels : state.levels ≠ 1) (hahead : Ahead state.reader ([0] ++ tail)) :
    ∃ next, Ahead next tail ∧
      entryLoop limits (rounds + 1) state =
        entryLoop limits rounds { state.pop with reader := next } := by
  obtain ⟨next, hnext, hround⟩ := @entryLoop_of_tag limits rounds 0 _ _
    hahead
  refine ⟨next, hnext, ?_⟩
  rw [hround, entryRound, bind_of_ok (get_apply _), if_pos rfl, if_neg hlevels,
    bind_of_ok (set_apply _ _)]
  rfl

/-- An entry within the nesting limit is appended. -/
theorem entryLoop_entry {rounds : ℕ} {state : EntryState} {tag : UInt32}
    {hasChildren : Bool} {attributes : List DebugAttribute}
    {children : List DebugEntry} {tail : Bytes}
    (hfits : EntryFits limits tag hasChildren attributes children)
    (hlevels : state.levels ≤ limits.maxDebugDepth.toNat)
    (hahead : Ahead state.reader
      (entryHead tag hasChildren attributes ++ tail)) :
    ∃ offset next, Ahead next tail ∧
      entryLoop limits (rounds + 1) state = entryLoop limits rounds
        ({ state with reader := next }.push
          { offset, tag, hasChildren, attributes }) := by
  rw [entryHead, List.append_assoc, List.append_assoc, List.append_assoc]
    at hahead
  obtain ⟨middle, hmiddle, hround⟩ := @entryLoop_of_tag limits rounds _ _ _
    hahead
  rw [← List.append_assoc, ← List.append_assoc] at hmiddle
  obtain ⟨offset, next, hentry, hnext⟩ := readEntry_of_ahead hfits hmiddle
  have hnonzero : tag.toUInt64 ≠ 0 := by
    rw [ne_eq, ← UInt64.toNat_inj, UInt32.toNat_toUInt64]
    exact fun hzero => hfits.tag (UInt32.toNat_inj.mp hzero)
  refine ⟨offset, next, hnext, ?_⟩
  rw [hround, entryRound, bind_of_ok (get_apply _), if_neg hnonzero,
    rejectIf_bind_of_not (not_lt.mpr hlevels),
    bind_of_ok (reading_of_ok hentry), bind_of_ok (modify_apply _ _)]

/-- An entry beyond the nesting limit ends the loop. -/
theorem entryLoop_deep {rounds : ℕ} {state : EntryState} {tag : UInt32}
    {tail : Bytes} (htag : tag ≠ 0)
    (hlevels : limits.maxDebugDepth.toNat < state.levels)
    (hahead : Ahead state.reader (ulebBytes tag.toUInt64 ++ tail)) :
    ∃ why last, entryLoop limits (rounds + 1) state = .error why last := by
  obtain ⟨next, -, hround⟩ := @entryLoop_of_tag limits rounds _ _ _
    hahead
  have hnonzero : tag.toUInt64 ≠ 0 := by
    rw [ne_eq, ← UInt64.toNat_inj, UInt32.toNat_toUInt64]
    exact fun hzero => htag (UInt32.toNat_inj.mp hzero)
  rw [hround, entryRound, bind_of_ok (get_apply _), if_neg hnonzero, bind_apply,
    rejectIf_of _ _ hlevels]
  exact ⟨_, _, rfl⟩

/-! ## Whole entries -/

theorem appendAt_child (depth : ℕ) (entries : List DebugEntry)
    (entry child : DebugEntry) :
    appendAt (depth + 1) (appendAt depth entries entry) child =
      appendAt depth entries
        { entry with children := entry.children ++ [child] } := by
  induction depth generalizing entries with
  | zero => simp [appendAt]
  | succ depth ih =>
      rw [appendAt, appendAt, appendAt]
      cases hlast : entries.getLast? with
      | none => rw [hlast]
      | some last =>
          simp only [List.getLast?_concat, List.dropLast_concat, ih]

/-- Appending children one by one fills the child list of the entry. -/
theorem foldl_appendAt (depth : ℕ) (entries : List DebugEntry)
    (entry : DebugEntry) (children : List DebugEntry) :
    children.foldl (appendAt (depth + 1)) (appendAt depth entries entry) =
      appendAt depth entries
        { entry with children := entry.children ++ children } := by
  induction children generalizing entry with
  | nil =>
      cases entry
      rw [List.append_nil, List.foldl_nil]
  | cons child rest ih =>
      rw [List.foldl_cons, appendAt_child, ih, List.append_assoc,
        List.singleton_append]

/-- The loop, at this many levels, appends the forest to the innermost list
when it comes to these bytes. -/
def ReadsAs (limits : Limits) (levels : ℕ) (bytes : Bytes)
    (forest : List DebugEntry) : Prop :=
  ∀ (rounds : ℕ) (reader : ByteReader) (entries : List DebugEntry)
    (tail : Bytes), bytes.length + tail.length ≤ rounds →
    Ahead reader (bytes ++ tail) →
    ∃ found remaining next, eraseAll found = eraseAll forest ∧
      tail.length ≤ remaining ∧ Ahead next tail ∧
      entryLoop limits rounds { reader, entries, levels } =
        entryLoop limits remaining
          { reader := next
            entries := found.foldl (appendAt (levels - 1)) entries, levels }

/-- The loop fails when it comes to these bytes at this many levels. -/
def FailsAt (limits : Limits) (levels : ℕ) (bytes : Bytes) : Prop :=
  ∀ (rounds : ℕ) (reader : ByteReader) (entries : List DebugEntry)
    (tail : Bytes), bytes.length + tail.length ≤ rounds →
    Ahead reader (bytes ++ tail) →
    ∃ why last,
      entryLoop limits rounds { reader, entries, levels } = .error why last

variable {levels : ℕ}

theorem eraseAll_append (front back : List DebugEntry) :
    eraseAll (front ++ back) = eraseAll front ++ eraseAll back := by
  induction front with
  | nil => rfl
  | cons entry rest ih => rw [List.cons_append, eraseAll, eraseAll, ih,
      List.cons_append]

theorem ReadsAs.nil : ReadsAs limits levels [] [] := by
  intro rounds reader entries tail hrounds hahead
  rw [List.length_nil, Nat.zero_add] at hrounds
  exact ⟨[], rounds, reader, rfl, hrounds, hahead, rfl⟩

theorem ReadsAs.append {first second : Bytes} {front back : List DebugEntry}
    (hfirst : ReadsAs limits levels first front)
    (hsecond : ReadsAs limits levels second back) :
    ReadsAs limits levels (first ++ second) (front ++ back) := by
  intro rounds reader entries tail hrounds hahead
  rw [List.length_append] at hrounds
  rw [List.append_assoc] at hahead
  obtain ⟨found, middle, between, hfound, hmiddle, hbetween, hrun⟩ :=
    hfirst rounds reader entries (second ++ tail)
      (by rw [List.length_append]; omega) hahead
  rw [List.length_append] at hmiddle
  obtain ⟨more, remaining, next, hmore, hremaining, hnext, hagain⟩ :=
    hsecond middle between _ tail hmiddle hbetween
  refine ⟨found ++ more, remaining, next, ?_, hremaining, hnext, ?_⟩
  · rw [eraseAll_append, hfound, hmore, eraseAll_append]
  · rw [hrun, hagain, List.foldl_append]

theorem ReadsAs.append_fails {first second : Bytes} {front : List DebugEntry}
    (hfirst : ReadsAs limits levels first front)
    (hsecond : FailsAt limits levels second) :
    FailsAt limits levels (first ++ second) := by
  intro rounds reader entries tail hrounds hahead
  rw [List.length_append] at hrounds
  rw [List.append_assoc] at hahead
  obtain ⟨found, middle, between, -, hmiddle, hbetween, hrun⟩ :=
    hfirst rounds reader entries (second ++ tail)
      (by rw [List.length_append]; omega) hahead
  rw [List.length_append] at hmiddle
  obtain ⟨why, last, hfail⟩ := hsecond middle between _ tail hmiddle hbetween
  exact ⟨why, last, hrun.trans hfail⟩

theorem FailsAt.append {first : Bytes} (second : Bytes)
    (hfirst : FailsAt limits levels first) :
    FailsAt limits levels (first ++ second) := by
  intro rounds reader entries tail hrounds hahead
  rw [List.length_append] at hrounds
  rw [List.append_assoc] at hahead
  exact hfirst rounds reader entries (second ++ tail)
    (by rw [List.length_append]; omega) hahead

theorem entryHead_length_pos (tag : UInt32) (hasChildren : Bool)
    (attributes : List DebugAttribute) :
    0 < (entryHead tag hasChildren attributes).length := by
  simp [entryHead]

/-- An entry without children. -/
theorem readsAs_leaf {offset : UInt64} {tag : UInt32}
    {attributes : List DebugAttribute}
    (hfits : EntryFits limits tag false attributes [])
    (hlevels : levels ≤ limits.maxDebugDepth.toNat) :
    ReadsAs limits levels (entryHead tag false attributes)
      [⟨offset, tag, false, attributes, []⟩] := by
  intro rounds reader entries tail hrounds hahead
  have hpositive := entryHead_length_pos tag false attributes
  obtain ⟨rounds, rfl⟩ := Nat.exists_eq_succ_of_ne_zero
    (show rounds ≠ 0 by omega)
  obtain ⟨found, next, hnext, hrun⟩ := @entryLoop_entry _ rounds
    { reader, entries, levels } _ _ _ _ _ hfits hlevels hahead
  exact ⟨[⟨found, tag, false, attributes, []⟩], rounds, next, rfl, by omega,
    hnext, hrun⟩

/-- An entry with children is read when its child list is, one level down. -/
theorem readsAs_node {offset : UInt64} {tag : UInt32}
    {attributes : List DebugAttribute} {children : List DebugEntry}
    (hfits : EntryFits limits tag true attributes children)
    (hpositive : 1 ≤ levels) (hlevels : levels ≤ limits.maxDebugDepth.toNat)
    (hchildren : ReadsAs limits (levels + 1) (forestBytes children) children) :
    ReadsAs limits levels
      (entryHead tag true attributes ++ (forestBytes children ++ [0]))
      [⟨offset, tag, true, attributes, children⟩] := by
  intro rounds reader entries tail hrounds hahead
  have hhead := entryHead_length_pos tag true attributes
  rw [List.length_append, List.length_append, List.length_singleton] at hrounds
  obtain ⟨rounds, rfl⟩ := Nat.exists_eq_succ_of_ne_zero
    (show rounds ≠ 0 by omega)
  rw [List.append_assoc] at hahead
  obtain ⟨place, middle, hmiddle, hrun⟩ := @entryLoop_entry _ rounds
    { reader, entries, levels } _ _ _ _ _ hfits hlevels hahead
  rw [List.append_assoc] at hmiddle
  obtain ⟨found, remaining, last, hfound, hremaining, hlast, hinside⟩ :=
    hchildren rounds middle
      (appendAt (levels - 1) entries ⟨place, tag, true, attributes, []⟩)
      ([0] ++ tail)
      (by rw [List.length_append, List.length_singleton]; omega) hmiddle
  rw [List.length_append, List.length_singleton] at hremaining
  obtain ⟨remaining, rfl⟩ := Nat.exists_eq_succ_of_ne_zero
    (show remaining ≠ 0 by omega)
  obtain ⟨next, hnext, hclose⟩ := @entryLoop_close limits
    remaining
    { reader := last
      entries := found.foldl (appendAt (levels + 1 - 1))
        (appendAt (levels - 1) entries ⟨place, tag, true, attributes, []⟩)
      levels := levels + 1 } _
    (by show levels + 1 ≠ 1; omega) hlast
  refine ⟨[⟨place, tag, true, attributes, found⟩], remaining, next, ?_,
    by omega, hnext, ?_⟩
  · rw [eraseAll, erase, eraseAll, eraseAll, erase, eraseAll, hfound]
  · obtain ⟨depth, rfl⟩ : ∃ depth, levels = depth + 1 :=
      ⟨levels - 1, by omega⟩
    have hfilled := foldl_appendAt depth entries
      ⟨place, tag, true, attributes, []⟩ found
    exact (hrun.trans (hinside.trans hclose)).trans (congrArg
      (fun filled => entryLoop limits remaining
        { reader := next, entries := filled, levels := depth + 1 }) hfilled)

mutual

theorem entry_readsAs : ∀ (entry : DebugEntry) {levels : ℕ}, 1 ≤ levels →
    Fits limits entry →
    levels - 1 + depth entry ≤ limits.maxDebugDepth.toNat →
    ReadsAs limits levels (entryBytes entry) [entry]
  | ⟨offset, tag, hasChildren, attributes, children⟩, levels, hpositive, hfits,
      hdepth => by
      rw [Fits] at hfits
      rw [depth] at hdepth
      rw [entryBytes]
      cases hasChildren with
      | false =>
          obtain rfl := hfits.1.flag rfl
          rw [if_neg Bool.false_ne_true, List.append_nil]
          exact readsAs_leaf hfits.1 (by omega)
      | true =>
          rw [if_pos rfl]
          exact readsAs_node hfits.1 hpositive (by omega)
            (forest_readsAs children (by omega) hfits.2 (by omega))

theorem forest_readsAs : ∀ (forest : List DebugEntry) {levels : ℕ},
    1 ≤ levels → AllFit limits forest →
    levels - 1 + depthAll forest ≤ limits.maxDebugDepth.toNat →
    ReadsAs limits levels (forestBytes forest) forest
  | [], levels, _, _, _ => by
      rw [forestBytes]
      exact ReadsAs.nil
  | entry :: rest, levels, hpositive, hfits, hdepth => by
      rw [AllFit] at hfits
      rw [depthAll] at hdepth
      rw [forestBytes]
      exact (entry_readsAs entry hpositive hfits.1 (by omega)).append
        (forest_readsAs rest hpositive hfits.2 (by omega))

end

/-! ## Beyond the nesting limit -/

theorem failsAt_deep {tag : UInt32} {hasChildren : Bool}
    {attributes : List DebugAttribute} (htag : tag ≠ 0)
    (hlevels : limits.maxDebugDepth.toNat < levels) :
    FailsAt limits levels (entryHead tag hasChildren attributes) := by
  intro rounds reader entries tail hrounds hahead
  have hpositive := entryHead_length_pos tag hasChildren attributes
  obtain ⟨rounds, rfl⟩ := Nat.exists_eq_succ_of_ne_zero
    (show rounds ≠ 0 by omega)
  rw [entryHead, List.append_assoc, List.append_assoc, List.append_assoc]
    at hahead
  exact @entryLoop_deep _ _ { reader, entries, levels } _ _ htag hlevels hahead

theorem failsAt_children {tag : UInt32} {attributes : List DebugAttribute}
    {children : List DebugEntry} {bytes : Bytes}
    (hfits : EntryFits limits tag true attributes children)
    (hlevels : levels ≤ limits.maxDebugDepth.toNat)
    (hchildren : FailsAt limits (levels + 1) bytes) :
    FailsAt limits levels (entryHead tag true attributes ++ bytes) := by
  intro rounds reader entries tail hrounds hahead
  have hpositive := entryHead_length_pos tag true attributes
  rw [List.length_append] at hrounds
  obtain ⟨rounds, rfl⟩ := Nat.exists_eq_succ_of_ne_zero
    (show rounds ≠ 0 by omega)
  rw [List.append_assoc] at hahead
  obtain ⟨place, middle, hmiddle, hrun⟩ := @entryLoop_entry _ rounds
    { reader, entries, levels } _ _ _ _ _ hfits hlevels hahead
  obtain ⟨why, last, hfail⟩ := hchildren rounds middle
    (appendAt (levels - 1) entries ⟨place, tag, true, attributes, []⟩) tail
    (by omega) hmiddle
  exact ⟨why, last, hrun.trans hfail⟩

mutual

theorem entry_failsAt : ∀ (entry : DebugEntry) {levels : ℕ}, 1 ≤ levels →
    Fits limits entry →
    limits.maxDebugDepth.toNat < levels - 1 + depth entry →
    FailsAt limits levels (entryBytes entry)
  | ⟨offset, tag, hasChildren, attributes, children⟩, levels, hpositive, hfits,
      hdepth => by
      rw [Fits] at hfits
      rw [depth] at hdepth
      rw [entryBytes]
      by_cases hlevels : levels ≤ limits.maxDebugDepth.toNat
      · cases hasChildren with
        | false =>
            obtain rfl := hfits.1.flag rfl
            rw [depthAll] at hdepth
            omega
        | true =>
            rw [if_pos rfl]
            exact failsAt_children hfits.1 hlevels
              ((forest_failsAt children (by omega) (by omega) hfits.2
                (by omega)).append [0])
      · exact (failsAt_deep hfits.1.tag (not_le.mp hlevels)).append _

theorem forest_failsAt : ∀ (forest : List DebugEntry) {levels : ℕ},
    1 ≤ levels → levels - 1 ≤ limits.maxDebugDepth.toNat →
    AllFit limits forest →
    limits.maxDebugDepth.toNat < levels - 1 + depthAll forest →
    FailsAt limits levels (forestBytes forest)
  | [], levels, _, hlevels, _, hdepth => by
      rw [depthAll] at hdepth
      omega
  | entry :: rest, levels, hpositive, hlevels, hfits, hdepth => by
      rw [AllFit] at hfits
      rw [depthAll] at hdepth
      rw [forestBytes]
      by_cases hfirst : levels - 1 + depth entry ≤ limits.maxDebugDepth.toNat
      · exact (entry_readsAs entry hpositive hfits.1 hfirst).append_fails
          (forest_failsAt rest hpositive hlevels hfits.2 (by omega))
      · exact (entry_failsAt entry hpositive hfits.1 (not_le.mp hfirst)).append _

end

/-! ## The whole call -/

theorem foldl_appendAt_zero (entries found : List DebugEntry) :
    found.foldl (appendAt 0) entries = entries ++ found := by
  induction found generalizing entries with
  | nil => rw [List.append_nil, List.foldl_nil]
  | cons entry rest ih =>
      rw [List.foldl_cons, ih, appendAt, List.append_assoc,
        List.singleton_append]

/-- A forest within the nesting limit is read back, and a deeper one is
rejected. -/
theorem parseEntries_forest (order : ByteOrder) (addressSize : UInt8)
    {unit : DebugUnit} {forest : List DebugEntry} (hunit : unit.entries = [])
    (hfits : AllFit limits forest) :
    ((forestBytes forest).length ≤ limits.maxDebugBytes.toNat →
      depthAll forest ≤ limits.maxDebugDepth.toNat →
      ∃ found, parseEntries limits (some (forestBytes forest)) order addressSize
          unit = .ok () { unit with entries := found } ∧
        eraseAll found = eraseAll forest) ∧
      (limits.maxDebugDepth.toNat < depthAll forest →
        ∃ why last, parseEntries limits (some (forestBytes forest)) order
          addressSize unit = .error why last) := by
  have hahead : Ahead { data := forestBytes forest, order }
      (forestBytes forest ++ []) :=
    ⟨rfl, Nat.zero_le _, by rw [List.append_nil]; rfl⟩
  unfold parseEntries
  dsimp only
  constructor
  · intro hbytes hdepth
    rw [if_neg (not_lt.mpr hbytes), hunit]
    obtain ⟨found, remaining, next, hfound, -, hnext, hrun⟩ :=
      forest_readsAs forest le_rfl hfits (by rwa [Nat.sub_self, Nat.zero_add])
        (forestBytes forest).length _ [] [] (Nat.le_refl _) hahead
    rw [hrun, entryLoop_done hnext.remaining, Nat.sub_self,
      foldl_appendAt_zero, List.nil_append]
    exact ⟨found, rfl, hfound⟩
  · intro hdepth
    split
    · exact ⟨_, _, rfl⟩
    · rw [hunit]
      obtain ⟨why, last, hrun⟩ := forest_failsAt forest le_rfl (Nat.zero_le _)
        hfits (by rwa [Nat.sub_self, Nat.zero_add])
        (forestBytes forest).length _ [] [] (Nat.le_refl _) hahead
      rw [hrun]
      exact ⟨_, _, rfl⟩

/-- A unit with a name, a size and a child that has a line delta is read back;
with one level fewer it is not. -/
theorem parseEntries_forest_nested :
    (∃ found, parseEntries {}
        (some (forestBytes [⟨0, 17, true,
          [⟨3, 3, .text [109, 97]⟩, ⟨11, 1, .unsigned 300⟩],
          [⟨0, 46, false, [⟨59, 2, .signed (-5)⟩], []⟩]⟩])) .little 8 {} =
        .ok () { entries := found } ∧
      eraseAll found = eraseAll [⟨0, 17, true,
        [⟨3, 3, .text [109, 97]⟩, ⟨11, 1, .unsigned 300⟩],
        [⟨0, 46, false, [⟨59, 2, .signed (-5)⟩], []⟩]⟩]) ∧
      ∃ why last, parseEntries { maxDebugDepth := 1 }
        (some (forestBytes [⟨0, 17, true,
          [⟨3, 3, .text [109, 97]⟩, ⟨11, 1, .unsigned 300⟩],
          [⟨0, 46, false, [⟨59, 2, .signed (-5)⟩], []⟩]⟩])) .little 8 {} =
        .error why last := by
  have hfits : ∀ limits : Limits, 2 ≤ limits.maxStringBytes.toNat →
      AllFit limits [⟨0, 17, true,
        [⟨3, 3, .text [109, 97]⟩, ⟨11, 1, .unsigned 300⟩],
        [⟨0, 46, false, [⟨59, 2, .signed (-5)⟩], []⟩]⟩] := by
    intro limits hlimit
    simp only [AllFit, Fits, and_true]
    refine ⟨⟨by decide, by decide, by decide, ?_⟩, by decide, fun _ => rfl,
      by decide, ?_⟩
    · simpa [AttributeFits] using hlimit
    · simp [AttributeFits]
  exact ⟨(parseEntries_forest .little 8 rfl (hfits {} (by decide))).1
      (by decide +kernel) (by decide +kernel),
    (parseEntries_forest .little 8 rfl
      (hfits { maxDebugDepth := 1 } (by decide))).2 (by decide +kernel)⟩

end DebugInfoParser
end BinForge
