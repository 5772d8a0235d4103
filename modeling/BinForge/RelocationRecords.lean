import BinForge.RelocationDecoder

/-!
# What the relocation decoders append

A decoder only appends, within the record limit.  The passes allotted to the
block loop always suffice, and every base-relocation record it appends carries
no addend and no symbol.
-/

namespace BinForge

open StatefulExcept
open ByteReader

namespace RelocationTableDecoder

variable {limits : Limits} {output result : List Relocation}
  {reader next : ByteReader}

theorem appendRelocation_eq_ok {relocation : Relocation} :
    appendRelocation limits relocation output = .ok result ↔
      output.length < limits.maxRelocations.toNat ∧
        result = output ++ [relocation] := by
  unfold appendRelocation
  rw [rejectIf_except_bind_eq_ok, not_le]
  exact and_congr_right fun _ => ⟨fun h => (Except.ok.inj h).symm,
    fun h => congrArg Except.ok h.symm⟩

theorem relocationRoom_toNat
    (houtput : output.length ≤ limits.maxRelocations.toNat) :
    (relocationRoom limits output).toNat =
      limits.maxRelocations.toNat - output.length :=
  MachineInteger.room_toNat houtput

/-- `result` is `output` with records of one kind appended, within the limit. -/
structure Appends (limits : Limits) (record : Relocation → Prop)
    (output result : List Relocation) : Prop where
  appended : ∃ added, result = output ++ added ∧ ∀ item ∈ added, record item
  bounded : result = output ∨ result.length ≤ limits.maxRelocations.toNat

variable {record : Relocation → Prop}

theorem Appends.refl (output : List Relocation) :
    Appends limits record output output :=
  ⟨⟨[], (List.append_nil output).symm, by simp⟩, .inl rfl⟩

theorem Appends.trans {first second third : List Relocation}
    (hleft : Appends limits record first second)
    (hright : Appends limits record second third) :
    Appends limits record first third := by
  have hbounded : third = first ∨
      third.length ≤ limits.maxRelocations.toNat := by
    rcases hright.bounded with rfl | hthird
    · exact hleft.bounded
    · exact .inr hthird
  obtain ⟨front, rfl, hfront⟩ := hleft.appended
  obtain ⟨back, rfl, hback⟩ := hright.appended
  refine ⟨⟨front ++ back, List.append_assoc .., fun item hitem => ?_⟩, hbounded⟩
  rcases List.mem_append.mp hitem with hitem | hitem
  · exact hfront item hitem
  · exact hback item hitem

theorem Appends.added (happends : Appends limits record output result) :
    (∀ item ∈ result.drop output.length, record item) ∧
      (result.drop output.length).length ≤ limits.maxRelocations.toNat := by
  have hbounded := happends.bounded
  obtain ⟨added, rfl, hadded⟩ := happends.appended
  rw [List.drop_left]
  refine ⟨hadded, ?_⟩
  rcases hbounded with hsame | hlength
  · rw [List.append_right_eq_self.mp hsame]
    exact Nat.zero_le _
  · rw [List.length_append] at hlength
    omega

theorem Appends.push {item : Relocation} (hitem : record item)
    (hroom : output.length < limits.maxRelocations.toNat) :
    Appends limits record output (output ++ [item]) := by
  refine ⟨⟨[item], rfl, List.forall_mem_singleton.mpr hitem⟩, .inr ?_⟩
  rw [List.length_append, List.length_singleton]
  omega

/-- `result` is `output` with one record appended for each entry, in order and
with the entry's symbol, within the limit. -/
structure AppendsEach (limits : Limits) (symbolOf : ℕ → UInt32)
    (entries : List ℕ) (output result : List Relocation) : Prop where
  appended : ∃ added, result = output ++ added ∧ List.Forall₂
    (fun entry relocation => relocation.symbolIndex = symbolOf entry)
      entries added
  bounded : result = output ∨ result.length ≤ limits.maxRelocations.toNat

variable {symbolOf : ℕ → UInt32} {entries : List ℕ}

theorem AppendsEach.nil (output : List Relocation) :
    AppendsEach limits symbolOf [] output output :=
  ⟨⟨[], (List.append_nil output).symm, .nil⟩, .inl rfl⟩

theorem AppendsEach.push {entry : ℕ} {relocation : Relocation}
    (hdone : AppendsEach limits symbolOf entries output result)
    (hsymbol : relocation.symbolIndex = symbolOf entry)
    (hroom : result.length < limits.maxRelocations.toNat) :
    AppendsEach limits symbolOf (entries ++ [entry]) output
      (result ++ [relocation]) := by
  obtain ⟨added, rfl, hall⟩ := hdone.appended
  refine ⟨⟨added ++ [relocation], List.append_assoc .., List.rel_append hall
    (.cons hsymbol .nil)⟩, .inr ?_⟩
  rw [List.length_append, List.length_singleton]
  omega

theorem AppendsEach.length_le
    (happends : AppendsEach limits symbolOf entries output result)
    (houtput : output.length ≤ limits.maxRelocations.toNat) :
    result.length ≤ limits.maxRelocations.toNat := by
  rcases happends.bounded with hsame | hlength
  · rwa [hsame]
  · exact hlength

/-! ## Base relocations -/

/-- What every decoded base relocation looks like. -/
structure BaseRecord (relocation : Relocation) : Prop where
  addend : relocation.addend = 0
  symbolIndex : relocation.symbolIndex = 0
  coded : ∃ type, (relocation.kind, relocation.width) = peKind type

theorem peRecord_ok {imageBase blockOffset : UInt64} {pageRva : UInt32}
    {index : ℕ} (hrun : peRecord limits imageBase blockOffset pageRva output
      index reader = .ok result next) :
    Appends limits BaseRecord output result ∧ next.data = reader.data := by
  unfold peRecord at hrun
  obtain ⟨encoded, middle, hread, hrun⟩ := bind_eq_ok.mp hrun
  obtain ⟨_, _, rfl⟩ := readU16_at.mp (adaptError_eq_ok.mp hread)
  dsimp only at hrun
  by_cases htype : (encoded >>> 12).toUInt8 = 0
  · rw [if_pos htype, pure_eq_ok] at hrun
    obtain ⟨rfl, rfl⟩ := hrun
    exact ⟨Appends.refl output, rfl⟩
  · rw [if_neg htype] at hrun
    obtain ⟨page, _, hrun⟩ := demand_bind_eq_ok.mp hrun
    obtain ⟨target, _, hrun⟩ := demand_bind_eq_ok.mp hrun
    obtain ⟨happend, rfl⟩ := liftExcept_eq_ok.mp hrun
    obtain ⟨hroom, rfl⟩ := appendRelocation_eq_ok.mp happend
    exact ⟨Appends.push ⟨rfl, rfl, _, rfl⟩ hroom, rfl⟩

/-- The steps of an accepted block. -/
theorem peBlock_steps {imageBase : UInt64} :
    peBlock limits imageBase output reader = .ok result next ↔
      ∃ pageRva blockSize headed walked,
        readPeBlockHeader reader = .ok (pageRva, blockSize) headed ∧
        ¬(blockSize < 8 ∨
          blockSize.toNat > reader.data.length - reader.position ∨
          (blockSize - 8) % 2 ≠ 0) ∧
        (List.range ((blockSize - 8) / 2).toNat).foldlM
            (peRecord limits imageBase (UInt64.ofNat reader.position) pageRva)
            output headed = .ok result walked ∧
        seek (UInt64.ofNat reader.position + blockSize.toUInt64) walked =
          .ok () next := by
  unfold peBlock
  rw [bind_of_ok (get_apply reader), bind_eq_ok]
  constructor
  · rintro ⟨⟨pageRva, blockSize⟩, headed, hheader, hrun⟩
    obtain ⟨hsize, hrun⟩ := rejectIf_bind_eq_ok.mp hrun
    obtain ⟨kept, walked, hloop, hrun⟩ := bind_eq_ok.mp hrun
    obtain ⟨_, sought, hseek, hrun⟩ := bind_eq_ok.mp hrun
    rw [pure_eq_ok] at hrun
    obtain ⟨rfl, rfl⟩ := hrun
    exact ⟨pageRva, blockSize, headed, walked, adaptError_eq_ok.mp hheader,
      hsize, hloop, adaptError_eq_ok.mp hseek⟩
  · rintro ⟨pageRva, blockSize, headed, walked, hheader, hsize, hloop, hseek⟩
    refine ⟨(pageRva, blockSize), headed, adaptError_eq_ok.mpr hheader, ?_⟩
    refine rejectIf_bind_eq_ok.mpr ⟨hsize, ?_⟩
    exact bind_eq_ok.mpr ⟨result, walked, hloop,
      bind_eq_ok.mpr ⟨(), next, adaptError_eq_ok.mpr hseek, rfl⟩⟩

theorem blockEnd_toNat {position : ℕ} {blockSize : UInt32}
    (hfit : position + blockSize.toNat < 2 ^ 64) :
    (UInt64.ofNat position + blockSize.toUInt64).toNat =
      position + blockSize.toNat := by
  have hposition : (UInt64.ofNat position).toNat = position :=
    UInt64.toNat_ofNat_of_lt' (by show _ < 2 ^ 64; omega)
  have hblock : blockSize.toUInt64.toNat = blockSize.toNat :=
    UInt32.toNat_toUInt64 _
  rw [toNat_add_of_fit (by omega), hposition, hblock]

theorem peBlock_ok {imageBase : UInt64}
    (hrun : peBlock limits imageBase output reader = .ok result next) :
    Appends limits BaseRecord output result ∧ next.data = reader.data ∧
      (reader.data.length < 2 ^ 64 → reader.position < next.position) := by
  obtain ⟨pageRva, blockSize, headed, walked, hheader, hsize, hloop, hseek⟩ :=
    peBlock_steps.mp hrun
  rw [readPeBlockHeader] at hheader
  obtain ⟨_, first, hfirst, hheader⟩ := bind_eq_ok.mp hheader
  obtain ⟨_, _, rfl⟩ := readU32_at.mp hfirst
  obtain ⟨_, second, hsecond, hheader⟩ := bind_eq_ok.mp hheader
  obtain ⟨_, _, rfl⟩ := readU32_at.mp hsecond
  rw [pure_eq_ok] at hheader
  obtain ⟨-, rfl⟩ := hheader
  obtain ⟨happends, hdata⟩ := foldlM_ok_induction
    (fun _ carried state => Appends limits BaseRecord output carried ∧
      state.data = reader.data) hloop ⟨Appends.refl output, rfl⟩
    fun done item rest carried state passed after _ hdone hstep => by
      obtain ⟨hone, hsame⟩ := peRecord_ok hstep
      exact ⟨hdone.1.trans hone, hsame.trans hdone.2⟩
  obtain ⟨_, rfl⟩ := seek_eq_ok.mp hseek
  refine ⟨happends, hdata, fun hlength => ?_⟩
  rw [not_or, not_or, UInt32.not_lt, UInt32.le_iff_toNat_le] at hsize
  obtain ⟨hlow, _, _⟩ := hsize
  have height : (8 : UInt32).toNat = 8 := rfl
  rw [movedTo_position, blockEnd_toNat (by omega)]
  omega

theorem peBlocks_pass {imageBase : UInt64} (passes : ℕ) :
    peBlocks limits imageBase (passes + 1) output reader =
      if reader.remaining = 0 then .ok output reader
      else (peBlock limits imageBase output >>=
        peBlocks limits imageBase passes) reader := by
  rw [peBlocks, bind_of_ok (get_apply reader)]
  by_cases hdone : reader.remaining = 0
  · rw [if_pos hdone, if_pos hdone, pure_apply]
  · rw [if_neg hdone, if_neg hdone]

theorem peBlocks_ok {imageBase : UInt64} {passes : ℕ}
    (hrun : peBlocks limits imageBase passes output reader =
      .ok result next) :
    Appends limits BaseRecord output result := by
  induction passes generalizing output reader with
  | zero =>
      rw [peBlocks, pure_eq_ok] at hrun
      exact hrun.1 ▸ Appends.refl output
  | succ passes ih =>
      rw [peBlocks_pass] at hrun
      by_cases hdone : reader.remaining = 0
      · rw [if_pos hdone, EStateM.Result.ok.injEq] at hrun
        exact hrun.1 ▸ Appends.refl output
      · rw [if_neg hdone] at hrun
        obtain ⟨middle, moved, hblock, hrun⟩ := bind_eq_ok.mp hrun
        exact (peBlock_ok hblock).1.trans (ih hrun)

theorem decodePeBase_ok {data : Bytes} {imageBase : UInt64}
    (hrun : decodePeBase limits data imageBase output = .ok result) :
    Appends limits BaseRecord output result := by
  obtain ⟨next, hrun⟩ := evaluate_eq_ok.mp hrun
  exact peBlocks_ok hrun

/-! ## ELF records -/

def elfInformation (options : RelocationDecodeOptions) (data : Bytes)
    (index : ℕ) : UInt64 :=
  let place := (UInt64.ofNat index * elfStride options).toNat
  if options.wordSize = .bits64 then
    u64At options.byteOrder data (place + 8)
  else (u32At options.byteOrder data (place + 4)).toUInt64

def elfSymbolIndex (options : RelocationDecodeOptions) (data : Bytes)
    (index : ℕ) : UInt32 :=
  (elfSymbol (options.wordSize == .bits64)
    (elfInformation options data index)).toUInt32

/-- The reader walks the table in the declared byte order. -/
structure OnTable (options : RelocationDecodeOptions) (data : Bytes)
    (reader : ByteReader) : Prop where
  data : reader.data = data
  order : reader.order = options.byteOrder

theorem OnTable.movedTo {options : RelocationDecodeOptions} {data : Bytes}
    (hreader : OnTable options data reader) (position : ℕ) :
    OnTable options data (reader.movedTo position) :=
  ⟨hreader.data, hreader.order⟩

theorem readElfEntry_ok {options : RelocationDecodeOptions} {data : Bytes}
    {entry : ElfEntry} (hreader : OnTable options data reader) {wide : Bool}
    (hrun : readElfEntry wide options.explicitAddends reader =
      .ok entry next) :
    entry.information =
        (if wide then u64At options.byteOrder data (reader.position + 8)
         else (u32At options.byteOrder data
           (reader.position + 4)).toUInt64) ∧
      OnTable options data next := by
  obtain ⟨rfl, horder⟩ := hreader
  unfold readElfEntry at hrun
  generalize options.explicitAddends = explicit at hrun
  cases wide <;> cases explicit <;>
    simp only [if_true, Bool.false_eq_true, if_false, bind_eq_ok, readU64_at,
      readU32_at, readI64, readI32, pure_eq_ok, and_assoc, exists_and_left,
      exists_eq_left, exists_eq_left', movedTo_data, movedTo_order,
      movedTo_position, movedTo_movedTo]
      at hrun ⊢
  case false.false | true.false =>
    obtain ⟨_, _, rfl, rfl⟩ := hrun
    exact ⟨by rw [← horder], rfl, horder⟩
  case false.true | true.true =>
    obtain ⟨_, _, _, rfl, rfl⟩ := hrun
    exact ⟨by rw [← horder], rfl, horder⟩

theorem elfRecord_ok {options : RelocationDecodeOptions} {data : Bytes}
    (hreader : OnTable options data reader) {index : ℕ}
    (hrun : elfRecord limits options (elfStride options) output index reader =
      .ok result next) :
    (∃ relocation, result = output ++ [relocation] ∧
        relocation.symbolIndex = elfSymbolIndex options data index) ∧
      output.length < limits.maxRelocations.toNat ∧
      OnTable options data next := by
  unfold elfRecord at hrun
  obtain ⟨_, sought, hseek, hrun⟩ := bind_eq_ok.mp hrun
  unfold reporting at hseek
  obtain ⟨_, rfl⟩ := seek_eq_ok.mp (adaptError_eq_ok.mp hseek)
  obtain ⟨entry, last, hentry, hrun⟩ := bind_eq_ok.mp hrun
  obtain ⟨hinformation, hlast⟩ := readElfEntry_ok (hreader.movedTo _)
    (adaptError_eq_ok.mp hentry)
  dsimp only at hrun
  obtain ⟨_, hrun⟩ := rejectIf_bind_eq_ok.mp hrun
  obtain ⟨target, _, hrun⟩ := demand_bind_eq_ok.mp hrun
  obtain ⟨happend, rfl⟩ := liftExcept_eq_ok.mp hrun
  obtain ⟨hroom, rfl⟩ := appendRelocation_eq_ok.mp happend
  refine ⟨⟨_, rfl, ?_⟩, hroom, hlast⟩
  rw [elfSymbolIndex, hinformation]
  simp only [elfInformation, beq_iff_eq, movedTo_position]

def elfCount (options : RelocationDecodeOptions) (data : Bytes) : ℕ :=
  (UInt64.ofNat data.length / elfStride options).toNat

theorem decodeElf_ok {options : RelocationDecodeOptions} {data : Bytes}
    (hrun : decodeElf limits data options output = .ok result) :
    AppendsEach limits (elfSymbolIndex options data)
      (List.range (elfCount options data)) output result := by
  unfold decodeElf at hrun
  obtain ⟨_, hrun⟩ := rejectIf_except_bind_eq_ok.mp hrun
  obtain ⟨_, hrun⟩ := rejectIf_except_bind_eq_ok.mp hrun
  obtain ⟨last, hloop⟩ := evaluate_eq_ok.mp hrun
  refine (foldlM_ok_induction (fun done carried state =>
    AppendsEach limits (elfSymbolIndex options data) done output carried ∧
      OnTable options data state)
    hloop ⟨AppendsEach.nil output, rfl, rfl⟩ ?_).1
  rintro done index rest carried state passed after - ⟨hdone, hstate⟩ hstep
  obtain ⟨⟨relocation, rfl, hsymbol⟩, hroom, hafter⟩ := elfRecord_ok hstate hstep
  exact ⟨hdone.push hsymbol hroom, hafter⟩

/-! ## Mach-O records -/

/-- The symbol index a record keeps: that of an external one only. -/
def machoSymbolIndex (options : RelocationDecodeOptions) (data : Bytes)
    (record : ℕ) : UInt32 :=
  let information := u32At options.byteOrder data (record * 8 + 4)
  if (information >>> 27) &&& 1 != 0 then information &&& 0x00ffffff else 0

theorem machoRecord_ok {options : RelocationDecodeOptions} {data : Bytes}
    (hreader : OnTable options data reader) {record : ℕ}
    (hposition : reader.position = record * 8)
    (hrun : machoRecord limits options output record reader =
      .ok result next) :
    (∃ relocation, result = output ++ [relocation] ∧
        relocation.symbolIndex = machoSymbolIndex options data record) ∧
      output.length < limits.maxRelocations.toNat ∧
      OnTable options data next ∧ next.position = (record + 1) * 8 := by
  obtain ⟨rfl, horder⟩ := hreader
  unfold machoRecord at hrun
  obtain ⟨⟨address, information⟩, middle, hentry, hrun⟩ := bind_eq_ok.mp hrun
  unfold reporting at hentry
  simp only [adaptError_eq_ok, readMachoEntry, readI32, bind_eq_ok, readU32_at,
    pure_eq_ok, and_assoc, exists_and_left, exists_eq_left, exists_eq_left',
    movedTo_data, movedTo_order, movedTo_position, movedTo_movedTo,
    Prod.mk.injEq] at hentry
  obtain ⟨_, _, _, rfl, rfl⟩ := hentry
  dsimp only at hrun
  obtain ⟨_, hrun⟩ := rejectIf_bind_eq_ok.mp hrun
  obtain ⟨target, _, hrun⟩ := demand_bind_eq_ok.mp hrun
  obtain ⟨happend, rfl⟩ := liftExcept_eq_ok.mp hrun
  obtain ⟨hroom, rfl⟩ := appendRelocation_eq_ok.mp happend
  refine ⟨⟨_, rfl, ?_⟩, hroom, ⟨rfl, horder⟩, ?_⟩
  · rw [machoSymbolIndex, ← horder, ← hposition]
  · rw [movedTo_position, hposition]
    omega

theorem eq_length_of_range {count item : ℕ} {done rest : List ℕ}
    (hsplit : List.range count = done ++ item :: rest) :
    item = done.length := by
  have hitem := congrArg (fun items => items[done.length]?) hsplit
  have hlength := congrArg List.length hsplit
  rw [List.length_range, List.length_append, List.length_cons] at hlength
  simp only [List.getElem?_append_right le_rfl, Nat.sub_self,
    List.getElem?_cons_zero] at hitem
  rw [List.getElem?_range (by omega), Option.some.injEq] at hitem
  exact hitem.symm

/-- The records decoded by the first rounds. -/
theorem machoRecords_ok {options : RelocationDecodeOptions} {data : Bytes}
    {count : ℕ}
    (hrun : (List.range count).foldlM (machoRecord limits options) output
      { data, order := options.byteOrder } = .ok result next) :
    AppendsEach limits (machoSymbolIndex options data) (List.range count) output
        result ∧
      OnTable options data next ∧ next.position = count * 8 := by
  have hloop := foldlM_ok_induction (fun done carried state =>
    AppendsEach limits (machoSymbolIndex options data) done output carried ∧
      OnTable options data state ∧ state.position = done.length * 8)
    hrun ⟨AppendsEach.nil output, ⟨rfl, rfl⟩, (Nat.zero_mul 8).symm⟩ (by
      rintro done record rest carried state passed after hsplit
        ⟨hdone, hstate, hposition⟩ hstep
      obtain rfl := eq_length_of_range hsplit
      obtain ⟨⟨relocation, rfl, hsymbol⟩, hroom, hafter, hnext⟩ :=
        machoRecord_ok hstate hposition hstep
      refine ⟨hdone.push hsymbol hroom, hafter, ?_⟩
      rw [hnext, List.length_append, List.length_singleton])
  rwa [List.length_range] at hloop

theorem decodeMacho_ok {options : RelocationDecodeOptions} {data : Bytes}
    (hrun : decodeMacho limits data options output = .ok result) :
    AppendsEach limits (machoSymbolIndex options data)
      (List.range (data.length / 8)) output result := by
  unfold decodeMacho at hrun
  obtain ⟨_, hrun⟩ := rejectIf_except_bind_eq_ok.mp hrun
  obtain ⟨_, hrun⟩ := rejectIf_except_bind_eq_ok.mp hrun
  obtain ⟨last, hloop⟩ := evaluate_eq_ok.mp hrun
  exact (machoRecords_ok hloop).1

end RelocationTableDecoder
end BinForge
