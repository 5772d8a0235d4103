import BinForge.ListSplice

/-!
# Records laid out in a list

`Holds` says that a record stands at a place of a longer list.  A record
written as its fields one after the other holds exactly when each field does,
at the place the fields before it leave.  A table is a list of records at equal
distances, with room for each record between one place and the next.
-/

namespace RecordLayout

open ListSplice

variable {α : Type} {data : List α} {place : ℕ}

def Holds (data : List α) (place : ℕ) (record : List α) : Prop :=
  slice data place record.length = record

instance [DecidableEq α] (data : List α) (place : ℕ) (record : List α) :
    Decidable (Holds data place record) :=
  inferInstanceAs (Decidable (_ = _))

theorem slice_add (data : List α) (place first second : ℕ) :
    slice data place (first + second) =
      slice data place first ++ slice data (place + first) second := by
  rw [slice, slice, slice, List.take_add, List.drop_drop]

theorem holds_append {first second : List α} :
    Holds data place (first ++ second) ↔
      Holds data place first ∧ Holds data (place + first.length) second := by
  unfold Holds
  rw [List.length_append, slice_add]
  constructor
  · intro hboth
    have hlength := congrArg List.length hboth
    refine List.append_inj hboth ?_
    simp only [slice, List.length_append, List.length_take,
      List.length_drop] at hlength ⊢
    omega
  · rintro ⟨hfirst, hsecond⟩
    rw [hfirst, hsecond]

theorem Holds.fits {record : List α} (hholds : Holds data place record)
    (hrecord : record ≠ []) : place + record.length ≤ data.length := by
  have hlength := congrArg List.length hholds
  have hsome := List.length_pos_iff.mpr hrecord
  simp only [slice, List.length_take, List.length_drop] at hlength
  omega

theorem Holds.moved {other : ℕ} {record : List α}
    (hholds : Holds data place record) (hplace : place = other) :
    Holds data other record :=
  hplace ▸ hholds

theorem Holds.getElem? {record : List α} (hholds : Holds data place record)
    {i : ℕ} (hi : i < record.length) : data[place + i]? = record[i]? := by
  have hitem := congrArg (·[i]?) hholds
  rwa [slice_getElem?, if_pos hi] at hitem

/-- A record of a list stands in any slice around it. -/
theorem Holds.inSlice {start length : ℕ} {record : List α}
    (hholds : Holds data (start + place) record)
    (hfit : place + record.length ≤ length) :
    Holds (slice data start length) place record := by
  unfold Holds at hholds ⊢
  rw [slice_slice hfit, hholds]

theorem holds_singleton {value : α} :
    Holds data place [value] ↔ data[place]? = some value := by
  unfold Holds
  constructor
  · intro hholds
    have hfirst := congrArg (·[0]?) hholds
    simpa [slice_getElem?] using hfirst
  · intro hvalue
    refine List.ext_getElem? fun i => ?_
    rw [slice_getElem?]
    cases i with
    | zero => simpa using hvalue
    | succ i => simp

/-- The records stand `stride` apart, and none reaches the next place. -/
structure Tabulated (data : List α) (start stride : ℕ)
    (records : List (List α)) : Prop where
  fits : ∀ record ∈ records, record.length ≤ stride
  holds : ∀ i (hi : i < records.length),
    Holds data (start + i * stride) records[i]

theorem Tabulated.map {β : Type} {start stride : ℕ} {encode : β → List α}
    {items : List β} (htable : Tabulated data start stride (items.map encode))
    {i : ℕ} (hi : i < items.length) :
    Holds data (start + i * stride) (encode items[i]) := by
  have hholds := htable.holds i (by rwa [List.length_map])
  rwa [List.getElem_map] at hholds

theorem Tabulated.stride {β : Type} {start stride record : ℕ}
    {encode : β → List α} {items : List β}
    (htable : Tabulated data start stride (items.map encode))
    (hrecord : ∀ item, (encode item).length = record) (hsome : items ≠ []) :
    record ≤ stride := by
  obtain ⟨item, hitem⟩ := List.exists_mem_of_ne_nil items hsome
  rw [← hrecord item]
  exact htable.fits _ (List.mem_map_of_mem hitem)

end RecordLayout
