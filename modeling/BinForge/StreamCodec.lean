import BinForge.StatefulExcept

/-!
# Reading back what was written

A reader is a computation over a cursor, and `ahead cursor items` says which
items the cursor has in front of it.  `Consumes` is the judgement that a reader
takes exactly the given items off the front and returns the given value.
`Yields` is the converse: whatever a reader accepts, it has taken off the front
items that stand in a given relation to the value.  The rules of both follow the
way readers are put together, so a round trip of a record or of a table is
assembled from the round trips of its fields, in either direction.
-/

namespace StreamCodec

open StatefulExcept

variable {ε ε' σ ι α β : Type} {ahead : σ → List ι → Prop} {room : ℕ}

/-- In front of any `tail` of at least `room` items, the reader takes `items`
and returns `value`. -/
def Consumes (ahead : σ → List ι → Prop) (room : ℕ) (reader : EStateM ε σ α)
    (items : List ι) (value : α) : Prop :=
  ∀ cursor tail, room ≤ tail.length → ahead cursor (items ++ tail) →
    ∃ next, reader cursor = .ok value next ∧ ahead next tail

theorem Consumes.pure (value : α) :
    Consumes ahead room (Pure.pure value : EStateM ε σ α) [] value :=
  fun cursor _ _ hahead => ⟨cursor, rfl, hahead⟩

/-- A reader that looks ahead finds its room in what is read next. -/
theorem Consumes.bind_room (need : ℕ) {reader : EStateM ε σ α}
    {rest : α → EStateM ε σ β} {first second : List ι} {value : α}
    {result : β} (hreader : Consumes ahead need reader first value)
    (hneed : need ≤ second.length)
    (hrest : Consumes ahead room (rest value) second result) :
    Consumes ahead room (reader >>= rest) (first ++ second) result := by
  intro cursor tail htail hahead
  rw [List.append_assoc] at hahead
  have hmore : need ≤ (second ++ tail).length := by
    rw [List.length_append]
    omega
  obtain ⟨middle, hrun, hmiddle⟩ := hreader cursor _ hmore hahead
  obtain ⟨next, hlast, hnext⟩ := hrest middle tail htail hmiddle
  exact ⟨next, by rw [bind_of_ok hrun, hlast], hnext⟩

theorem Consumes.bind {reader : EStateM ε σ α} {rest : α → EStateM ε σ β}
    {first second : List ι} {value : α} {result : β}
    (hreader : Consumes ahead 0 reader first value)
    (hrest : Consumes ahead room (rest value) second result) :
    Consumes ahead room (reader >>= rest) (first ++ second) result :=
  hreader.bind_room 0 (Nat.zero_le _) hrest

/-- Only steps that consume nothing follow. -/
theorem Consumes.bind_last {reader : EStateM ε σ α} {rest : α → EStateM ε σ β}
    {items : List ι} {value : α} {result : β}
    (hreader : Consumes ahead room reader items value)
    (hrest : Consumes ahead room (rest value) [] result) :
    Consumes ahead room (reader >>= rest) items result := by
  intro cursor tail htail hahead
  obtain ⟨middle, hrun, hmiddle⟩ := hreader cursor tail htail hahead
  obtain ⟨next, hlast, hnext⟩ := hrest middle tail htail hmiddle
  exact ⟨next, by rw [bind_of_ok hrun, hlast], hnext⟩

theorem Consumes.rejectIf {condition : Prop} [Decidable condition]
    {failure : ε} {rest : Unit → EStateM ε σ β} {items : List ι} {result : β}
    (hfalse : ¬condition) (hrest : Consumes ahead room (rest ()) items result) :
    Consumes ahead room (StatefulExcept.rejectIf condition failure >>= rest)
      items result := by
  intro cursor tail htail hahead
  rw [rejectIf_bind_of_not hfalse]
  exact hrest cursor tail htail hahead

/-- A check of the cursor that every cursor with these items ahead passes. -/
theorem Consumes.rejectIf_state {condition : σ → Prop}
    [∀ cursor, Decidable (condition cursor)] {failure : σ → ε}
    {rest : EStateM ε σ β} {items : List ι} {result : β}
    (hfalse : ∀ cursor tail, room ≤ tail.length → ahead cursor (items ++ tail) →
      ¬condition cursor)
    (hrest : Consumes ahead room rest items result) :
    Consumes ahead room (do
      let cursor ← get
      StatefulExcept.rejectIf (condition cursor) (failure cursor)
      rest) items result := by
  intro cursor tail htail hahead
  obtain ⟨next, hrun, hnext⟩ := hrest cursor tail htail hahead
  refine ⟨next, ?_, hnext⟩
  rw [bind_of_ok (get_apply cursor),
    rejectIf_bind_of_not (hfalse cursor tail htail hahead), hrun]

theorem Consumes.adaptError {reader : EStateM ε σ α} {items : List ι}
    {value : α} (describe : σ → ε → ε')
    (hreader : Consumes ahead room reader items value) :
    Consumes ahead room (StatefulExcept.adaptError describe reader) items
      value := by
  intro cursor tail htail hahead
  obtain ⟨next, hrun, hnext⟩ := hreader cursor tail htail hahead
  exact ⟨next, adaptError_eq_ok.mpr hrun, hnext⟩

/-- A table of records that are read back one by one. -/
theorem Consumes.collect (view : β → α) {reader : EStateM ε σ α}
    {write : β → List ι} {records : List β}
    (hrecord : ∀ record ∈ records,
      Consumes ahead 0 reader (write record) (view record)) :
    Consumes ahead 0 (StatefulExcept.collect reader records.length)
      (records.flatMap write) (records.map view) := by
  induction records with
  | nil => exact Consumes.pure []
  | cons record records ih =>
      rw [List.length_cons, List.flatMap_cons, List.map_cons,
        StatefulExcept.collect]
      have htail := ih fun other hother =>
        hrecord other (List.mem_cons_of_mem _ hother)
      exact (hrecord record List.mem_cons_self).bind
        (Consumes.bind_last htail (Consumes.pure _))

/-- A loop over a table, whose value so far tells the records read. -/
theorem Consumes.foldlM {γ κ : Type} (view : List β → γ)
    {body : γ → κ → EStateM ε σ γ} {write : β → List ι} {records : List β}
    {rounds : List κ} (hrounds : rounds.length = records.length)
    (hrecord : ∀ done record rest round, records = done ++ record :: rest →
      Consumes ahead 0 (body (view done) round) (write record)
        (view (done ++ [record]))) :
    Consumes ahead 0 (rounds.foldlM body (view [])) (records.flatMap write)
      (view records) := by
  suffices hrest : ∀ done rest, records = done ++ rest →
      rounds.length = rest.length →
        Consumes ahead 0 (rounds.foldlM body (view done)) (rest.flatMap write)
          (view records) from hrest [] records rfl hrounds
  clear hrounds
  induction rounds with
  | nil =>
      intro done rest hsplit hlength
      obtain rfl := List.length_eq_zero_iff.mp hlength.symm
      rw [List.append_nil] at hsplit
      rw [hsplit]
      exact Consumes.pure _
  | cons round rounds ih =>
      intro done rest hsplit hlength
      obtain ⟨record, rest, rfl⟩ := List.exists_cons_of_length_eq_add_one
        hlength.symm
      rw [List.foldlM_cons, List.flatMap_cons]
      refine (hrecord done record rest round hsplit).bind (ih _ rest ?_ ?_)
      · rw [hsplit, List.append_assoc, List.singleton_append]
      · exact Nat.succ.inj hlength

/-! ## What an accepting reader has taken -/

/-- A reader that returns a value has taken items in relation `spec` to it. -/
def Yields (ahead : σ → List ι → Prop) (reader : EStateM ε σ α)
    (spec : α → List ι → Prop) : Prop :=
  ∀ cursor items value next, ahead cursor items →
    reader cursor = .ok value next →
      ∃ taken tail, items = taken ++ tail ∧ ahead next tail ∧ spec value taken

theorem Yields.pure {value : α} {spec : α → List ι → Prop}
    (hspec : spec value []) :
    Yields ahead (Pure.pure value : EStateM ε σ α) spec := by
  intro cursor items other next hahead hrun
  rw [pure_eq_ok] at hrun
  obtain ⟨rfl, rfl⟩ := hrun
  exact ⟨[], items, rfl, hahead, hspec⟩

/-- The rest of the reader is judged with the items already taken in front. -/
theorem Yields.bind {reader : EStateM ε σ α} {rest : α → EStateM ε σ β}
    {first : α → List ι → Prop} {spec : β → List ι → Prop}
    (hreader : Yields ahead reader first)
    (hrest : ∀ value front, first value front →
      Yields ahead (rest value) fun result back => spec result (front ++ back)) :
    Yields ahead (reader >>= rest) spec := by
  intro cursor items result last hahead hrun
  obtain ⟨value, middle, hhead, htail⟩ := bind_eq_ok.mp hrun
  obtain ⟨front, between, rfl, hmiddle, hfirst⟩ :=
    hreader cursor items value middle hahead hhead
  obtain ⟨back, tail, rfl, hlast, hspec⟩ :=
    hrest value front hfirst middle between result last hmiddle htail
  exact ⟨front ++ back, tail, by rw [List.append_assoc], hlast, hspec⟩

theorem Yields.rejectIf {condition : Prop} [Decidable condition] {failure : ε}
    {rest : Unit → EStateM ε σ β} {spec : β → List ι → Prop}
    (hrest : ¬condition → Yields ahead (rest ()) spec) :
    Yields ahead (StatefulExcept.rejectIf condition failure >>= rest) spec := by
  intro cursor items value next hahead hrun
  obtain ⟨hfalse, hrun⟩ := rejectIf_bind_eq_ok.mp hrun
  exact hrest hfalse cursor items value next hahead hrun

theorem Yields.rejectIf_state {condition : σ → Prop}
    [∀ cursor, Decidable (condition cursor)] {failure : σ → ε}
    {rest : EStateM ε σ β} {spec : β → List ι → Prop}
    (hrest : Yields ahead rest spec) :
    Yields ahead (do
      let cursor ← get
      StatefulExcept.rejectIf (condition cursor) (failure cursor)
      rest) spec := by
  intro cursor items value next hahead hrun
  rw [bind_of_ok (get_apply cursor)] at hrun
  exact hrest cursor items value next hahead (rejectIf_bind_eq_ok.mp hrun).2

/-- A check reported at the cursor, whose condition does not depend on it. -/
theorem Yields.rejectIf_at {condition : Prop} [Decidable condition]
    {failure : σ → ε} {rest : EStateM ε σ β} {spec : β → List ι → Prop}
    (hrest : ¬condition → Yields ahead rest spec) :
    Yields ahead (do
      let cursor ← get
      StatefulExcept.rejectIf condition (failure cursor)
      rest) spec := by
  intro cursor items value next hahead hrun
  rw [bind_of_ok (get_apply cursor)] at hrun
  obtain ⟨hfalse, hrun⟩ := rejectIf_bind_eq_ok.mp hrun
  exact hrest hfalse cursor items value next hahead hrun

theorem Yields.adaptError {reader : EStateM ε σ α} {spec : α → List ι → Prop}
    (describe : σ → ε → ε') (hreader : Yields ahead reader spec) :
    Yields ahead (StatefulExcept.adaptError describe reader) spec :=
  fun cursor items value next hahead hrun =>
    hreader cursor items value next hahead (adaptError_eq_ok.mp hrun)

theorem Yields.imp {reader : EStateM ε σ α} {spec spec' : α → List ι → Prop}
    (hreader : Yields ahead reader spec)
    (himp : ∀ value taken, spec value taken → spec' value taken) :
    Yields ahead reader spec' := by
  intro cursor items value next hahead hrun
  obtain ⟨taken, tail, hitems, hnext, hspec⟩ :=
    hreader cursor items value next hahead hrun
  exact ⟨taken, tail, hitems, hnext, himp value taken hspec⟩

theorem Yields.demand {found : Option α} {failure : ε}
    {rest : α → EStateM ε σ β} {spec : β → List ι → Prop}
    (hrest : ∀ value, found = some value → Yields ahead (rest value) spec) :
    Yields ahead (StatefulExcept.demand found failure >>= rest) spec := by
  intro cursor items result next hahead hrun
  obtain ⟨value, hfound, hrun⟩ := demand_bind_eq_ok.mp hrun
  exact hrest value hfound cursor items result next hahead hrun

/-- A table is taken off the front piece by piece. -/
theorem Yields.collect_pieces {reader : EStateM ε σ α}
    {spec : α → List ι → Prop} (hrecord : Yields ahead reader spec)
    (count : ℕ) :
    Yields ahead (StatefulExcept.collect reader count) fun values taken =>
      values.length = count ∧
        ∃ pieces, List.Forall₂ spec values pieces ∧ taken = pieces.flatten := by
  induction count with
  | zero => exact Yields.pure ⟨rfl, [], .nil, rfl⟩
  | succ count ih =>
      rw [StatefulExcept.collect]
      refine hrecord.bind fun head front hhead => ih.bind fun tail back htail =>
        Yields.pure ?_
      obtain ⟨hcount, pieces, hpieces, rfl⟩ := htail
      exact ⟨by rw [List.length_cons, hcount], front :: pieces,
        .cons hhead hpieces, by simp⟩

/-- What is seen of the records is seen of their table, when it is seen of
pieces put together. -/
theorem Yields.collect_viewed {γ : Type} (view : List ι → γ)
    (happend : ∀ {front back front' back'}, view front = view front' →
      view back = view back' → view (front ++ back) = view (front' ++ back'))
    {reader : EStateM ε σ α} {write : α → List ι} {good : α → Prop}
    (hrecord : Yields ahead reader fun value taken =>
      good value ∧ view taken = view (write value)) (count : ℕ) :
    Yields ahead (StatefulExcept.collect reader count) fun values taken =>
      (∀ value ∈ values, good value) ∧ values.length = count ∧
        view taken = view (values.flatMap write) := by
  refine (hrecord.collect_pieces count).imp fun values taken htable => ?_
  obtain ⟨hcount, pieces, hpieces, rfl⟩ := htable
  obtain ⟨hgood, hwritten⟩ := (List.forall₂_and_left ..).mp hpieces
  refine ⟨hgood, hcount, ?_⟩
  clear hcount hgood hpieces
  induction hwritten with
  | nil => rfl
  | cons hhead _ ih =>
      rw [List.flatten_cons, List.flatMap_cons]
      exact happend hhead ih

/-- A table holds what its records were written as. -/
theorem Yields.collect {reader : EStateM ε σ α} {write : α → List ι}
    {good : α → Prop}
    (hrecord : Yields ahead reader fun value taken =>
      good value ∧ taken = write value) (count : ℕ) :
    Yields ahead (StatefulExcept.collect reader count) fun values taken =>
      (∀ value ∈ values, good value) ∧ values.length = count ∧
        taken = values.flatMap write :=
  Yields.collect_viewed id (congrArg₂ _) hrecord count

/-- A table has the length its records are written with. -/
theorem Yields.collect_length {reader : EStateM ε σ α} {write : α → List ι}
    {good : α → Prop}
    (hrecord : Yields ahead reader fun value taken =>
      good value ∧ taken.length = (write value).length) (count : ℕ) :
    Yields ahead (StatefulExcept.collect reader count) fun values taken =>
      (∀ value ∈ values, good value) ∧ values.length = count ∧
        taken.length = (values.flatMap write).length := by
  refine Yields.collect_viewed List.length ?_ hrecord count
  intro front back front' back' hfront hback
  rw [List.length_append, List.length_append, hfront, hback]

end StreamCodec
