import BinForge.StreamCodec

/-!
# Streams of instructions

A read is portable when the items it took determine what it returned: in front
of other items that begin with the same ones it takes these and returns the
same.  A text of instructions that are read one after the other by a portable
read then has parts: behind whole instructions the rest is read as if it stood
alone.
-/

namespace InstructionStream

open StatefulExcept
open StreamCodec

variable {ε σ ι α β : Type} {ahead : σ → List ι → Prop}
variable {least more : ℕ}

/-! ## Portable reads -/

/-- A successful read has taken at least this many items, and takes them in
front of whatever else. -/
def Portable (ahead : σ → List ι → Prop) (least : ℕ)
    (reader : EStateM ε σ α) : Prop :=
  Yields ahead reader fun value taken =>
    least ≤ taken.length ∧ Consumes ahead 0 reader taken value

theorem Portable.pure (value : α) :
    Portable ahead 0 (Pure.pure value : EStateM ε σ α) := by
  apply Yields.pure
  exact ⟨Nat.le_refl 0, Consumes.pure value⟩

theorem Portable.throw (failure : ε) :
    Portable ahead least (throw failure : EStateM ε σ α) := by
  intro cursor items value next _ hrun
  rw [throw_apply] at hrun
  contradiction

theorem Portable.weaken {reader : EStateM ε σ α}
    (hreader : Portable ahead more reader) (hle : least ≤ more) :
    Portable ahead least reader := by
  apply Yields.imp hreader
  intro value taken htaken
  exact ⟨hle.trans htaken.1, htaken.2⟩

theorem Portable.bind {reader : EStateM ε σ α} {rest : α → EStateM ε σ β}
    (hreader : Portable ahead least reader)
    (hrest : ∀ value, Portable ahead more (rest value)) :
    Portable ahead (least + more) (reader >>= rest) := by
  apply Yields.bind hreader
  intro value front hfront
  apply Yields.imp (hrest value)
  intro result back hback
  constructor
  · rw [List.length_append]
    exact Nat.add_le_add hfront.1 hback.1
  · exact hfront.2.bind hback.2

theorem Portable.bind_rest {reader : EStateM ε σ α} {rest : α → EStateM ε σ β}
    (hreader : Portable ahead least reader)
    (hrest : ∀ value, Portable ahead 0 (rest value)) :
    Portable ahead least (reader >>= rest) :=
  hreader.bind hrest

theorem Portable.rejectIf {condition : Prop} [Decidable condition] {failure : ε}
    {rest : Unit → EStateM ε σ β} (hrest : Portable ahead least (rest ())) :
    Portable ahead least
      (StatefulExcept.rejectIf condition failure >>= rest) := by
  apply Yields.rejectIf
  intro hfalse
  apply Yields.imp hrest
  intro value taken htaken
  exact ⟨htaken.1, Consumes.rejectIf hfalse htaken.2⟩

/-- A check of the cursor that passes wherever as many items are ahead as the
read takes. -/
theorem Portable.rejectIf_state {condition : σ → Prop}
    [∀ cursor, Decidable (condition cursor)] {failure : σ → ε}
    {rest : EStateM ε σ β} (hrest : Portable ahead least rest)
    (hfalse : ∀ cursor items other found, ahead cursor items →
      ahead other found → least ≤ found.length →
      ¬condition cursor → ¬condition other) :
    Portable ahead least (do
      let cursor ← get
      StatefulExcept.rejectIf (condition cursor) (failure cursor)
      rest) := by
  intro cursor items value next hahead hrun
  rw [bind_of_ok (get_apply cursor), rejectIf_bind_eq_ok] at hrun
  obtain ⟨taken, tail, rfl, hnext, hleast, hconsumes⟩ :=
    hrest cursor items value next hahead hrun.2
  refine ⟨taken, tail, rfl, hnext, hleast, ?_⟩
  apply Consumes.rejectIf_state _ hconsumes
  intro other more _ hother
  apply hfalse cursor _ other _ hahead hother _ hrun.1
  rw [List.length_append]
  exact hleast.trans (Nat.le_add_right _ _)

/-! ## Reading a text -/

/-- The instructions of a text, up to one that cannot be read. -/
structure Program (α : Type) where
  instructions : List α
  whole : Bool
  deriving DecidableEq, Repr

/-- Instructions and then a program. -/
def Program.after (program : Program α) (values : List α) : Program α :=
  { program with instructions := values ++ program.instructions }

/-- Read instructions while items are left, for at most this many rounds. -/
def readProgram (left : σ → ℕ) (reader : EStateM ε σ α) : ℕ → σ → Program α
  | 0, cursor => { instructions := [], whole := decide (left cursor = 0) }
  | rounds + 1, cursor =>
      if left cursor = 0 then { instructions := [], whole := true }
      else
        match reader cursor with
        | .ok value next => (readProgram left reader rounds next).after [value]
        | .error _ _ => { instructions := [], whole := false }

section Program

variable {left : σ → ℕ} {reader : EStateM ε σ α}

theorem readProgram_done {rounds : ℕ} {cursor : σ} (hdone : left cursor = 0) :
    readProgram left reader rounds cursor =
      { instructions := [], whole := true } := by
  cases rounds with
  | zero => simp [readProgram, hdone]
  | succ rounds => rw [readProgram, if_pos hdone]

/-- An item count, and a read that takes at least one item. -/
structure Readable (ahead : σ → List ι → Prop) (left : σ → ℕ)
    (reader : EStateM ε σ α) : Prop where
  left_eq : ∀ cursor items, ahead cursor items → left cursor = items.length
  portable : Portable ahead 1 reader

variable (hread : Readable ahead left reader)

include hread

theorem Readable.ok_of_ok {cursor other next : σ} {items : List ι} {value : α}
    (hcursor : ahead cursor items) (hother : ahead other items)
    (hrun : reader cursor = .ok value next) :
    ∃ tail last, tail.length < items.length ∧ ahead next tail ∧
      ahead last tail ∧ reader other = .ok value last := by
  obtain ⟨taken, tail, rfl, hnext, hleast, hconsumes⟩ :=
    hread.portable cursor items value next hcursor hrun
  obtain ⟨last, hlast, htail⟩ :=
    hconsumes other tail (Nat.zero_le _) hother
  refine ⟨tail, last, ?_, hnext, htail, hlast⟩
  rw [List.length_append]
  omega

/-- Only the items ahead matter, and a round for each of them is enough. -/
theorem Readable.readProgram_congr {rounds others : ℕ} {cursor other : σ}
    {items : List ι} (hcursor : ahead cursor items)
    (hother : ahead other items) (hrounds : items.length ≤ rounds)
    (hothers : items.length ≤ others) :
    readProgram left reader rounds cursor =
      readProgram left reader others other := by
  induction rounds generalizing others cursor other items with
  | zero =>
      have hleft := hread.left_eq cursor items hcursor
      have hleft' := hread.left_eq other items hother
      rw [readProgram_done (by omega), readProgram_done (by omega)]
  | succ rounds ih =>
      have hleft := hread.left_eq cursor items hcursor
      have hleft' := hread.left_eq other items hother
      by_cases hdone : items.length = 0
      · rw [readProgram_done (by omega), readProgram_done (by omega)]
      · cases others with
        | zero => omega
        | succ others =>
            rw [readProgram, if_neg (by omega), readProgram,
              if_neg (by omega)]
            cases hrun : reader cursor with
            | ok value next =>
                obtain ⟨tail, last, hshorter, hnext, htail, hlast⟩ :=
                  hread.ok_of_ok hcursor hother hrun
                rw [hlast]
                have hrest : readProgram left reader rounds next =
                    readProgram left reader others last :=
                  ih hnext htail (by omega) (by omega)
                dsimp only
                rw [hrest]
            | error why next =>
                cases hlast : reader other with
                | ok value last =>
                    obtain ⟨_, _, _, _, _, hok⟩ :=
                      hread.ok_of_ok hother hcursor hlast
                    rw [hrun] at hok
                    contradiction
                | error why' last => rfl

/-- One instruction in front of a text. -/
theorem Readable.readProgram_cons {rounds others : ℕ} {cursor other : σ}
    {taken items : List ι} {value : α} (htaken : taken ≠ [])
    (hconsumes : Consumes ahead 0 reader taken value)
    (hcursor : ahead cursor (taken ++ items)) (hother : ahead other items)
    (hrounds : (taken ++ items).length ≤ rounds)
    (hothers : items.length ≤ others) :
    readProgram left reader rounds cursor =
      (readProgram left reader others other).after [value] := by
  have hpositive := List.length_pos_iff.mpr htaken
  have hleft := hread.left_eq cursor _ hcursor
  obtain ⟨next, hrun, hnext⟩ := hconsumes cursor items (Nat.zero_le _) hcursor
  rw [List.length_append] at hrounds hleft
  cases rounds with
  | zero => omega
  | succ rounds =>
      rw [readProgram, if_neg (by omega), hrun]
      dsimp only
      rw [hread.readProgram_congr hnext hother (by omega) hothers]

/-- Behind whole instructions the rest is read as if it stood alone. -/
theorem Readable.readProgram_append {rounds others more : ℕ}
    {cursor other last : σ} {front back : List ι}
    (hfront : ahead cursor front)
    (hwhole : (readProgram left reader rounds cursor).whole = true)
    (hboth : ahead other (front ++ back)) (hback : ahead last back)
    (hothers : (front ++ back).length ≤ others)
    (hmore : back.length ≤ more) :
    readProgram left reader others other =
      (readProgram left reader more last).after
        (readProgram left reader rounds cursor).instructions := by
  induction rounds generalizing cursor other front others with
  | zero =>
      have hleft := hread.left_eq cursor front hfront
      have hempty : front = [] := by
        simp only [readProgram, decide_eq_true_eq] at hwhole
        exact List.eq_nil_of_length_eq_zero (by omega)
      rw [hempty] at hboth hothers
      rw [hread.readProgram_congr hboth hback hothers hmore]
      rfl
  | succ rounds ih =>
      have hleft := hread.left_eq cursor front hfront
      rw [readProgram] at hwhole ⊢
      split_ifs at hwhole ⊢ with hdone
      · have hempty : front = [] :=
          List.eq_nil_of_length_eq_zero (by omega)
        rw [hempty] at hboth hothers
        exact hread.readProgram_congr hboth hback hothers hmore
      · cases hrun : reader cursor with
        | error why next =>
            rw [hrun] at hwhole
            contradiction
        | ok value next =>
            rw [hrun] at hwhole
            obtain ⟨taken, tail, rfl, hnext, hleast, hconsumes⟩ :=
              hread.portable cursor front value next hfront hrun
            rw [List.append_assoc] at hboth hothers
            have htaken : taken ≠ [] := List.length_pos_iff.mp hleast
            obtain ⟨middle, _, hmiddle⟩ :=
              hconsumes other (tail ++ back) (Nat.zero_le _) hboth
            rw [hread.readProgram_cons htaken hconsumes hboth hmiddle hothers
                (Nat.le_refl _),
              ih hnext hwhole hmiddle (Nat.le_refl _)]
            rfl

end Program

end InstructionStream
