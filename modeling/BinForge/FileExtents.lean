import Mathlib

/-!
# Extents backed by a file

An extent occupies a range of addresses; a prefix of it is backed by a range of
a file and the rest reads as zeros.  A list of separated extents assigns to
each address an access and a source.  Joining neighbours that continue each
other keeps this assignment exactly when no zeros stand before backed bytes.
-/

structure FileExtent (κ : Type) where
  start : ℕ
  length : ℕ
  source : ℕ
  backed : ℕ
  access : κ

namespace FileExtent

variable {κ : Type}

def stop (extent : FileExtent κ) : ℕ := extent.start + extent.length

def Covers (extent : FileExtent κ) (address : ℕ) : Prop :=
  extent.start ≤ address ∧ address < extent.stop

instance (extent : FileExtent κ) (address : ℕ) :
    Decidable (extent.Covers address) :=
  inferInstanceAs (Decidable (_ ∧ _))

/-- The file position a covered address reads from, or nothing for a zero. -/
def sourceOf (extent : FileExtent κ) (address : ℕ) : Option ℕ :=
  if address - extent.start < extent.backed then
    some (extent.source + (address - extent.start))
  else none

/-- Access and source of an address, if an extent covers it. -/
def assigned (extents : List (FileExtent κ)) (address : ℕ) :
    Option (κ × Option ℕ) :=
  (extents.find? fun extent => extent.Covers address).map fun extent =>
    (extent.access, extent.sourceOf address)

structure Proper (extent : FileExtent κ) : Prop where
  nonempty : 0 < extent.length
  backed_le : extent.backed ≤ extent.length

/-- Each extent ends before the next one starts. -/
def Separated (extents : List (FileExtent κ)) : Prop :=
  extents.Pairwise fun left right => left.stop ≤ right.start

section Assigned

variable {first : FileExtent κ} {rest : List (FileExtent κ)} {address : ℕ}

theorem assigned_cons_of_covers (hcovers : first.Covers address) :
    assigned (first :: rest) address =
      some (first.access, first.sourceOf address) := by
  simp [assigned, hcovers]

theorem assigned_cons_of_not_covers (hcovers : ¬first.Covers address) :
    assigned (first :: rest) address = assigned rest address := by
  simp [assigned, hcovers]

theorem assigned_eq_none (hrest : ∀ extent ∈ rest, ¬extent.Covers address) :
    assigned rest address = none := by
  rw [assigned, List.find?_eq_none.mpr fun extent hextent => by
    simpa using hrest extent hextent]
  rfl

/-- A separate first extent hides nothing of the others. -/
theorem assigned_cons_congr {left right : List (FileExtent κ)}
    (hleft : ∀ extent ∈ left, first.stop ≤ extent.start)
    (hright : ∀ extent ∈ right, first.stop ≤ extent.start) :
    (∀ address, assigned (first :: left) address =
        assigned (first :: right) address) ↔
      ∀ address, assigned left address = assigned right address := by
  have hnone : ∀ extents : List (FileExtent κ),
      (∀ extent ∈ extents, first.stop ≤ extent.start) → ∀ address,
        first.Covers address → assigned extents address = none := by
    intro extents hextents address hcovers
    refine assigned_eq_none fun extent hextent hboth => ?_
    have hstart := hextents extent hextent
    unfold Covers at hcovers hboth
    omega
  constructor
  · intro hsame address
    by_cases hcovers : first.Covers address
    · rw [hnone left hleft address hcovers, hnone right hright address hcovers]
    · have h := hsame address
      rwa [assigned_cons_of_not_covers hcovers,
        assigned_cons_of_not_covers hcovers] at h
  · intro hsame address
    by_cases hcovers : first.Covers address
    · rw [assigned_cons_of_covers hcovers, assigned_cons_of_covers hcovers]
    · rw [assigned_cons_of_not_covers hcovers,
        assigned_cons_of_not_covers hcovers, hsame]

end Assigned

/-! ## Joining neighbours -/

/-- The second extent continues the first in memory and in the file. -/
def Continues (first second : FileExtent κ) : Prop :=
  first.stop = second.start ∧ first.source + first.backed = second.source ∧
    first.access = second.access

instance [DecidableEq κ] (first second : FileExtent κ) :
    Decidable (first.Continues second) :=
  inferInstanceAs (Decidable (_ ∧ _))

def join (first second : FileExtent κ) : FileExtent κ :=
  { first with
    length := first.length + second.length
    backed := first.backed + second.backed }

theorem Proper.join {first second : FileExtent κ} (hfirst : first.Proper)
    (hsecond : second.Proper) : (first.join second).Proper := by
  have hnonempty := hfirst.nonempty
  have hleft := hfirst.backed_le
  have hright := hsecond.backed_le
  refine ⟨?_, ?_⟩ <;> simp only [FileExtent.join] <;> omega

theorem join_stop {first second : FileExtent κ}
    (hcontinues : first.Continues second) :
    (first.join second).stop = second.stop := by
  have hstop := hcontinues.1
  unfold stop at hstop ⊢
  simp only [FileExtent.join]
  omega

theorem join_sourceOf (first second : FileExtent κ) (address : ℕ) :
    (first.join second).sourceOf address =
      if address - first.start < first.backed + second.backed then
        some (first.source + (address - first.start))
      else none :=
  rfl

/-- A joined extent reads from where its parts read from, provided that no
zeros come before backed bytes. -/
theorem assigned_join {first second : FileExtent κ}
    {rest : List (FileExtent κ)} (hfirst : first.Proper)
    (hcontinues : first.Continues second)
    (hzeros : first.backed = first.length ∨ second.backed = 0) (address : ℕ) :
    assigned (first.join second :: rest) address =
      assigned (first :: second :: rest) address := by
  obtain ⟨hstop, hsource, haccess⟩ := hcontinues
  have hbacked := hfirst.backed_le
  have hjoined := join_stop ⟨hstop, hsource, haccess⟩
  have hstart : (first.join second).start = first.start := rfl
  have hlengths : first.stop = first.start + first.length ∧
      second.stop = second.start + second.length := ⟨rfl, rfl⟩
  by_cases hleft : first.Covers address
  · have hcovers : (first.join second).Covers address := by
      unfold Covers at hleft ⊢
      omega
    rw [assigned_cons_of_covers hcovers, assigned_cons_of_covers hleft]
    unfold Covers at hleft
    have hinside : address - first.start < first.backed + second.backed ↔
        address - first.start < first.backed := by omega
    rw [join_sourceOf, sourceOf, if_congr hinside rfl rfl]
    rfl
  · rw [assigned_cons_of_not_covers hleft]
    by_cases hright : second.Covers address
    · have hcovers : (first.join second).Covers address := by
        unfold Covers at hright ⊢
        omega
      rw [assigned_cons_of_covers hcovers, assigned_cons_of_covers hright]
      unfold Covers at hright
      have hsame : (first.join second).sourceOf address =
          second.sourceOf address := by
        rw [join_sourceOf, sourceOf]
        by_cases hinside : address - second.start < second.backed
        · rw [if_pos hinside, if_pos (by omega), ← hsource]
          congr 1
          omega
        · rw [if_neg hinside, if_neg (by omega)]
      rw [hsame, ← haccess]
      rfl
    · have hoff : ¬(first.join second).Covers address := by
        unfold Covers at hleft hright ⊢
        omega
      rw [assigned_cons_of_not_covers hoff, assigned_cons_of_not_covers hright]

/-- Between the two, no zeros come before backed bytes. -/
def ZerosLast (first second : FileExtent κ) : Prop :=
  first.Continues second → first.backed = first.length ∨ second.backed = 0

/-- Among separated nonempty extents only neighbours continue each other. -/
theorem isChain_zerosLast_iff {extents : List (FileExtent κ)}
    (hproper : ∀ extent ∈ extents, extent.Proper)
    (hseparated : Separated extents) :
    extents.IsChain ZerosLast ↔
      ∀ first ∈ extents, ∀ second ∈ extents, ZerosLast first second := by
  induction extents with
  | nil => simp
  | cons extent rest ih =>
      obtain ⟨hextent, hrest⟩ := List.forall_mem_cons.mp hproper
      obtain ⟨hbefore, hseparated⟩ := List.pairwise_cons.mp hseparated
      have htail := ih hrest hseparated
      have hpositive := hextent.nonempty
      have hself : ZerosLast extent extent := fun h => by
        have hstop := h.1
        unfold stop at hstop
        omega
      have hback : ∀ other ∈ rest, ZerosLast other extent := by
        intro other hother h
        have hstop := h.1
        have hstart := hbefore other hother
        unfold stop at hstop hstart
        omega
      cases rest with
      | nil =>
          simp only [List.isChain_singleton, List.mem_singleton, forall_eq,
            true_iff]
          exact hself
      | cons next rest =>
          -- Past its neighbour an extent is continued by nothing.
          have hfar : ∀ other ∈ rest, ZerosLast extent other := by
            intro other hother h
            have hstop := h.1
            have hstart := hbefore next List.mem_cons_self
            have hafter := (List.pairwise_cons.mp hseparated).1 other hother
            have hnext := (hrest next List.mem_cons_self).nonempty
            unfold stop at hstop hstart hafter
            omega
          rw [List.isChain_cons_cons, htail]
          constructor
          · rintro ⟨hhead, hall⟩
            refine List.forall_mem_cons.mpr ⟨List.forall_mem_cons.mpr
              ⟨hself, List.forall_mem_cons.mpr ⟨hhead, hfar⟩⟩, ?_⟩
            exact fun other hother => List.forall_mem_cons.mpr
              ⟨hback other hother, hall other hother⟩
          · intro hall
            refine ⟨hall extent (by simp) next (by simp), ?_⟩
            exact fun first hfirst second hsecond =>
              hall first (List.mem_cons_of_mem _ hfirst) second
                (List.mem_cons_of_mem _ hsecond)

section Coalesce

variable [DecidableEq κ]

/-- Join every extent to the pending one as long as it continues it. -/
def coalesce (pending : FileExtent κ) :
    List (FileExtent κ) → List (FileExtent κ)
  | [] => [pending]
  | extent :: rest =>
      if pending.Continues extent then coalesce (pending.join extent) rest
      else pending :: coalesce extent rest

variable {pending first second : FileExtent κ} {rest : List (FileExtent κ)}

theorem coalesce_sum {measure : FileExtent κ → ℕ}
    (hjoin : ∀ first second : FileExtent κ,
      measure (first.join second) = measure first + measure second) :
    ((coalesce pending rest).map measure).sum =
      ((pending :: rest).map measure).sum := by
  induction rest generalizing pending with
  | nil => rfl
  | cons extent rest ih =>
      unfold coalesce
      split
      · rw [ih]
        simp only [List.map_cons, List.sum_cons, hjoin]
        omega
      · simp only [List.map_cons, List.sum_cons, ih]

/-- The first extent only grows. -/
theorem coalesce_head (pending : FileExtent κ) (rest : List (FileExtent κ)) :
    ∃ head tail, coalesce pending rest = head :: tail ∧
      head.start = pending.start ∧ head.source = pending.source ∧
      head.access = pending.access ∧ pending.length ≤ head.length ∧
      pending.backed ≤ head.backed := by
  induction rest generalizing pending with
  | nil => exact ⟨pending, [], rfl, rfl, rfl, rfl, le_rfl, le_rfl⟩
  | cons extent rest ih =>
      unfold coalesce
      split
      · obtain ⟨head, tail, heq, hstart, hsource, haccess, hlength, hbacked⟩ :=
          ih (pending.join extent)
        refine ⟨head, tail, heq, hstart, hsource, haccess, ?_, ?_⟩
        · exact (Nat.le_add_right _ _).trans hlength
        · exact (Nat.le_add_right _ _).trans hbacked
      · exact ⟨pending, _, rfl, rfl, rfl, rfl, le_rfl, le_rfl⟩

theorem coalesce_last_stop :
    ((coalesce pending rest).getLast?.map stop) =
      ((pending :: rest).getLast?.map stop) := by
  induction rest generalizing pending with
  | nil => rfl
  | cons extent rest ih =>
      unfold coalesce
      split
      next hcontinues =>
        rw [ih, List.getLast?_cons_cons]
        cases rest with
        | nil => simp [join_stop hcontinues]
        | cons next rest => rw [List.getLast?_cons_cons, List.getLast?_cons_cons]
      next =>
        obtain ⟨head, tail, heq, _⟩ := coalesce_head extent rest
        have hlast : (coalesce extent rest).getLast?.map stop =
            (extent :: rest).getLast?.map stop := ih
        rw [heq] at hlast ⊢
        rw [List.getLast?_cons_cons, hlast, List.getLast?_cons_cons]

theorem coalesce_start (hfirst : ∀ extent ∈ pending :: rest,
    first.stop ≤ extent.start) :
    ∀ extent ∈ coalesce pending rest, first.stop ≤ extent.start := by
  induction rest generalizing pending with
  | nil => exact hfirst
  | cons extent rest ih =>
      obtain ⟨hpending, hrest⟩ := List.forall_mem_cons.mp hfirst
      unfold coalesce
      split
      · exact ih (List.forall_mem_cons.mpr
          ⟨hpending, (List.forall_mem_cons.mp hrest).2⟩)
      · exact List.forall_mem_cons.mpr ⟨hpending, ih hrest⟩

/-- Where zeros come first, joining puts file bytes in their place. -/
theorem assigned_coalesce_ne
    (hzeros : first.backed < first.length) (hsecond : 0 < second.backed) :
    assigned (coalesce (first.join second) rest) (first.start + first.backed) ≠
      assigned (first :: second :: rest) (first.start + first.backed) := by
  obtain ⟨head, tail, heq, hstart, -, -, hlength, hbacked⟩ :=
    coalesce_head (first.join second) rest
  simp only [join] at hstart hlength hbacked
  have hleft : first.Covers (first.start + first.backed) := by
    unfold Covers stop
    omega
  have hcovers : head.Covers (first.start + first.backed) := by
    unfold Covers stop
    omega
  rw [heq, assigned_cons_of_covers hcovers, assigned_cons_of_covers hleft]
  unfold sourceOf
  rw [if_pos (by omega), if_neg (by omega)]
  simp

/-- What matters of the pending extent is its end, and whether it is backed up
to there; `last` is the extent it was last joined with. -/
theorem assigned_coalesce_pending {last : FileExtent κ}
    (hproper : ∀ extent ∈ pending :: last :: rest, extent.Proper)
    (hseparated : Separated (pending :: rest))
    (hstop : last.stop = pending.stop)
    (hsource : last.source + last.backed = pending.source + pending.backed)
    (haccess : last.access = pending.access)
    (hfull : last.backed = last.length ↔ pending.backed = pending.length) :
    (∀ address, assigned (coalesce pending rest) address =
        assigned (pending :: rest) address) ↔
      (last :: rest).IsChain ZerosLast := by
  induction rest generalizing pending last with
  | nil => simp [coalesce]
  | cons extent rest ih =>
      obtain ⟨hpending, hproper⟩ := List.forall_mem_cons.mp hproper
      obtain ⟨hlast, hproper⟩ := List.forall_mem_cons.mp hproper
      obtain ⟨hextent, hrest⟩ := List.forall_mem_cons.mp hproper
      obtain ⟨hbefore, hseparated⟩ := List.pairwise_cons.mp hseparated
      have hsame : last.Continues extent ↔ pending.Continues extent := by
        unfold Continues
        rw [hstop, hsource, haccess]
      rw [List.isChain_cons_cons]
      unfold coalesce
      by_cases hcontinues : pending.Continues extent
      · rw [if_pos hcontinues]
        have hbacked := hpending.backed_le
        by_cases hzeros : pending.backed = pending.length ∨ extent.backed = 0
        · have hjoined := join_stop hcontinues
          have hlengths := hextent.nonempty
          have htail : (∀ address,
                assigned (coalesce (pending.join extent) rest) address =
                  assigned (pending.join extent :: rest) address) ↔
              (extent :: rest).IsChain ZerosLast := ih
            (List.forall_mem_cons.mpr ⟨hpending.join hextent,
              List.forall_mem_cons.mpr ⟨hextent, hrest⟩⟩)
            (List.pairwise_cons.mpr ⟨fun other hother =>
              hjoined ▸ (List.pairwise_cons.mp hseparated).1 other hother,
              (List.pairwise_cons.mp hseparated).2⟩) hjoined.symm
            (by
              have hnext := hcontinues.2.1
              simp only [join]
              omega) hcontinues.2.2.symm
            (by
              have hextentBacked := hextent.backed_le
              simp only [join]
              omega)
          simp only [assigned_join hpending hcontinues hzeros] at htail
          rw [htail]
          refine (and_iff_right fun _ => ?_).symm
          rwa [hfull]
        · rw [not_or] at hzeros
          refine iff_of_false (fun hall => ?_) fun hchain => ?_
          · exact assigned_coalesce_ne (by omega) (by omega) (hall _)
          · have hlastZeros := hchain.1 (hsame.mpr hcontinues)
            rw [hfull] at hlastZeros
            exact hlastZeros.elim hzeros.1 hzeros.2
      · rw [if_neg hcontinues, assigned_cons_congr (coalesce_start hbefore)
          hbefore, ih
            (List.forall_mem_cons.mpr ⟨hextent, hproper⟩) hseparated rfl rfl rfl
            Iff.rfl]
        exact (and_iff_right fun h => absurd (hsame.mp h) hcontinues).symm

/-- Joining neighbours keeps every address's access and source exactly when no
extent with zeros at its end is continued by one with backed bytes. -/
theorem assigned_coalesce_iff
    (hproper : ∀ extent ∈ pending :: rest, extent.Proper)
    (hseparated : Separated (pending :: rest)) :
    (∀ address, assigned (coalesce pending rest) address =
        assigned (pending :: rest) address) ↔
      ∀ first ∈ pending :: rest, ∀ second ∈ pending :: rest,
        ZerosLast first second := by
  have hpending := hproper pending List.mem_cons_self
  rw [assigned_coalesce_pending
    (List.forall_mem_cons.mpr ⟨hpending, hproper⟩) hseparated rfl rfl rfl
    Iff.rfl, isChain_zerosLast_iff hproper hseparated]

end Coalesce

end FileExtent
