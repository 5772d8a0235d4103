import Mathlib

/-!
# Ordered maps and maps of intervals

An ordered associative container with the iterator queries of a search tree:
the first entry not below a key and the entries next to it.  The entries are
kept strictly increasing by a field of the structure.

The second half reads a container as a family of intervals, one starting at
each key.  When the intervals are pairwise disjoint, the two neighbours of a
new interval decide whether it meets any of them, and the predecessor of a
point is the only interval that can hold it.
-/

/-- Entries with strictly increasing keys. -/
@[ext]
structure OrderedMap (κ α : Type) [LinearOrder κ] where
  entries : List (κ × α)
  sorted : entries.Pairwise fun left right => left.1 < right.1

namespace OrderedMap

variable {κ α : Type} [LinearOrder κ]

instance [DecidableEq α] : DecidableEq (OrderedMap κ α) := fun left right =>
  decidable_of_iff (left.entries = right.entries) OrderedMap.ext_iff.symm

def empty : OrderedMap κ α := ⟨[], List.Pairwise.nil⟩

/-- The entries with keys below `key`, those an iterator at the lower bound of
`key` has behind it. -/
def below (map : OrderedMap κ α) (key : κ) : List (κ × α) :=
  map.entries.filter fun entry => entry.1 < key

/-- The entries from the lower bound of `key` on. -/
def fromKey (map : OrderedMap κ α) (key : κ) : List (κ × α) :=
  map.entries.filter fun entry => key ≤ entry.1

def lowerBound (map : OrderedMap κ α) (key : κ) : Option (κ × α) :=
  (map.fromKey key).head?

/-- The entry before the lower bound of `key`. -/
def beforeLowerBound (map : OrderedMap κ α) (key : κ) : Option (κ × α) :=
  (map.below key).getLast?

/-- The entry before the upper bound of `key`: the last key not above it. -/
def beforeUpperBound (map : OrderedMap κ α) (key : κ) : Option (κ × α) :=
  (map.entries.filter fun entry => entry.1 ≤ key).getLast?

def find? (map : OrderedMap κ α) (key : κ) : Option α :=
  (map.entries.find? fun entry => entry.1 = key).map Prod.snd

def contains (map : OrderedMap κ α) (key : κ) : Bool :=
  (map.find? key).isSome

/-! ## Membership and lookup -/

theorem key_injective {map : OrderedMap κ α} {left right : κ × α}
    (hleft : left ∈ map.entries) (hright : right ∈ map.entries)
    (hkey : left.1 = right.1) : left = right :=
  List.Pairwise.forall_of_forall_of_flip
    (R := fun first second : κ × α => first.1 = second.1 → first = second)
    (fun _ _ _ => rfl)
    (map.sorted.imp fun hlt heq => absurd heq hlt.ne)
    (map.sorted.imp fun hlt heq => absurd heq hlt.ne') hleft hright hkey

theorem find?_eq_some {map : OrderedMap κ α} {key : κ} {value : α} :
    map.find? key = some value ↔ (key, value) ∈ map.entries := by
  constructor
  · intro hfind
    obtain ⟨entry, hentry, rfl⟩ := Option.map_eq_some_iff.mp hfind
    have hkey : entry.1 = key := by simpa using List.find?_some hentry
    have hmem := List.mem_of_find?_eq_some hentry
    rw [← hkey]
    exact hmem
  · intro hmem
    cases hfind : map.entries.find? fun entry => entry.1 = key with
    | none =>
        have habsent := List.find?_eq_none.mp hfind (key, value) hmem
        simp at habsent
    | some entry =>
        have hkey : entry.1 = key := by simpa using List.find?_some hfind
        have hentry := key_injective (List.mem_of_find?_eq_some hfind) hmem hkey
        rw [find?, hfind, hentry]
        rfl

theorem find?_eq_none {map : OrderedMap κ α} {key : κ} :
    map.find? key = none ↔ ∀ entry ∈ map.entries, entry.1 ≠ key := by
  simp [find?]

/-! ## Iterator neighbours -/

theorem mem_below {map : OrderedMap κ α} {key : κ} {entry : κ × α} :
    entry ∈ map.below key ↔ entry ∈ map.entries ∧ entry.1 < key := by
  simp [below]

theorem mem_fromKey {map : OrderedMap κ α} {key : κ} {entry : κ × α} :
    entry ∈ map.fromKey key ↔ entry ∈ map.entries ∧ key ≤ entry.1 := by
  simp [fromKey]

private theorem head?_least {entries : List (κ × α)} {entry : κ × α}
    (hsorted : entries.Pairwise fun left right => left.1 < right.1)
    (hhead : entries.head? = some entry) :
    entry ∈ entries ∧ ∀ other ∈ entries, entry.1 ≤ other.1 := by
  cases entries with
  | nil => simp at hhead
  | cons first rest =>
      simp only [List.head?_cons, Option.some.injEq] at hhead
      subst first
      refine ⟨List.mem_cons_self, fun other hother => ?_⟩
      rcases List.mem_cons.mp hother with rfl | hrest
      · exact le_refl _
      · exact (List.rel_of_pairwise_cons hsorted hrest).le

private theorem getLast?_greatest {entries : List (κ × α)} {entry : κ × α}
    (hsorted : entries.Pairwise fun left right => left.1 < right.1)
    (hlast : entries.getLast? = some entry) :
    entry ∈ entries ∧ ∀ other ∈ entries, other.1 ≤ entry.1 := by
  have hmem := List.mem_of_getLast? hlast
  refine ⟨hmem, fun other hother => ?_⟩
  obtain ⟨front, rfl⟩ := List.getLast?_eq_some_iff.mp hlast
  rcases List.mem_append.mp hother with hfront | hend
  · exact ((List.pairwise_append.mp hsorted).2.2 other hfront entry
      (List.mem_singleton.mpr rfl)).le
  · rw [List.mem_singleton.mp hend]

theorem lowerBound_eq_some {map : OrderedMap κ α} {key : κ} {entry : κ × α}
    (hnext : map.lowerBound key = some entry) :
    entry ∈ map.entries ∧ key ≤ entry.1 ∧
      ∀ other ∈ map.entries, key ≤ other.1 → entry.1 ≤ other.1 := by
  obtain ⟨hmem, hleast⟩ := head?_least (map.sorted.filter _) hnext
  obtain ⟨hmem, hkey⟩ := mem_fromKey.mp hmem
  exact ⟨hmem, hkey, fun other hother hle =>
    hleast other (mem_fromKey.mpr ⟨hother, hle⟩)⟩

theorem lowerBound_eq_none {map : OrderedMap κ α} {key : κ} :
    map.lowerBound key = none ↔ ∀ entry ∈ map.entries, entry.1 < key := by
  simp [lowerBound, fromKey]

theorem beforeLowerBound_eq_some {map : OrderedMap κ α} {key : κ}
    {entry : κ × α} (hprevious : map.beforeLowerBound key = some entry) :
    entry ∈ map.entries ∧ entry.1 < key ∧
      ∀ other ∈ map.entries, other.1 < key → other.1 ≤ entry.1 := by
  obtain ⟨hmem, hgreatest⟩ := getLast?_greatest (map.sorted.filter _) hprevious
  obtain ⟨hmem, hkey⟩ := mem_below.mp hmem
  exact ⟨hmem, hkey, fun other hother hlt =>
    hgreatest other (mem_below.mpr ⟨hother, hlt⟩)⟩

theorem beforeLowerBound_eq_none {map : OrderedMap κ α} {key : κ} :
    map.beforeLowerBound key = none ↔ ∀ entry ∈ map.entries, key ≤ entry.1 := by
  simp [beforeLowerBound, below]

theorem beforeUpperBound_eq_some {map : OrderedMap κ α} {key : κ}
    {entry : κ × α} (hcandidate : map.beforeUpperBound key = some entry) :
    entry ∈ map.entries ∧ entry.1 ≤ key ∧
      ∀ other ∈ map.entries, other.1 ≤ key → other.1 ≤ entry.1 := by
  obtain ⟨hmem, hgreatest⟩ := getLast?_greatest (map.sorted.filter _) hcandidate
  obtain ⟨hmem, hkey⟩ := List.mem_filter.mp hmem
  refine ⟨hmem, by simpa using hkey, fun other hother hle => ?_⟩
  exact hgreatest other (List.mem_filter.mpr ⟨hother, by simpa using hle⟩)

theorem beforeUpperBound_eq_none {map : OrderedMap κ α} {key : κ} :
    map.beforeUpperBound key = none ↔ ∀ entry ∈ map.entries, key < entry.1 := by
  simp [beforeUpperBound]

/-! ## Updates -/

private theorem split_sorted (map : OrderedMap κ α) (key : κ) (value : α)
    (habsent : ∀ entry ∈ map.entries, entry.1 ≠ key) :
    (map.below key ++ (key, value) :: map.fromKey key).Pairwise
      fun left right => left.1 < right.1 := by
  rw [List.pairwise_append, List.pairwise_cons]
  refine ⟨map.sorted.filter _, ⟨fun entry hentry => ?_, map.sorted.filter _⟩, ?_⟩
  · obtain ⟨hmem, hle⟩ := mem_fromKey.mp hentry
    exact lt_of_le_of_ne hle (habsent entry hmem).symm
  · intro left hleft right hright
    have hlt := (mem_below.mp hleft).2
    rcases List.mem_cons.mp hright with rfl | hright
    · exact hlt
    · exact hlt.trans_le (mem_fromKey.mp hright).2

/-- Insert unless the key is present. -/
def emplace (map : OrderedMap κ α) (key : κ) (value : α) : OrderedMap κ α :=
  if habsent : ∀ entry ∈ map.entries, entry.1 ≠ key then
    ⟨map.below key ++ (key, value) :: map.fromKey key,
      split_sorted map key value habsent⟩
  else map

def erase (map : OrderedMap κ α) (key : κ) : OrderedMap κ α :=
  ⟨map.entries.filter fun entry => entry.1 ≠ key, map.sorted.filter _⟩

/-- Change the value stored under `key`. -/
def adjust (map : OrderedMap κ α) (key : κ) (change : α → α) :
    OrderedMap κ α :=
  ⟨map.entries.map fun entry =>
      if entry.1 = key then (entry.1, change entry.2) else entry, by
    rw [List.pairwise_map]
    refine map.sorted.imp fun {left right} hlt => ?_
    split <;> split <;> exact hlt⟩

/-- What `map[key] = value` leaves. -/
def assign (map : OrderedMap κ α) (key : κ) (value : α) : OrderedMap κ α :=
  (map.emplace key value).adjust key fun _ => value

theorem emplace_entries {map : OrderedMap κ α} {key : κ} (value : α)
    (habsent : ∀ entry ∈ map.entries, entry.1 ≠ key) :
    (map.emplace key value).entries =
      map.below key ++ (key, value) :: map.fromKey key := by
  rw [emplace, dif_pos habsent]

theorem emplace_perm {map : OrderedMap κ α} {key : κ} (value : α)
    (habsent : ∀ entry ∈ map.entries, entry.1 ≠ key) :
    (map.emplace key value).entries.Perm ((key, value) :: map.entries) := by
  rw [emplace_entries value habsent]
  refine List.perm_middle.trans (List.Perm.cons _ ?_)
  have hsplit := List.filter_append_perm
    (fun entry : κ × α => decide (entry.1 < key)) map.entries
  simpa only [below, fromKey, ← not_lt, decide_not] using hsplit

/-- The order of the entries is forced by their keys. -/
theorem entries_eq_of_perm {map : OrderedMap κ α} {entries : List (κ × α)}
    (hsorted : entries.Pairwise fun left right => left.1 < right.1)
    (hperm : map.entries.Perm entries) : map.entries = entries := by
  refine hperm.eq_of_pairwise ?_ map.sorted hsorted
  intro first second _ _ hlt hgt
  exact absurd hgt hlt.asymm

theorem eq_of_perm {left right : OrderedMap κ α}
    (hperm : left.entries.Perm right.entries) : left = right :=
  OrderedMap.ext (entries_eq_of_perm right.sorted hperm)

theorem mem_emplace {map : OrderedMap κ α} {key : κ} {value : α}
    {entry : κ × α} (habsent : ∀ entry ∈ map.entries, entry.1 ≠ key) :
    entry ∈ (map.emplace key value).entries ↔
      entry = (key, value) ∨ entry ∈ map.entries := by
  rw [(emplace_perm value habsent).mem_iff, List.mem_cons]

theorem mem_erase {map : OrderedMap κ α} {key : κ} {entry : κ × α} :
    entry ∈ (map.erase key).entries ↔
      entry ∈ map.entries ∧ entry.1 ≠ key := by
  simp [erase]

theorem erase_perm {map : OrderedMap κ α} {key : κ} {value : α}
    (hmem : (key, value) ∈ map.entries) :
    map.entries.Perm ((key, value) :: (map.erase key).entries) := by
  have hmatch : map.entries.filter (fun entry => decide (entry.1 = key)) =
      [(key, value)] := by
    have hpairwise := map.sorted.filter fun entry => decide (entry.1 = key)
    have hall : ∀ entry ∈
        map.entries.filter (fun entry => decide (entry.1 = key)),
          entry = (key, value) := by
      intro entry hentry
      obtain ⟨hentry, hkey⟩ := List.mem_filter.mp hentry
      exact key_injective hentry hmem (by simpa using hkey)
    have hin : (key, value) ∈
        map.entries.filter (fun entry => decide (entry.1 = key)) :=
      List.mem_filter.mpr ⟨hmem, by simp⟩
    cases hlist : map.entries.filter (fun entry => decide (entry.1 = key)) with
    | nil => simp [hlist] at hin
    | cons first rest =>
        rw [hlist] at hall hpairwise
        cases rest with
        | nil => rw [hall first List.mem_cons_self]
        | cons second rest =>
            have hlt := List.rel_of_pairwise_cons hpairwise List.mem_cons_self
            rw [hall first List.mem_cons_self,
              hall second (List.mem_cons_of_mem _ List.mem_cons_self)] at hlt
            exact absurd hlt (lt_irrefl _)
  have hsplit := List.filter_append_perm
    (fun entry : κ × α => decide (entry.1 = key)) map.entries
  rw [hmatch] at hsplit
  simpa [erase] using hsplit.symm

theorem mem_adjust {map : OrderedMap κ α} {key : κ} {change : α → α}
    {entry : κ × α} :
    entry ∈ (map.adjust key change).entries ↔
      (entry ∈ map.entries ∧ entry.1 ≠ key) ∨
        ∃ value, (key, value) ∈ map.entries ∧ entry = (key, change value) := by
  simp only [adjust, List.mem_map]
  constructor
  · rintro ⟨source, hsource, rfl⟩
    by_cases hkey : source.1 = key
    · rw [if_pos hkey]
      exact Or.inr ⟨source.2, by rw [← hkey]; exact hsource, by rw [hkey]⟩
    · rw [if_neg hkey]
      exact Or.inl ⟨hsource, hkey⟩
  · rintro (⟨hmem, hkey⟩ | ⟨value, hmem, rfl⟩)
    · exact ⟨entry, hmem, by rw [if_neg hkey]⟩
    · exact ⟨(key, value), hmem, by simp⟩

theorem adjust_adjust (map : OrderedMap κ α) (key : κ)
    (first second : α → α) :
    (map.adjust key first).adjust key second =
      map.adjust key (fun value => second (first value)) := by
  ext1
  simp only [adjust, List.map_map]
  refine List.map_congr_left fun entry _ => ?_
  by_cases hkey : entry.1 = key <;> simp [hkey]

/-- Changing a value just inserted inserts the changed value. -/
theorem adjust_emplace {map : OrderedMap κ α} {key : κ} {value : α}
    (habsent : ∀ entry ∈ map.entries, entry.1 ≠ key) (change : α → α) :
    (map.emplace key value).adjust key change =
      map.emplace key (change value) := by
  ext1
  have hother : ∀ entries : List (κ × α), (∀ entry ∈ entries, entry.1 ≠ key) →
      entries.map (fun entry => if entry.1 = key then
        (entry.1, change entry.2) else entry) = entries := by
    intro entries hentries
    conv_rhs => rw [← List.map_id entries]
    refine List.map_congr_left fun entry hentry => ?_
    rw [if_neg (hentries entry hentry), id]
  show (map.emplace key value).entries.map _ = _
  rw [emplace_entries _ habsent, emplace_entries _ habsent, List.map_append,
    List.map_cons, if_pos rfl,
    hother _ fun entry hentry => habsent entry (mem_below.mp hentry).1,
    hother _ fun entry hentry => habsent entry (mem_fromKey.mp hentry).1]

theorem emplace_entries_of_lt {map : OrderedMap κ α} {key : κ} (value : α)
    (habove : ∀ entry ∈ map.entries, entry.1 < key) :
    (map.emplace key value).entries = map.entries ++ [(key, value)] := by
  have hbelow : map.below key = map.entries :=
    List.filter_eq_self.mpr fun entry hentry => by simpa using habove entry hentry
  have hfrom : map.fromKey key = [] :=
    List.filter_eq_nil_iff.mpr fun entry hentry => by
      simpa using habove entry hentry
  rw [emplace_entries value fun entry hentry => (habove entry hentry).ne,
    hbelow, hfrom]

theorem adjust_congr {map : OrderedMap κ α} {key : κ} {first second : α → α}
    (hsame : ∀ value, (key, value) ∈ map.entries → first value = second value) :
    map.adjust key first = map.adjust key second := by
  ext1
  simp only [adjust]
  refine List.map_congr_left fun entry hentry => ?_
  by_cases hkey : entry.1 = key
  · subst hkey
    rw [if_pos rfl, if_pos rfl, hsame entry.2 hentry]
  · rw [if_neg hkey, if_neg hkey]

theorem adjust_id {map : OrderedMap κ α} {key : κ} {change : α → α}
    (hsame : ∀ value, (key, value) ∈ map.entries → change value = value) :
    map.adjust key change = map := by
  have hid : map.adjust key change = map.adjust key id := adjust_congr hsame
  rw [hid]
  ext1
  simp only [adjust, id]
  conv_rhs => rw [← List.map_id map.entries]
  refine List.map_congr_left fun entry _ => ?_
  split <;> rfl

/-! ## Disjoint intervals

The value stored under a key is an interval from `position key` up to, and
without, `stop value`. -/

section Intervals

variable {τ : Type} [LinearOrder τ] (position : κ → τ) (stop : α → τ)

/-- Each interval ends before the next one starts. -/
def Separated (map : OrderedMap κ α) : Prop :=
  map.entries.Pairwise fun left right => stop left.2 ≤ position right.1

variable {position stop}

theorem Separated.stop_le {map : OrderedMap κ α}
    (hseparated : map.Separated position stop) {left right : κ × α}
    (hleft : left ∈ map.entries) (hright : right ∈ map.entries)
    (hlt : left.1 < right.1) : stop left.2 ≤ position right.1 := by
  have hall : ∀ first ∈ map.entries, ∀ second ∈ map.entries,
      first.1 < second.1 → stop first.2 ≤ position second.1 := by
    have hboth := hseparated.imp₂ (fun _ _ hstop hkey =>
      (⟨hkey, hstop⟩ : _ ∧ _)) map.sorted
    intro first hfirst second hsecond hkey
    refine List.Pairwise.forall_of_forall_of_flip
      (R := fun a b : κ × α => a.1 < b.1 → stop a.2 ≤ position b.1)
      (fun _ _ h => absurd h (lt_irrefl _)) (hboth.imp fun h _ => h.2)
      (hboth.imp fun h hback => absurd hback h.1.asymm) hfirst hsecond hkey
  exact hall left hleft right hright hlt

/-- A point of a separated family lies in the interval of its predecessor. -/
theorem Separated.beforeUpperBound_of_mem {map : OrderedMap κ α}
    (hseparated : map.Separated position stop) (hposition : StrictMono position)
    {entry : κ × α} {key : κ} (hmem : entry ∈ map.entries)
    (hstart : entry.1 ≤ key) (hstop : position key < stop entry.2) :
    map.beforeUpperBound key = some entry := by
  cases hcandidate : map.beforeUpperBound key with
  | none =>
      have habove := beforeUpperBound_eq_none.mp hcandidate entry hmem
      exact absurd hstart (not_le.mpr habove)
  | some candidate =>
      obtain ⟨hin, hle, hgreatest⟩ := beforeUpperBound_eq_some hcandidate
      rcases (hgreatest entry hmem hstart).lt_or_eq with hlt | heq
      · have hend := hseparated.stop_le hmem hin hlt
        exact absurd hstop (not_lt.mpr (hend.trans (hposition.monotone hle)))
      · rw [key_injective hmem hin heq]

/-- The two neighbours of a nonempty interval decide for all of them. -/
theorem Separated.neighbours_iff {map : OrderedMap κ α}
    (hseparated : map.Separated position stop) (hposition : StrictMono position)
    {key : κ} {finish : τ} :
    ((∀ next, map.lowerBound key = some next → finish ≤ position next.1) ∧
        ∀ previous, map.beforeLowerBound key = some previous →
          stop previous.2 ≤ position key) ↔
      ∀ entry ∈ map.entries,
        (key ≤ entry.1 → finish ≤ position entry.1) ∧
          (entry.1 < key → stop entry.2 ≤ position key) := by
  constructor
  · rintro ⟨hnext, hprevious⟩ entry hentry
    constructor
    · intro hle
      cases hbound : map.lowerBound key with
      | none =>
          exact absurd hle (not_le.mpr (lowerBound_eq_none.mp hbound entry hentry))
      | some next =>
          obtain ⟨_, _, hleast⟩ := lowerBound_eq_some hbound
          exact (hnext next hbound).trans
            (hposition.monotone (hleast entry hentry hle))
    · intro hlt
      cases hbound : map.beforeLowerBound key with
      | none =>
          exact absurd hlt
            (not_lt.mpr (beforeLowerBound_eq_none.mp hbound entry hentry))
      | some previous =>
          obtain ⟨hin, hbelow, hgreatest⟩ := beforeLowerBound_eq_some hbound
          rcases (hgreatest entry hentry hlt).lt_or_eq with hless | heq
          · exact (hseparated.stop_le hentry hin hless).trans
              (hposition hbelow).le
          · rw [key_injective hentry hin heq]
            exact hprevious previous hbound
  · intro hall
    refine ⟨fun next hbound => ?_, fun previous hbound => ?_⟩
    · obtain ⟨hin, hle, _⟩ := lowerBound_eq_some hbound
      exact (hall next hin).1 hle
    · obtain ⟨hin, hlt, _⟩ := beforeLowerBound_eq_some hbound
      exact (hall previous hin).2 hlt

theorem Separated.emplace {map : OrderedMap κ α}
    (hseparated : map.Separated position stop) {key : κ} {value : α}
    (habsent : ∀ entry ∈ map.entries, entry.1 ≠ key)
    (hafter : ∀ entry ∈ map.entries, key ≤ entry.1 →
      stop value ≤ position entry.1)
    (hbefore : ∀ entry ∈ map.entries, entry.1 < key →
      stop entry.2 ≤ position key) :
    (map.emplace key value).Separated position stop := by
  unfold Separated
  rw [emplace_entries value habsent, List.pairwise_append, List.pairwise_cons]
  refine ⟨hseparated.filter _, ⟨fun entry hentry => ?_, hseparated.filter _⟩, ?_⟩
  · obtain ⟨hmem, hle⟩ := mem_fromKey.mp hentry
    exact hafter entry hmem hle
  · intro left hleft right hright
    obtain ⟨hleftMem, hlt⟩ := mem_below.mp hleft
    rcases List.mem_cons.mp hright with rfl | hright
    · exact hbefore left hleftMem hlt
    · obtain ⟨hrightMem, hle⟩ := mem_fromKey.mp hright
      exact hseparated.stop_le hleftMem hrightMem (hlt.trans_le hle)

theorem Separated.erase {map : OrderedMap κ α}
    (hseparated : map.Separated position stop) (key : κ) :
    (map.erase key).Separated position stop :=
  hseparated.filter _

theorem Separated.adjust {map : OrderedMap κ α}
    (hseparated : map.Separated position stop) (key : κ) {change : α → α}
    (hstop : ∀ value, stop (change value) = stop value) :
    (map.adjust key change).Separated position stop := by
  unfold Separated OrderedMap.adjust
  rw [List.pairwise_map]
  refine hseparated.imp fun {left right} hle => ?_
  split <;> split <;> simpa [hstop] using hle

end Intervals

end OrderedMap
