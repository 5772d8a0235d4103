import BinForge.Loader

/-!
# The tables of the symbol resolver

`add_export` records an export under its ordinal and, when it has a name, under
its name, or it records nothing.  After any run of calls the two maps are the
two views of one list, the exports held, in which no ordinal and no name of a
library occurs twice.
-/

namespace BinForge

open StatefulExcept

/-! ## Association lists without repeated keys -/

section Lookup

variable {κ α : Type} [BEq κ] [LawfulBEq κ]

theorem lookup_eq_some_of_nodup {entries : List (κ × α)} {key : κ} {value : α}
    (hkeys : (entries.map Prod.fst).Nodup) :
    entries.lookup key = some value ↔ (key, value) ∈ entries := by
  induction entries with
  | nil => simp
  | cons entry entries ih =>
      obtain ⟨hfresh, hrest⟩ := List.nodup_cons.mp hkeys
      rw [List.lookup_cons, List.mem_cons]
      by_cases hkey : key = entry.1
      · have habsent : (key, value) ∉ entries := fun hmem =>
          hfresh (hkey ▸ List.mem_map_of_mem hmem)
        subst hkey
        simp only [beq_self_eq_true, Option.some.injEq, habsent, or_false]
        exact ⟨fun hvalue => Prod.ext rfl hvalue.symm,
          fun hpair => (congrArg Prod.snd hpair).symm⟩
      · have hne : (key, value) ≠ entry := fun hpair =>
          hkey (congrArg Prod.fst hpair)
        simp only [beq_eq_false_iff_ne.mpr hkey, hne, false_or]
        exact ih hrest

theorem lookup_isSome_iff_mem {entries : List (κ × α)} {key : κ} :
    (entries.lookup key).isSome ↔ key ∈ entries.map Prod.fst := by
  simp only [List.lookup_isSome_iff, List.mem_map, beq_iff_eq, eq_comm (a := key)]

end Lookup

namespace SymbolResolver

/-! ## Runs -/

/-- An export with the library it is offered for. -/
structure Offer where
  library : Bytes
  symbol : Export
  deriving DecidableEq, Repr

def Offer.nameKey (offer : Offer) : Bytes × Bytes :=
  (offer.library, offer.symbol.name)

def Offer.ordinalKey (offer : Offer) : Bytes × UInt64 :=
  (offer.library, offer.symbol.ordinal)

/-- The offers that have a name. -/
def nameOffers (held : List Offer) : List Offer :=
  held.filter fun offer => offer.symbol.name ≠ []

/-- `clear` empties both maps. -/
def clear : EStateM Failure SymbolResolver Unit := set ({} : SymbolResolver)

inductive Call
  | addExport (offer : Offer)
  | clear

/-- A resolver with the exports it has accepted since it was last empty, the
latest first. -/
structure Account where
  resolver : SymbolResolver := {}
  held : List Offer := []
  deriving DecidableEq, Repr

/-- A call, and what it makes of the exports held. -/
def Account.perform (account : Account) : Call → Account
  | .addExport offer =>
      match addExport offer.library offer.symbol account.resolver with
      | .ok _ next => { resolver := next, held := offer :: account.held }
      | .error _ next => { account with resolver := next }
  | .clear => { resolver := finalState (clear account.resolver), held := [] }

/-- The account of a run from an empty resolver. -/
def account (calls : List Call) : Account :=
  calls.foldl Account.perform {}

/-- The resolver after a run from an empty one. -/
def ofCalls (calls : List Call) : SymbolResolver :=
  (account calls).resolver

/-- The exports accepted in a run, since the last `clear`. -/
def held (calls : List Call) : List Offer :=
  (account calls).held

/-! ## What the maps hold -/

theorem addExport_eq_ok {resolver next : SymbolResolver} {offer : Offer} :
    addExport offer.library offer.symbol resolver = .ok () next ↔
      ((offer.symbol.name ≠ [] →
          (resolver.named.lookup offer.nameKey).isSome = false) ∧
        (resolver.ordinal.lookup offer.ordinalKey).isSome = false) ∧
      next =
        { named :=
            if offer.symbol.name ≠ [] then
              (offer.nameKey, offer.symbol.address) :: resolver.named
            else resolver.named
          ordinal :=
            (offer.ordinalKey, offer.symbol.address) :: resolver.ordinal } := by
  unfold addExport
  rw [bind_of_ok (get_apply _), rejectIf_bind_eq_ok, set_apply, not_or, not_and,
    Bool.not_eq_true, Bool.not_eq_true, EStateM.Result.ok.injEq]
  exact and_congr_right fun _ => ⟨fun h => h.2.symm, fun h => ⟨rfl, h.symm⟩⟩

/-- A refused export leaves the resolver as it was. -/
theorem addExport_error {resolver next : SymbolResolver} {library : Bytes}
    {symbol : Export} {why : Failure}
    (hrun : addExport library symbol resolver = .error why next) :
    next = resolver := by
  unfold addExport at hrun
  rw [bind_of_ok (get_apply _), bind_eq_error] at hrun
  rcases hrun with hreject | ⟨_, _, -, hset⟩
  · exact (rejectIf_eq_error.mp hreject).2.2
  · contradiction

/-- The maps are the two views of the exports held, whose keys are distinct. -/
structure Account.Consistent (account : Account) : Prop where
  named : account.resolver.named =
    (nameOffers account.held).map fun offer =>
      (offer.nameKey, offer.symbol.address)
  ordinal : account.resolver.ordinal =
    account.held.map fun offer => (offer.ordinalKey, offer.symbol.address)
  names : ((nameOffers account.held).map Offer.nameKey).Nodup
  ordinals : (account.held.map Offer.ordinalKey).Nodup

variable {account : Account}

theorem Account.Consistent.nameKeys (hconsistent : account.Consistent) :
    account.resolver.named.map Prod.fst =
      (nameOffers account.held).map Offer.nameKey := by
  rw [hconsistent.named, List.map_map]
  rfl

theorem Account.Consistent.ordinalKeys (hconsistent : account.Consistent) :
    account.resolver.ordinal.map Prod.fst =
      account.held.map Offer.ordinalKey := by
  rw [hconsistent.ordinal, List.map_map]
  rfl

theorem Account.Consistent.empty : Account.Consistent {} :=
  ⟨rfl, rfl, List.nodup_nil, List.nodup_nil⟩

theorem Account.Consistent.accept (hconsistent : account.Consistent)
    {offer : Offer} {next : SymbolResolver}
    (hrun : addExport offer.library offer.symbol account.resolver =
      .ok () next) :
    Account.Consistent ⟨next, offer :: account.held⟩ := by
  obtain ⟨⟨hname, hordinal⟩, rfl⟩ := addExport_eq_ok.mp hrun
  rw [← Bool.not_eq_true, lookup_isSome_iff_mem, hconsistent.ordinalKeys]
    at hordinal
  have hordinals := List.nodup_cons.mpr ⟨hordinal, hconsistent.ordinals⟩
  by_cases hnamed : offer.symbol.name ≠ []
  · have hfresh := hname hnamed
    rw [← Bool.not_eq_true, lookup_isSome_iff_mem, hconsistent.nameKeys]
      at hfresh
    have hnames : nameOffers (offer :: account.held) =
        offer :: nameOffers account.held := by
      simp [nameOffers, hnamed]
    refine ⟨?_, ?_, ?_, hordinals⟩
    · rw [if_pos hnamed, hnames, hconsistent.named]
      rfl
    · rw [hconsistent.ordinal]
      rfl
    · rw [hnames]
      exact List.nodup_cons.mpr ⟨hfresh, hconsistent.names⟩
  · have hnames : nameOffers (offer :: account.held) =
        nameOffers account.held := by
      simp [nameOffers, hnamed]
    refine ⟨?_, ?_, ?_, hordinals⟩
    · rw [if_neg hnamed, hnames, hconsistent.named]
    · rw [hconsistent.ordinal]
      rfl
    · rw [hnames]
      exact hconsistent.names

theorem Account.Consistent.perform (hconsistent : account.Consistent)
    (call : Call) : (account.perform call).Consistent := by
  cases call with
  | clear => exact Account.Consistent.empty
  | addExport offer =>
      cases hrun : addExport offer.library offer.symbol account.resolver with
      | ok value next =>
          simp only [Account.perform, hrun]
          exact hconsistent.accept hrun
      | error why next =>
          simp only [Account.perform, hrun]
          obtain rfl := addExport_error hrun
          exact hconsistent

theorem account_consistent (calls : List Call) :
    (SymbolResolver.account calls).Consistent := by
  unfold SymbolResolver.account
  generalize hstart : ({} : Account) = start
  have hconsistent : start.Consistent := hstart ▸ Account.Consistent.empty
  clear hstart
  induction calls generalizing start with
  | nil => exact hconsistent
  | cons call calls ih => exact ih _ (hconsistent.perform call)

/-! ## What the resolver answers -/

/-- The name a library exports, with its address. -/
def ExportsName (calls : List Call) (library name : Bytes)
    (address : UInt64) : Prop :=
  ∃ offer ∈ held calls, offer.library = library ∧ name ≠ [] ∧
    offer.symbol.name = name ∧ offer.symbol.address = address

/-- The ordinal a library exports, with its address. -/
def ExportsOrdinal (calls : List Call) (library : Bytes)
    (ordinal address : UInt64) : Prop :=
  ∃ offer ∈ held calls, offer.library = library ∧
    offer.symbol.ordinal = ordinal ∧ offer.symbol.address = address

instance (calls : List Call) (library name : Bytes) (address : UInt64) :
    Decidable (ExportsName calls library name address) :=
  inferInstanceAs (Decidable (∃ offer ∈ held calls, _))

instance (calls : List Call) (library : Bytes)
    (ordinal address : UInt64) :
    Decidable (ExportsOrdinal calls library ordinal address) :=
  inferInstanceAs (Decidable (∃ offer ∈ held calls, _))

theorem named_eq_some {calls : List Call} {library name : Bytes}
    {address : UInt64} :
    (if name ≠ [] then (ofCalls calls).named.lookup (library, name)
      else none) = some address ↔
      ExportsName calls library name address := by
  have hconsistent := account_consistent calls
  unfold ExportsName held ofCalls
  by_cases hname : name ≠ []
  · rw [if_pos hname, lookup_eq_some_of_nodup
      (hconsistent.nameKeys ▸ hconsistent.names), hconsistent.named,
      List.mem_map]
    simp only [nameOffers, List.mem_filter, decide_eq_true_eq, Offer.nameKey,
      Prod.mk.injEq]
    constructor
    · rintro ⟨offer, ⟨hmem, -⟩, ⟨hlibrary, hsame⟩, haddress⟩
      exact ⟨offer, hmem, hlibrary, hname, hsame, haddress⟩
    · rintro ⟨offer, hmem, hlibrary, -, hsame, haddress⟩
      exact ⟨offer, ⟨hmem, hsame ▸ hname⟩, ⟨hlibrary, hsame⟩, haddress⟩
  · rw [if_neg hname]
    constructor
    · intro hnone
      contradiction
    · rintro ⟨_, -, -, hnonempty, -⟩
      exact absurd hnonempty hname

theorem ordinal_eq_some {calls : List Call} {library : Bytes}
    {ordinal address : UInt64} :
    (ofCalls calls).ordinal.lookup (library, ordinal) = some address ↔
      ExportsOrdinal calls library ordinal address := by
  have hconsistent := account_consistent calls
  unfold ExportsOrdinal held ofCalls
  rw [lookup_eq_some_of_nodup
    (hconsistent.ordinalKeys ▸ hconsistent.ordinals), hconsistent.ordinal,
    List.mem_map]
  simp only [Offer.ordinalKey, Prod.mk.injEq, and_assoc]

/-- The name table is asked first, and the ordinal table when it has no
answer. -/
theorem resolve_eq_some {calls : List Call} {library name : Bytes}
    {ordinal address : UInt64} :
    (ofCalls calls).resolve library name ordinal = some address ↔
      ExportsName calls library name address ∨
        (∀ other, ¬ExportsName calls library name other) ∧
          ExportsOrdinal calls library ordinal address := by
  unfold resolve
  simp only [← named_eq_some, ← ordinal_eq_some]
  cases (if name ≠ [] then (ofCalls calls).named.lookup (library, name)
      else none) with
  | none => simp
  | some found => simp

theorem resolve_eq_none {calls : List Call} {library name : Bytes}
    {ordinal : UInt64} :
    (ofCalls calls).resolve library name ordinal = none ↔
      (∀ address, ¬ExportsName calls library name address) ∧
        ∀ address, ¬ExportsOrdinal calls library ordinal address := by
  unfold resolve
  simp only [← named_eq_some, ← ordinal_eq_some, ← Option.eq_none_iff_forall_ne_some]
  cases (if name ≠ [] then (ofCalls calls).named.lookup (library, name)
      else none) with
  | none => simp
  | some found => simp

/-- Exports of one library differ in their ordinals and in the names they
have. -/
def Offer.Distinct (left right : Offer) : Prop :=
  left.library = right.library →
    left.symbol.ordinal ≠ right.symbol.ordinal ∧
      (left.symbol.name ≠ [] → left.symbol.name ≠ right.symbol.name)

theorem Account.Consistent.distinct (hconsistent : account.Consistent) :
    account.held.Pairwise Offer.Distinct := by
  have hordinals := List.pairwise_map.mp hconsistent.ordinals
  have hnames := List.pairwise_filter.mp
    (List.pairwise_map.mp hconsistent.names)
  refine (hordinals.and hnames).imp ?_
  rintro left right ⟨hordinal, hname⟩ hlibrary
  refine ⟨fun hsame => hordinal (Prod.ext hlibrary hsame),
    fun hnonempty hsame => ?_⟩
  exact hname (decide_eq_true hnonempty) (decide_eq_true (hsame ▸ hnonempty))
    (Prod.ext hlibrary hsame)

/-- After any run the exports held are told apart by ordinal and by name, each is
found under both, and a refused export changes no answer. -/
theorem tables_consistent (calls : List Call) :
    (held calls).Pairwise Offer.Distinct ∧
      (∀ offer ∈ held calls,
        (offer.symbol.name ≠ [] → ∀ ordinal,
          (ofCalls calls).resolve offer.library offer.symbol.name ordinal =
            some offer.symbol.address) ∧
        (ofCalls calls).resolve offer.library [] offer.symbol.ordinal =
          some offer.symbol.address) ∧
      ∀ (offer : Offer) why next,
        addExport offer.library offer.symbol (ofCalls calls) =
            .error why next →
          ∀ library name ordinal,
            next.resolve library name ordinal =
              (ofCalls calls).resolve library name ordinal := by
  refine ⟨(account_consistent calls).distinct, ?_, ?_⟩
  · intro offer hmem
    constructor
    · intro hname ordinal
      exact resolve_eq_some.mpr
        (Or.inl ⟨offer, hmem, rfl, hname, rfl, rfl⟩)
    · refine resolve_eq_some.mpr
        (Or.inr ⟨?_, offer, hmem, rfl, rfl, rfl⟩)
      rintro _ ⟨_, -, -, hnonempty, -⟩
      exact hnonempty rfl
  · intro offer why next hrun library name ordinal
    rw [addExport_error hrun]

end SymbolResolver
end BinForge
