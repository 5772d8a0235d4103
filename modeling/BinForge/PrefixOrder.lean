import Mathlib

/-!
# Prefixes in the lexicographic order

The lists that start with a given one stand together in the lexicographic
order, from that list on.  In a sorted list of keys none of which is below the
prefix, the keys that start with it are therefore at the front.
-/

namespace PrefixOrder

variable {α β : Type} [LinearOrder α]

theorem cons_le_cons_iff {head first : α} {start lower : List α} :
    head :: start ≤ first :: lower ↔
      head < first ∨ head = first ∧ start ≤ lower := by
  rw [le_iff_lt_or_eq, le_iff_lt_or_eq]
  constructor
  · rintro (hlt | hsame)
    · cases hlt with
      | cons hrest => exact Or.inr ⟨rfl, Or.inl hrest⟩
      | rel hhead => exact Or.inl hhead
    · obtain ⟨hhead, hrest⟩ := List.cons.inj hsame
      exact Or.inr ⟨hhead, Or.inr hrest⟩
  · rintro (hhead | ⟨rfl, hrest | hsame⟩)
    · exact Or.inl (List.Lex.rel hhead)
    · exact Or.inl (List.Lex.cons hrest)
    · exact Or.inr (by rw [hsame])

theorem nil_le (list : List α) : [] ≤ list := by
  cases list with
  | nil => exact le_refl _
  | cons head rest => exact (show [] < head :: rest from List.Lex.nil).le

theorem not_cons_le_nil {head : α} {start : List α} :
    ¬head :: start ≤ [] := by
  intro hle
  rcases le_iff_lt_or_eq.mp hle with hlt | hsame
  · cases hlt
  · cases hsame

theorem le_of_isPrefix {start list : List α} (hstart : start <+: list) :
    start ≤ list := by
  obtain ⟨rest, rfl⟩ := hstart
  induction start with
  | nil => exact nil_le _
  | cons head start ih => exact cons_le_cons_iff.mpr (Or.inr ⟨rfl, ih⟩)

/-- Between a prefix and a list that starts with it all lists do. -/
theorem isPrefix_of_le_of_le {start lower upper : List α}
    (hlower : start ≤ lower) (hupper : lower ≤ upper)
    (hstart : start <+: upper) : start <+: lower := by
  induction start generalizing lower upper with
  | nil => exact List.nil_prefix
  | cons head start ih =>
      obtain ⟨rest, rfl⟩ := hstart
      cases lower with
      | nil => exact absurd hlower not_cons_le_nil
      | cons first lower =>
          rcases cons_le_cons_iff.mp hlower with hhead | ⟨rfl, hrestLower⟩
          · rcases cons_le_cons_iff.mp hupper with hback | ⟨rfl, -⟩
            · exact absurd hhead hback.asymm
            · exact absurd hhead (lt_irrefl _)
          · rcases cons_le_cons_iff.mp hupper with hback | ⟨-, hrestUpper⟩
            · exact absurd hback (lt_irrefl _)
            · apply (List.prefix_cons_inj head).mpr
              exact ih hrestLower hrestUpper (List.prefix_append start rest)

/-- Where a test fails for good, the front that passes it is all that does. -/
theorem takeWhile_eq_filter {test : β → Bool} {values : List β}
    (hvalues : values.Pairwise fun first second =>
      test second = true → test first = true) :
    values.takeWhile test = values.filter test := by
  induction values with
  | nil => rfl
  | cons value rest ih =>
      obtain ⟨hfirst, hrest⟩ := List.pairwise_cons.mp hvalues
      by_cases hvalue : test value = true
      · rw [List.takeWhile_cons_of_pos hvalue, List.filter_cons_of_pos hvalue,
          ih hrest]
      · have hnone : rest.filter test = [] := by
          apply List.filter_eq_nil_iff.mpr
          intro other hother hpasses
          exact hvalue (hfirst other hother hpasses)
        rw [List.takeWhile_cons_of_neg hvalue, List.filter_cons_of_neg hvalue,
          hnone]

end PrefixOrder
