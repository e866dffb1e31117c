/-!
# Fresh numbers

Names made by the compiler carry a number. `firstFree` finds the first number whose names are not
taken; a number that is skipped takes at least one name out of the way, so the search ends.
-/

namespace Braces

/-- The names that are not among others. -/
def without (names others : List String) : List String := names.filter (· ∉ others)

theorem length_without_lt {names others : List String} (h : ∃ s ∈ others, s ∈ names) :
    (without names others).length < names.length := by
  obtain ⟨s, hs, hn⟩ := h
  exact List.length_filter_lt_length_iff_exists.mpr ⟨s, hn, by simp [hs]⟩

/-- The first number from `n` on with no spelling among the taken names. Spellings of different
numbers have to differ. -/
def firstFree (spellings : Nat → List String) (taken : List String) (n : Nat) : Nat :=
  if h : ∃ s ∈ spellings n, s ∈ taken then
    have := length_without_lt h
    firstFree spellings (without taken (spellings n)) (n + 1)
  else n
termination_by taken.length

theorem le_firstFree (spellings : Nat → List String) (taken : List String) (n : Nat) :
    n ≤ firstFree spellings taken n := by
  fun_induction firstFree spellings taken n with
  | case1 _ _ _ _ ih => omega
  | case2 => exact Nat.le_refl _

end Braces
