import Mathlib.Data.List.Basic
import Mathlib.Data.Nat.Digits.Defs
import Braces.Cpp.Tree
import Braces.Fresh

/-!
# Spellings do not collide

Different source names are spelled differently, different hidden names are spelled differently, and
a hidden name is the spelling of no source name but the one written like it. `firstFree` avoids that
one, so hidden names stay apart from the variables of their routine.
-/

namespace Braces.Cpp

theorem stem_append_underscore (name : String) : stem (name ++ "_") = stem name := by
  simp [stem]

theorem spell_of_reserved {name : String} (h : stem name ∈ reserved) : spell name = name ++ "_" :=
  if_pos h

theorem spell_of_not_reserved {name : String} (h : stem name ∉ reserved) : spell name = name :=
  if_neg h

/-- Taking one more underscore does not change the stem, so a name that takes one is never spelled
like a name that takes none. -/
theorem spell_ne_of_stem {a b : String} (ha : stem a ∈ reserved) (hb : stem b ∉ reserved) :
    spell a ≠ spell b := by
  intro h
  rw [spell_of_reserved ha, spell_of_not_reserved hb] at h
  apply hb
  rw [← h, stem_append_underscore]
  exact ha

theorem spell_inj {a b : String} (h : spell a = spell b) : a = b := by
  by_cases ha : stem a ∈ reserved <;> by_cases hb : stem b ∈ reserved
  · rw [spell_of_reserved ha, spell_of_reserved hb] at h
    exact (String.append_left_inj _).mp h
  · exact absurd h (spell_ne_of_stem ha hb)
  · exact absurd h.symm (spell_ne_of_stem hb ha)
  · rwa [spell_of_not_reserved ha, spell_of_not_reserved hb] at h

/-! ## Hidden names -/

theorem toList_hiddenName (s : Stem) (n : Nat) :
    (hiddenName s n).toList =
      "py2cpp_".toList ++ (s.text.toList ++ '_' :: Nat.toDigits 10 n) := by
  simp [hiddenName, toString, Nat.repr]

theorem toDigits_inj {n m : Nat} (h : Nat.toDigits 10 n = Nat.toDigits 10 m) : n = m := by
  rw [← Nat.ofDigitChars_ten_toDigits (n := n), h, Nat.ofDigitChars_ten_toDigits]

theorem hiddenName_inj {s s' : Stem} {n m : Nat} (h : hiddenName s n = hiddenName s' m) :
    s = s' ∧ n = m := by
  have hl := congrArg String.toList h
  rw [toList_hiddenName, toList_hiddenName, List.append_cancel_left_eq] at hl
  cases s <;> cases s' <;> simp [Stem.text] at hl <;> exact ⟨rfl, toDigits_inj hl⟩

/-- A hidden name ends in a digit, so no name that took an underscore is spelled like it. -/
theorem eq_of_spell_eq_hiddenName {name : String} {s : Stem} {n : Nat}
    (h : spell name = hiddenName s n) : name = hiddenName s n := by
  by_cases hr : stem name ∈ reserved
  · rw [spell_of_reserved hr] at h
    have hlast := congrArg (fun t : String => t.toList.getLast?) h
    simp only [toList_hiddenName, String.toList_append] at hlast
    obtain ⟨d, hd⟩ := Option.ne_none_iff_exists'.mp
      (mt List.getLast?_eq_none_iff.mp (Nat.toDigits_ne_nil (n := n) (b := 10)))
    have hdigit := Nat.isDigit_of_mem_toDigits (by decide) (by decide) (List.mem_of_getLast? hd)
    simp [List.getLast?_append, List.getLast?_cons, hd] at hlast
    subst hlast
    exact absurd hdigit (by decide)
  · rwa [spell_of_not_reserved hr] at h

end Braces.Cpp

namespace Braces

theorem mem_without {names others : List String} {s : String} :
    s ∈ without names others ↔ s ∈ names ∧ s ∉ others := by
  simp [without]

/-- The number that is found has no spelling among the taken names: the names that were put aside on
the way are spellings of smaller numbers. -/
theorem firstFree_free {spellings : Nat → List String}
    (apart : ∀ {n m s}, s ∈ spellings n → s ∈ spellings m → n = m)
    (taken : List String) (n : Nat) {s : String}
    (hs : s ∈ spellings (firstFree spellings taken n)) : s ∉ taken := by
  fun_induction firstFree spellings taken n with
  | case1 taken n _ _ ih =>
    intro ht
    refine ih hs (mem_without.mpr ⟨ht, ?_⟩)
    intro hn
    have := le_firstFree spellings (without taken (spellings n)) (n + 1)
    have := apart hn hs
    omega
  | case2 taken n h =>
    intro ht
    exact h ⟨s, hs, ht⟩

end Braces
