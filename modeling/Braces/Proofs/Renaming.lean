import Mathlib.Data.Set.Pairwise.Basic
import Braces.Proofs.Grouping.Literals

/-!
# Renaming keeps names apart

The names that are spelled otherwise than they are written come in families, one for each reserved
word: the word with any number of underscores at its end. Each member is spelled like the next
longer one, so that a family stays within itself and gives up the reserved word, and all other names
stay as they are.
-/

namespace Braces.Cpp

/-- A word with so many underscores at its end. -/
def trailed (word : String) (n : Nat) : String := word ++ String.ofList (List.replicate n '_')

theorem trailed_succ (word : String) (n : Nat) : trailed word (n + 1) = trailed word n ++ "_" := by
  rw [trailed, trailed, List.replicate_succ', String.ofList_append, ← String.append_assoc]

theorem stem_trailed (word : String) (n : Nat) : stem (trailed word n) = stem word := by
  induction n with
  | zero => simp [trailed]
  | succ n ih => rw [trailed_succ, stem_append_underscore, ih]

theorem exists_eq_trailed_stem (name : String) : ∃ n, name = trailed (stem name) n := by
  have hends : name.toList.reverse.takeWhile (· = '_') =
      List.replicate (name.toList.reverse.takeWhile (· = '_')).length '_' := by
    refine List.eq_replicate_of_mem fun c hc => ?_
    simpa using List.mem_takeWhile_imp hc
  refine ⟨(name.toList.reverse.takeWhile (· = '_')).length, String.toList_inj.mp ?_⟩
  calc name.toList
      = (name.toList.reverse.takeWhile (· = '_') ++
          name.toList.reverse.dropWhile (· = '_')).reverse := by
        rw [List.takeWhile_append_dropWhile, List.reverse_reverse]
    _ = (trailed (stem name) (name.toList.reverse.takeWhile (· = '_')).length).toList := by
        rw [List.reverse_append, trailed, stem, String.toList_append, String.toList_ofList,
          String.toList_ofList, ← List.reverse_replicate, ← hends]

/-- The names that take an underscore are the families of the reserved words. -/
theorem stem_mem_reserved_iff {name : String} :
    stem name ∈ reserved ↔ ∃ word ∈ reserved, ∃ n, name = trailed word n := by
  constructor
  · intro h
    exact ⟨stem name, h, exists_eq_trailed_stem name⟩
  · rintro ⟨word, hword, n, rfl⟩
    rwa [stem_trailed, stem_of_mem_reserved word hword]

theorem spell_trailed {word : String} (h : word ∈ reserved) (n : Nat) :
    spell (trailed word n) = trailed word (n + 1) := by
  rw [spell_of_reserved (stem_mem_reserved_iff.mpr ⟨word, h, n, rfl⟩), trailed_succ]

theorem text_mem_reserved (h : Helper) : h.text ∈ reserved := by
  cases h <;> decide +kernel

/-- Different names have different spellings, and none is a reserved word. The members of a reserved
word's family move on by one, and names of no family keep their spelling. So the spellings of any
set of names are pairwise distinct and mean nothing else in the target. -/
theorem spell_keeps_apart :
    Function.Injective spell ∧ (∀ name, spell name ∉ reserved) ∧
      (∀ word ∈ reserved, ∀ n, spell (trailed word n) = trailed word (n + 1)) ∧
      (∀ name, (¬ ∃ word ∈ reserved, ∃ n, name = trailed word n) → spell name = name) ∧
      ∀ names : Set String, names.Pairwise (fun a b => spell a ≠ spell b) ∧
        ∀ name ∈ names, spell name ∉ keywords ∧ ∀ h : Helper, spell name ≠ h.text := by
  refine ⟨fun a b h => spell_inj h, spell_not_mem_reserved, fun word hword => spell_trailed hword,
    fun name hname => ?_, fun names => ⟨fun a _ b _ hne heq => hne (spell_inj heq), ?_⟩⟩
  · exact spell_of_not_reserved (mt stem_mem_reserved_iff.mp hname)
  · intro name _
    refine ⟨fun hmem => spell_not_mem_reserved name (List.mem_append_left _ hmem), fun h heq => ?_⟩
    exact spell_not_mem_reserved name (heq ▸ text_mem_reserved h)

example : [trailed "new" 0, trailed "new" 2, trailed "total" 1, "_"].map spell =
    ["new_", "new___", "total_", "_"] := by decide +kernel

end Braces.Cpp
