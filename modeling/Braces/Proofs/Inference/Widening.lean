import Braces.Ty
import Mathlib.Order.Defs.PartialOrder

/-!
# The order of types

A slot that holds values of a type also holds those of every type below it. Nothing is below an
unknown type but itself, numbers widen from `bool` over `int` to `float`, and all other types stand
alone. A join is the least type above both, wherever the two types mix.
-/

namespace Braces

namespace Ty

/-- Whether a slot of type `b` takes in a value of type `a` and stays as it is. -/
def fits (a b : Ty) : Bool := b.accepts a && b.join a = b

instance : PartialOrder Ty where
  le a b := a.fits b = true
  le_refl a := by cases a <;> rfl
  le_trans a b c := by cases a <;> cases b <;> cases c <;> decide
  le_antisymm a b := by cases a <;> cases b <;> decide

instance (a b : Ty) : Decidable (a ≤ b) := inferInstanceAs (Decidable (a.fits b = true))

theorem unknown_le (a : Ty) : unknown ≤ a := by cases a <;> rfl

theorem le_unknown_iff {a : Ty} : a ≤ unknown ↔ a = unknown := by cases a <;> decide

theorem le_join_left (a b : Ty) : a ≤ a.join b := by cases a <;> cases b <;> rfl

theorem le_join_right {a b : Ty} (h : a.accepts b = true) : b ≤ a.join b := by
  revert h
  cases a <;> cases b <;> decide

theorem join_le {a b c : Ty} (ha : a ≤ c) (hb : b ≤ c) : a.join b ≤ c := by
  revert ha hb
  cases a <;> cases b <;> cases c <;> decide

theorem join_eq_left_of_le {a b : Ty} (h : b ≤ a) : a.join b = a :=
  le_antisymm (join_le (le_refl a) h) (le_join_left a b)

/-- Of types that mix, a slot absorbs those below its own. -/
theorem join_eq_left_iff {a b : Ty} (h : a.accepts b = true) : a.join b = a ↔ b ≤ a :=
  ⟨fun heq => heq ▸ le_join_right h, join_eq_left_of_le⟩

theorem accepts_of_isNumeric {a b : Ty} (ha : a.isNumeric = true) (hb : b.isNumeric = true) :
    a.accepts b = true := by
  simp [accepts, ha, hb]

/-! ## Slots that took in several types -/

theorem isNumeric_of_join {a b : Ty} (h : (a.join b).isNumeric = true) : a.isNumeric = true := by
  revert h
  cases a <;> cases b <;> decide

/-- A number fits a slot exactly if it fits what the slot held or what it took in. -/
theorem le_join_iff {a b e : Ty} (h : (a.join b).isNumeric = true) (he : e.isNumeric = true) :
    e ≤ a.join b ↔ e ≤ a ∨ e ≤ b := by
  revert h he
  cases a <;> cases b <;> cases e <;> decide

theorem isNumeric_of_foldl_join {tys : List Ty} {a : Ty}
    (h : (tys.foldl join a).isNumeric = true) : a.isNumeric = true := by
  induction tys generalizing a with
  | nil => exact h
  | cons b tys ih => exact isNumeric_of_join (ih h)

theorem le_foldl_join_iff {tys : List Ty} {a e : Ty} (h : (tys.foldl join a).isNumeric = true)
    (he : e.isNumeric = true) : e ≤ tys.foldl join a ↔ e ≤ a ∨ ∃ ty ∈ tys, e ≤ ty := by
  induction tys generalizing a with
  | nil => simp
  | cons b tys ih =>
    have hb : (a.join b).isNumeric = true := isNumeric_of_foldl_join h
    rw [List.foldl_cons, ih h, le_join_iff hb he, or_assoc]
    simp only [List.mem_cons, exists_eq_or_imp]

theorem join_foldl_of_join {a b : Ty} (h : a.join b = a) (tys : List Ty) :
    (tys.foldl join a).join b = tys.foldl join a := by
  induction tys generalizing a with
  | nil => exact h
  | cons c tys ih =>
    apply ih
    revert h
    cases a <;> cases b <;> cases c <;> decide

/-- A slot absorbs all that it took in, also what does not mix with it. -/
theorem join_foldl_of_mem {tys : List Ty} {b : Ty} (h : b ∈ tys) (a : Ty) :
    (tys.foldl join a).join b = tys.foldl join a := by
  induction tys generalizing a with
  | nil => cases h
  | cons c tys ih =>
    rcases List.mem_cons.mp h with rfl | h
    · have habsorbs : (a.join b).join b = a.join b := by cases a <;> cases b <;> rfl
      exact join_foldl_of_join habsorbs tys
    · exact ih h _

theorem foldl_join_eq_unknown_iff {tys : List Ty} {a : Ty} :
    tys.foldl join a = unknown ↔ a = unknown ∧ ∀ ty ∈ tys, ty = unknown := by
  induction tys generalizing a with
  | nil => simp
  | cons b tys ih =>
    have hjoin : a.join b = unknown ↔ a = unknown ∧ b = unknown := by
      cases a <;> cases b <;> decide
    rw [List.foldl_cons, ih, hjoin, List.forall_mem_cons, and_assoc]

theorem le_foldl_join (tys : List Ty) (a : Ty) : a ≤ tys.foldl join a := by
  induction tys generalizing a with
  | nil => exact le_refl a
  | cons b tys ih => exact le_trans (le_join_left a b) (ih _)

end Ty

end Braces
