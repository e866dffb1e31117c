/-!
# Attempts

An attempt works on a state and comes to a value or to a fault, in the state that it has reached by
then. What a sequence of two comes to follows from what the first one comes to.
-/

namespace Braces

/-- Works on states `σ` and may end with a fault `ε`. -/
abbrev Attempt (ε σ : Type) := ExceptT ε (StateM σ)

namespace Attempt

variable {ε σ α β : Type} {x y : Attempt ε σ α} {f : α → Attempt ε σ β} {s s₁ : σ}

/-- What an attempt comes to. -/
def on (x : Attempt ε σ α) (s : σ) : Except ε α × σ := x.run.run s

theorem on_bind_ok {a : α} (h : x.on s = (.ok a, s₁)) : (x >>= f).on s = (f a).on s₁ := by
  rw [on] at h ⊢
  rw [ExceptT.run_bind, StateT.run_bind, h]
  rfl

theorem on_bind_error {e : ε} (h : x.on s = (.error e, s₁)) : (x >>= f).on s = (.error e, s₁) := by
  rw [on] at h ⊢
  rw [ExceptT.run_bind, StateT.run_bind, h]
  rfl

theorem on_bind_congr (h : x.on s = y.on s) : (x >>= f).on s = (y >>= f).on s := by
  rw [on] at h ⊢
  rw [ExceptT.run_bind, StateT.run_bind, h]
  rfl

theorem on_get_bind {f : σ → Attempt ε σ α} : (get >>= f).on s = (f s).on s := rfl

end Attempt

end Braces
