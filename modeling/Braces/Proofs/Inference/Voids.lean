import Braces.Proofs.Absorption
import Braces.Proofs.Reordering.Programs

/-!
# Where void comes from

A function without a result gives `void` to its calls. Nothing else makes the type: signs pass it
on, and variables and parameters get it only by a store. So if no store takes its value from such a
call, no variable and no parameter of the table is void. The proof follows the walks in the order of
inference.
-/

namespace Braces

/-- What is left of an expression without its signs. -/
def Expr.unsigned : Expr → Expr
  | .unary op e => if op = .not then .unary op e else e.unsigned
  | e => e

namespace Ty

theorem join_eq_void {a b : Ty} (h : a.join b = void) : a = void ∨ b = void := by
  revert h
  cases a <;> cases b <;> decide

theorem foldl_join_eq_void {tys : List Ty} {a : Ty} (h : tys.foldl join a = void) :
    a = void ∨ void ∈ tys := by
  induction tys generalizing a with
  | nil => exact .inl h
  | cons ty tys ih =>
    rcases ih h with hjoin | hmem
    · rcases join_eq_void hjoin with ha | hty
      · exact .inl ha
      · exact .inr (hty ▸ List.mem_cons_self)
    · exact .inr (List.mem_cons_of_mem _ hmem)

theorem foldl_join_void (tys : List Ty) : tys.foldl join void = void := by
  induction tys with
  | nil => rfl
  | cons ty tys ih =>
    have hjoin : void.join ty = void := by cases ty <;> rfl
    rw [List.foldl_cons, hjoin, ih]

theorem arithmetic_ne_void (a b : Ty) : a.arithmetic b ≠ void := by
  cases a <;> cases b <;> decide

end Ty

namespace Table

variable {t t' : Table} {lookup : String → Ty}

/-- Whether an expression is a call of a function without a result. -/
def isVoidCall (t : Table) : Expr → Bool
  | .call name _ => name ≠ Expr.strName && t.slotTy? (.result name) = some .void
  | _ => false

theorem typeOf_of_isVoidCall : ∀ {e : Expr}, t.isVoidCall e = true → t.typeOf lookup e = .void
  | .call name args, h => by
    simp only [isVoidCall, ne_eq, Bool.and_eq_true, decide_eq_true_eq] at h
    have hresult : (t.signature? name).map (·.result) = some .void := h.2
    rw [typeOf, if_neg h.1, hresult]
    rfl

/-- An expression is void only as a call of a function without a result, under any signs, if no
variable is void. -/
theorem isVoidCall_of_typeOf (hlookup : ∀ x, lookup x ≠ .void) :
    ∀ {e : Expr}, t.typeOf lookup e = .void → t.isVoidCall e.unsigned = true
  | .int _, h | .float _, h | .str _, h | .bool _, h | .len _, h | .list _, h
  | .range _ _ _, h => by
    simp [typeOf] at h
  | .var x, h => absurd h (hlookup x)
  | .index target _, h => by
    rw [typeOf] at h
    split at h <;> cases h
  | .binary op l r, h => by
    rw [typeOf] at h
    split at h
    · cases h
    · split at h
      · cases h
      · exact absurd h (Ty.arithmetic_ne_void _ _)
  | .unary op e, h => by
    rw [typeOf] at h
    split at h
    · cases h
    · next hop =>
      rw [Expr.unsigned, if_neg hop]
      dsimp only at h
      split at h
      · cases h
      · exact isVoidCall_of_typeOf hlookup h
  | .call name args, h => by
    rw [typeOf] at h
    split at h
    · cases h
    · next hname =>
      cases hs : t.signature? name with
      | none =>
        rw [hs] at h
        cases h
      | some s =>
        rw [hs] at h
        simpa [Expr.unsigned, isVoidCall, hname, slotTy?, hs] using h

/-- The calls of functions without a result stay such calls. -/
def VoidsStay (t t' : Table) : Prop := ∀ e, t.isVoidCall e = true → t'.isVoidCall e = true

theorem voidsStay_of_slotTy? {tys : String → List Ty}
    (h : ∀ f, t'.slotTy? (.result f) =
      (t.slotTy? (.result f)).map fun old => (tys f).foldl Ty.join old) : VoidsStay t t' := by
  intro e he
  cases e with
  | call name args =>
    simp only [isVoidCall, ne_eq, Bool.and_eq_true, decide_eq_true_eq] at he ⊢
    refine ⟨he.1, ?_⟩
    rw [h, he.2, Option.map_some, Ty.foldl_join_void]
  | _ => cases he

theorem VoidsStay.trans {t'' : Table} (h : VoidsStay t t') (h' : VoidsStay t' t'') :
    VoidsStay t t'' :=
  fun e he => h' e (h e he)

theorem voidsStay_visits (t : Table) (ws : List (String × List Stmt)) :
    VoidsStay t (t.visits ws) :=
  voidsStay_of_slotTy? fun f => slotTy?_visits ws t (.result f)

theorem voidsStay_finalize (t : Table) : VoidsStay t t.finalize := by
  intro e he
  cases e with
  | call name args =>
    simp only [isVoidCall, ne_eq, Bool.and_eq_true, decide_eq_true_eq] at he ⊢
    refine ⟨he.1, ?_⟩
    rw [slotTy?_finalize, he.2]
    rfl
  | _ => cases he

end Table

/-! ## Walks -/

/-- A store to a variable or a parameter does not take its value from a function without a
result. -/
def Store.Filled (t : Table) (s : Store) : Prop :=
  ∀ e, s.origin = .value e → (∀ f, s.cell ≠ .result f) → t.isVoidCall e.unsigned = false

namespace Visit

variable {routine : String} {v : Visit} {t : Table}

/-- No variable and no parameter is void. -/
def Solid (routine : String) (v : Visit) : Prop :=
  ∀ c, (∀ f, c ≠ .result f) → v.cellTy? routine c ≠ some .void

theorem Solid.lookup (h : v.Solid routine) (x : String) : v.scope.lookup x ≠ .void := by
  intro hx
  apply h (.var routine x) (by simp)
  rw [cellTy?, if_pos rfl, hx]

theorem Solid.step (h : v.Solid routine) (hv : v.table.VoidsStay t) {st : Step}
    (hst : ∀ s ∈ st.store? routine, s.Filled t) : (v.step st).Solid routine := by
  intro c hc hvoid
  rw [cellTy?_step] at hvoid
  obtain ⟨old, hold, hfold⟩ := Option.map_eq_some_iff.1 hvoid
  rcases Ty.foldl_join_eq_void hfold with rfl | hseen
  · exact h c hc hold
  obtain ⟨τ, hτ, hty⟩ := List.mem_map.1 hseen
  obtain ⟨hturn, hcell⟩ := List.mem_filter.1 hτ
  simp only [turns, List.append_nil, Option.mem_toList, Option.map_eq_some_iff] at hturn
  obtain ⟨s, hs, rfl⟩ := hturn
  obtain rfl : s.cell = c := by simpa using hcell
  cases horigin : s.origin with
  | elements e =>
    rw [Turn.seen, horigin, Origin.ty, elementTy] at hty
    split at hty <;> cases hty
  | value e =>
    rw [Turn.seen, horigin, Origin.ty] at hty
    have hcall := hv _ (Table.isVoidCall_of_typeOf h.lookup hty)
    rw [hst s hs e horigin hc] at hcall
    cases hcall

theorem voidsStay_run (steps : List Step) (v : Visit) : v.table.VoidsStay (v.run steps).table :=
  Table.voidsStay_of_slotTy? fun f => @cellTy?_run entryName steps v (.result f)

/-- Steps that store nothing void leave no cell void, judged by the functions without a result at
the end. -/
theorem Solid.run {steps : List Step} (h : v.Solid routine) (hv : (v.run steps).table.VoidsStay t)
    (hsteps : ∀ st ∈ steps, ∀ s ∈ st.store? routine, s.Filled t) : (v.run steps).Solid routine := by
  induction steps generalizing v with
  | nil => exact h
  | cons st rest ih =>
    have hstart : v.table.VoidsStay t := (voidsStay_run (st :: rest) v).trans hv
    exact ih (h.step hstart (hsteps st List.mem_cons_self)) hv
      fun st' hst' => hsteps st' (List.mem_cons_of_mem _ hst')

end Visit

namespace Table

variable {t t' : Table}

/-- No parameter is void. -/
def Solid (t : Table) : Prop := ∀ f i, t.slotTy? (.param f i) ≠ some .void

theorem Solid.start (h : t.Solid) (routine : String) : (t.start routine).Solid routine := by
  intro c hc hvoid
  cases c with
  | result f => exact hc f rfl
  | param f i => exact h f i hvoid
  | var r x =>
    rw [Visit.cellTy?] at hvoid
    split at hvoid
    · obtain ⟨ty, hty, rfl⟩ : ∃ ty, (Scope.ofParams (t.paramsOf routine)).types.get? x = some ty ∧
          ty = .void := by
        have hlookup : (Scope.ofParams (t.paramsOf routine)).lookup x = .void :=
          Option.some.inj hvoid
        rw [Scope.lookup] at hlookup
        cases hget : (Scope.ofParams (t.paramsOf routine)).types.get? x with
        | none =>
          rw [hget] at hlookup
          cases hlookup
        | some ty =>
          rw [hget] at hlookup
          exact ⟨ty, rfl, hlookup⟩
      obtain ⟨q, hq, heq⟩ := List.mem_map.1 (Dict.mem_ofList (Dict.mem_of_get? hty))
      obtain ⟨i, hi⟩ := List.getElem?_of_mem hq
      apply h routine i
      rw [slotTy?, hi, Option.map_some]
      exact congrArg some (congrArg Prod.snd heq)
    · cases hvoid

section
variable {routine : String} {body : List Stmt}

theorem Solid.walk (h : t.Solid) (hv : (t.walk routine body).table.VoidsStay t')
    (hsteps : ∀ st ∈ Stmt.blockSteps routine body, ∀ s ∈ st.store? routine, s.Filled t') :
    (t.walk routine body).Solid routine := by
  rw [walk_eq_run] at hv ⊢
  exact (h.start routine).run hv hsteps

theorem Solid.visit (h : t.Solid) (hv : (t.visit routine body).VoidsStay t')
    (hsteps : ∀ st ∈ Stmt.blockSteps routine body, ∀ s ∈ st.store? routine, s.Filled t') :
    (t.visit routine body).Solid := by
  intro f i
  exact h.walk hv hsteps (.param f i) (by simp)

end

/-- The stores of some routines, judged by the functions without a result of a table. -/
def Filled (t : Table) (ws : List (String × List Stmt)) : Prop :=
  ∀ w ∈ ws, ∀ st ∈ Stmt.blockSteps w.1 w.2, ∀ s ∈ st.store? w.1, s.Filled t

theorem Solid.visits {ws : List (String × List Stmt)} (h : t.Solid)
    (hv : (t.visits ws).VoidsStay t') (hws : t'.Filled ws) : (t.visits ws).Solid := by
  induction ws generalizing t with
  | nil => exact h
  | cons w ws ih =>
    have hfirst : (t.visit w.1 w.2).VoidsStay t' :=
      (voidsStay_visits (t.visit w.1 w.2) ws).trans hv
    exact ih (h.visit hfirst (hws w List.mem_cons_self)) hv
      fun w' hw' => hws w' (List.mem_cons_of_mem _ hw')

theorem voidsStay_beforeLast (fs : List Function) (entry : List Stmt) (n : Nat) (t : Table) :
    VoidsStay t (t.beforeLast fs entry n) := by
  induction n generalizing t with
  | zero => exact fun _ h => h
  | succ n ih =>
    rw [beforeLast]
    split
    · exact fun _ h => h
    · refine VoidsStay.trans ?_ (ih (t.round fs entry))
      rw [round_eq_visits]
      exact voidsStay_visits t _

theorem Solid.beforeLast {fs : List Function} {entry : List Stmt} {n : Nat} (h : t.Solid)
    (hv : (t.beforeLast fs entry n).VoidsStay t') (hws : t'.Filled (walks fs entry)) :
    (t.beforeLast fs entry n).Solid := by
  induction n generalizing t with
  | zero => exact h
  | succ n ih =>
    rw [Table.beforeLast] at hv ⊢
    split at hv
    · next hstable => rwa [if_pos hstable]
    · next hstable =>
      rw [if_neg hstable]
      have hround : (t.round fs entry).VoidsStay t' :=
        VoidsStay.trans (voidsStay_beforeLast fs entry n _) hv
      rw [round_eq_visits] at hround
      refine ih ?_ hv
      rw [round_eq_visits]
      exact h.visits hround hws

end Table

/-! ## Tables of programs -/

namespace Program

variable {p : Program} {t : Table}

theorem solid_marked (p : Program) : p.marked.Solid := by
  intro f i hvoid
  obtain ⟨q, hq, hty⟩ := Option.map_eq_some_iff.1 hvoid
  rcases (Table.open_declared p.routines).markUsage p.routines f i q hq with h | h
  · rw [h] at hty
    cases hty
  · rw [h] at hty
    cases hty

/-- Where no store to a variable or a parameter takes its value from a function without a result, no
variable of a routine is void. -/
theorem varTy_ne_void (h : p.infer = .ok t) (hfilled : t.Filled p.walks) {r : String}
    {body : List Stmt} (hm : (r, body) ∈ p.walks) (x : String) :
    Frame.varTy ⟨t, r⟩ x ≠ .void := by
  obtain ⟨-, -, -, ht⟩ := infer_eq_ok_iff.1 h
  have hlast : (p.penultimate.visits p.walks).VoidsStay t := ht ▸ Table.voidsStay_finalize _
  have hpen : p.penultimate.Solid :=
    p.solid_marked.beforeLast ((Table.voidsStay_visits _ p.walks).trans hlast) hfilled
  have hparams : t.Solid := by
    intro f i hvoid
    rw [ht, Table.slotTy?_finalize] at hvoid
    obtain ⟨ty, hty, heq⟩ := Option.map_eq_some_iff.1 hvoid
    refine hpen.visits hlast hfilled f i (hty.trans ?_)
    split at heq
    · rw [heq]
    · cases heq
  by_cases hx : x ∈ (t.paramsOf r).map (·.name)
  · have hsome : ((t.paramsOf r).findIdx? (·.name = x)).isSome := by
      rw [List.findIdx?_isSome, List.any_eq_true]
      obtain ⟨q, hq, rfl⟩ := List.mem_map.1 hx
      exact ⟨q, hq, decide_eq_true rfl⟩
    obtain ⟨i, hi⟩ := Option.isSome_iff_exists.1 hsome
    intro hvoid
    apply hparams r i
    rw [slotTy?_of_findIdx? h hm hi, hvoid]
  · obtain ⟨pre, post, hsplit⟩ := List.append_of_mem hm
    rw [varTy_of_notMem h hsplit hx]
    have hvisits : p.penultimate.visits p.walks =
        ((p.penultimate.visits pre).visit r body).visits post := by
      rw [hsplit, Table.visits, List.foldl_append]
      rfl
    have hwalked : ((p.penultimate.visits pre).visit r body).VoidsStay t := by
      rw [hvisits] at hlast
      exact (Table.voidsStay_visits _ post).trans hlast
    have hpre : (p.penultimate.visits pre).Solid := by
      refine hpen.visits (Table.VoidsStay.trans ?_ hwalked) fun w hw => hfilled w ?_
      · exact Table.voidsStay_visits _ [(r, body)]
      · rw [hsplit]
        exact List.mem_append_left _ hw
    exact (hpre.walk hwalked (hfilled _ hm)).lookup x

end Program

end Braces
