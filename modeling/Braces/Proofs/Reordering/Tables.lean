import Braces.Proofs.Inference.Precedence
import Braces.Proofs.Usage.Forwarding

/-!
# Tables that agree

Two tables agree if they take every parameter and every result for the same type, whatever the order
in which they list their functions. Walks make the same of a routine with either of them.
-/

namespace Braces

namespace Table

variable {t t' : Table}

structure Agree (t t' : Table) : Prop where
  names : ∀ routine, (t.paramsOf routine).map (·.name) = (t'.paramsOf routine).map (·.name)
  slots : ∀ c, t.slotTy? c = t'.slotTy? c

theorem Below.agree (h : t.Below t') (h' : t'.Below t) : t.Agree t' := by
  refine ⟨h.names, fun c => Option.ext fun a => ?_⟩
  have hsame : ∀ {t t' : Table}, t.Below t' → t'.Below t → t.slotTy? c = some a →
      t'.slotTy? c = some a := by
    intro t t' h h' ha
    obtain ⟨b, hb, hab⟩ := h.slots c a ha
    obtain ⟨a', ha', hba⟩ := h'.slots c b hb
    cases ha.symm.trans ha'
    rw [hb, Ty.mayBecome_antisymm hab hba]
  exact ⟨hsame h h', hsame h' h⟩

theorem Agree.below (h : t.Agree t') : t.Below t' :=
  ⟨h.names, fun c a hc => ⟨a, (h.slots c).symm.trans hc, Ty.mayBecome_refl a⟩⟩

theorem typeOf_eq_of_slots (h : ∀ c, t.slotTy? c = t'.slotTy? c) (lookup : String → Ty) (e : Expr) :
    t.typeOf lookup e = t'.typeOf lookup e := by
  refine Ty.mayBecome_antisymm
    (typeOf_mayBecome (fun c a hc => ?_) (fun _ => Ty.mayBecome_refl _) e)
    (typeOf_mayBecome (fun c a hc => ?_) (fun _ => Ty.mayBecome_refl _) e)
  · exact ⟨a, (h c).symm.trans hc, Ty.mayBecome_refl a⟩
  · exact ⟨a, (h c).trans hc, Ty.mayBecome_refl a⟩

/-- The parameters of a routine have the same names and types. -/
theorem Agree.params (h : t.Agree t') (routine : String) :
    (t.paramsOf routine).map (fun q => (q.name, q.ty)) =
      (t'.paramsOf routine).map fun q => (q.name, q.ty) := by
  apply List.ext_getElem?
  intro i
  have hname : (t.paramsOf routine)[i]?.map (·.name) = (t'.paramsOf routine)[i]?.map (·.name) := by
    rw [← List.getElem?_map, ← List.getElem?_map, h.names routine]
  have hty := h.slots (.param routine i)
  rw [slotTy?, slotTy?] at hty
  rw [List.getElem?_map, List.getElem?_map]
  cases hq : (t.paramsOf routine)[i]? with
  | none =>
    rw [hq, Option.map_none] at hname
    rw [Option.map_eq_none_iff.1 hname.symm]
  | some q =>
    rw [hq] at hname hty
    obtain ⟨q', hq', hqname⟩ := Option.map_eq_some_iff.1 hname.symm
    rw [hq'] at hty ⊢
    simpa [hqname] using hty

end Table

namespace Visit

variable {v v' : Visit}

/-- Two walks have come equally far, with tables that agree. -/
structure Agree (v v' : Visit) : Prop where
  scope : v.scope = v'.scope
  slots : ∀ c, v.table.slotTy? c = v'.table.slotTy? c

theorem Agree.typeOf (h : v.Agree v') (e : Expr) : v.typeOf e = v'.typeOf e := by
  rw [Visit.typeOf, Visit.typeOf, h.scope]
  exact Table.typeOf_eq_of_slots h.slots _ e

theorem Agree.step (h : v.Agree v') (st : Step) : (v.step st).Agree (v'.step st) := by
  have htype := h.typeOf
  cases st with
  | touch name => exact ⟨congrArg (·.touch name) h.scope, h.slots⟩
  | enter => exact ⟨congrArg Scope.enter h.scope, h.slots⟩
  | exit => exact ⟨congrArg Scope.exit h.scope, h.slots⟩
  | bind name origin =>
    have horigin : origin.ty v.typeOf = origin.ty v'.typeOf := by
      cases origin <;> simp only [Origin.ty, htype]
    refine ⟨?_, h.slots⟩
    simp only [Visit.step, Visit.bind, horigin, h.scope]
  | pass function index arg =>
    refine ⟨h.scope, fun c => ?_⟩
    simp only [Visit.step, Visit.refineParam, Table.slotTy?_refineParam, htype, h.slots]
  | give function value =>
    refine ⟨h.scope, fun c => ?_⟩
    simp only [Visit.step, Visit.refineResult, Table.slotTy?_refineResult, htype, h.slots]

theorem Agree.run (h : v.Agree v') (steps : List Step) : (v.run steps).Agree (v'.run steps) := by
  induction steps generalizing v v' with
  | nil => exact h
  | cons st steps ih => exact ih (h.step st)

end Visit

namespace Table

variable {t t' : Table}

theorem Agree.scope_walk (h : t.Agree t') (routine : String) (body : List Stmt) :
    (t.walk routine body).scope = (t'.walk routine body).scope := by
  have hstart : (t.start routine).Agree (t'.start routine) := by
    refine ⟨?_, h.slots⟩
    simp only [start, Scope.ofParams, h.params routine, h.names routine]
  rw [walk_eq_run, walk_eq_run]
  exact (hstart.run _).scope

end Table

end Braces
