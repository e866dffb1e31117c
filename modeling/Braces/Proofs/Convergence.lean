import Braces.Proofs.Inference.Rounds
import Braces.Proofs.Settling
import Braces.Proofs.Usage.Forwarding

/-!
# Rounds climb and come to rest

Over any number of rounds the type of a parameter or a result only rises. Whether a round changed
anything can be told while it runs: every join reports whether it raised its slot, and every walk
whether the locals that it finds are new. These reports are right, since what rises does not fall
again, and after three rounds for each slot and two more at the latest there is nothing to report.
-/

namespace Braces

namespace Ty

/-- The order in which types rise: nothing is known of a slot at first, and numbers widen. -/
def Rises (a b : Ty) : Prop :=
  a = b ∨ a = unknown ∨ a = bool ∧ b = int ∨ a = bool ∧ b = float ∨ a = int ∧ b = float

instance (a b : Ty) : Decidable (a.Rises b) := inferInstanceAs (Decidable (_ ∨ _))

theorem rises_iff_le {a b : Ty} : a.Rises b ↔ a ≤ b := by
  cases a <;> cases b <;> decide

end Ty

/-! ## What joins report -/

namespace Table

variable {t : Table}

/-- Each name has one signature. -/
def Distinct (t : Table) : Prop := (t.functions.map (·.name)).Nodup

theorem map_fst_names (t : Table) : t.names.map (·.1) = t.functions.map (·.name) := by
  rw [names, List.map_map]
  rfl

theorem map_name_of_names {t' : Table} (h : t'.names = t.names) :
    t'.functions.map (·.name) = t.functions.map (·.name) := by
  rw [← map_fst_names, h, map_fst_names]

theorem Distinct.of_names {t' : Table} (h : t.Distinct) (hnames : t'.names = t.names) :
    t'.Distinct := by
  rw [Distinct, map_name_of_names hnames]
  exact h

theorem ext_of_functions {t' : Table} (hfunctions : t'.functions = t.functions)
    (hlocals : t'.locals = t.locals) : t' = t := by
  cases t'
  cases hfunctions
  cases hlocals
  rfl

theorem modify_eq_self_iff {name : String} {g : Signature → Signature} (hdistinct : t.Distinct)
    (hname : ∀ s, (g s).name = s.name) :
    t.modify name g = t ↔ ∀ s, t.signature? name = some s → g s = s := by
  constructor
  · intro hsame s hs
    have hkept : (t.modify name g).signature? name = _ := signature?_modify hname name
    rw [hsame, hs, Option.map_some, if_pos rfl] at hkept
    exact (Option.some.inj hkept).symm
  · intro h
    have hmap : t.functions.map (fun s => if s.name = name then g s else s) = t.functions := by
      refine (List.map_congr_left fun s hs => ?_).trans (List.map_id _)
      split
      · next heq => exact h s ((find?_eq_some_iff_of_nodup hdistinct).mpr ⟨hs, heq⟩)
      · rfl
    rw [modify, hmap]

theorem modify_params_eq_self_iff {s : Signature} {index : Nat} {ty : Ty} :
    { s with params := s.params.modify index fun p => { p with ty := p.ty.join ty } } = s ↔
      ∀ p, s.params[index]? = some p → p.ty.join ty = p.ty := by
  constructor
  · intro hsame p hp
    have hget := congrArg (fun s : Signature => s.params[index]?) hsame
    simp only [List.getElem?_modify_eq, hp, Option.map_eq_map, Option.map_some] at hget
    exact congrArg Param.ty (Option.some.inj hget)
  · intro h
    refine congrArg (fun params => { s with params }) (List.ext_getElem? fun i => ?_)
    rw [List.getElem?_modify]
    by_cases hi : index = i
    · subst hi
      cases hp : s.params[index]? with
      | none => rfl
      | some p => simp [h p hp]
    · simp [hi]

/-- A join into a parameter reports a change exactly if it makes one. -/
theorem refineParam_reports (hdistinct : t.Distinct) (name : String) (index : Nat) (ty : Ty) :
    (t.refineParam name index ty).2 = false ↔ (t.refineParam name index ty).1 = t := by
  simp only [refineParam, modifyParam]
  rw [modify_eq_self_iff hdistinct]
  · simp only [modify_params_eq_self_iff, paramsOf]
    cases t.signature? name with
    | none => simp
    | some s => cases hp : s.params[index]? <;> simp [hp]
  · exact fun _ => rfl

theorem refineResult_reports (hdistinct : t.Distinct) (name : String) (ty : Ty) :
    (t.refineResult name ty).2 = false ↔ (t.refineResult name ty).1 = t := by
  have hresult : ∀ (s : Signature) (result : Ty), { s with result } = s ↔ result = s.result :=
    fun s result => ⟨fun h => congrArg Signature.result h, fun h => by rw [h]⟩
  simp only [refineResult]
  rw [modify_eq_self_iff hdistinct]
  · simp only [hresult]
    cases t.signature? name <;> simp
  · exact fun _ => rfl

end Table

/-! ## What walks report -/

namespace Visit

/-- Whether a step reports that it raised a slot. -/
def reports (v : Visit) : Step → Bool
  | .pass function index arg => (v.table.refineParam function index (v.typeOf arg)).2
  | .give function value => (v.table.refineResult function (v.typeOf value)).2
  | .touch _ | .bind _ _ | .enter | .exit => false

/-- Whether one of some steps reports that it raised a slot. -/
def reportsIn : List Step → Visit → Bool
  | [], _ => false
  | st :: steps, v => v.reports st || reportsIn steps (v.step st)

variable {v : Visit}

theorem refined_step (v : Visit) (st : Step) : Table.Refined v.table (v.step st).table := by
  cases st with
  | pass => exact .param .refl
  | give => exact .result .refl
  | touch | bind | enter | exit => exact .refl

theorem refined_run (steps : List Step) (v : Visit) :
    Table.Refined v.table (v.run steps).table := by
  induction steps generalizing v with
  | nil => exact .refl
  | cons st steps ih => exact (v.refined_step st).trans (ih _)

theorem reports_eq_false_iff (hdistinct : v.table.Distinct) (st : Step) :
    v.reports st = false ↔ (v.step st).table = v.table := by
  cases st with
  | pass function index arg => exact Table.refineParam_reports hdistinct function index _
  | give function value => exact Table.refineResult_reports hdistinct function _
  | touch | bind | enter | exit => exact iff_of_true rfl rfl

/-- The steps of a walk report nothing exactly if all signatures are kept in the end. -/
theorem reportsIn_eq_false_iff (steps : List Step) (hdistinct : v.table.Distinct) :
    reportsIn steps v = false ↔ (v.run steps).table = v.table := by
  induction steps generalizing v with
  | nil => exact iff_of_true rfl rfl
  | cons st steps ih =>
    have hstep := v.refined_step st
    rw [reportsIn, Bool.or_eq_false_iff, reports_eq_false_iff hdistinct,
      ih (hdistinct.of_names hstep.names), run_cons]
    constructor
    · rintro ⟨hfirst, hrest⟩
      exact hrest.trans hfirst
    · -- No slot falls, so if all stand where they stood, the first step raised none.
      intro hsame
      have hfirst : (v.step st).table = v.table := by
        refine Table.ext_of_functions ?_ hstep.locals
        exact hstep.climbs.between (refined_run steps _).climbs (congrArg Table.functions hsame)
      exact ⟨hfirst, hsame.trans hfirst.symm⟩

end Visit

namespace Table

variable {t : Table}

/-- Whether the walk of a routine reports a change: it raised a slot, or found other locals than the
table had. -/
def visitReports (t : Table) (routine : String) (body : List Stmt) : Bool :=
  Visit.reportsIn (Stmt.blockSteps routine body) (t.start routine) ||
    (t.walk routine body).table.localsOf? routine ≠ some (t.walk routine body).scope.locals

/-- Whether one of some walks reports a change. -/
def reports : List (String × List Stmt) → Table → Bool
  | [], _ => false
  | w :: ws, t => t.visitReports w.1 w.2 || reports ws (t.visit w.1 w.2)

theorem visitReports_eq_false_iff (hdistinct : t.Distinct) (hordered : t.locals.Ordered)
    (routine : String) (body : List Stmt) :
    t.visitReports routine body = false ↔ t.visit routine body = t := by
  have hlocals : (t.walk routine body).table.locals = t.locals :=
    (Visit.refined_block routine body _).locals
  have hfunctions : (t.visit routine body).functions = (t.walk routine body).table.functions := rfl
  have hraised : Visit.reportsIn (Stmt.blockSteps routine body) (t.start routine) = false ↔
      (t.walk routine body).table = t := by
    rw [walk_eq_run]
    exact Visit.reportsIn_eq_false_iff _ hdistinct
  rw [visitReports, Bool.or_eq_false_iff, hraised, localsOf?, hlocals]
  simp only [ne_eq, decide_not, Bool.not_eq_false', decide_eq_true_eq]
  constructor
  · rintro ⟨hkept, hfound⟩
    exact visit_eq_self hordered (hfunctions.trans (congrArg functions hkept)) hfound
  · intro hsame
    refine ⟨ext_of_functions (hfunctions.symm.trans (congrArg functions hsame)) hlocals, ?_⟩
    have hfound := t.localsOf?_visit routine body routine
    rwa [hsame, if_pos rfl] at hfound

/-- Walks report nothing exactly if the table is the same after them. -/
theorem reports_eq_false_iff {ws : List (String × List Stmt)} (hnodup : (ws.map (·.1)).Nodup)
    (hdistinct : t.Distinct) (hordered : t.locals.Ordered) :
    reports ws t = false ↔ t.visits ws = t := by
  induction ws generalizing t with
  | nil => exact iff_of_true rfl rfl
  | cons w ws ih =>
    obtain ⟨hw, hws⟩ := List.nodup_cons.mp hnodup
    rw [reports, Bool.or_eq_false_iff, visitReports_eq_false_iff hdistinct hordered,
      ih hws (hdistinct.of_names (names_visit t w.1 w.2)) (ordered_visit hordered w.1 w.2)]
    constructor
    · rintro ⟨hfirst, hrest⟩
      exact hrest.trans hfirst
    · -- Later walks leave the locals of this routine alone, and no walk lowers a slot.
      intro hsame
      have hfirst : t.visit w.1 w.2 = t := by
        refine visit_eq_self hordered ?_ ?_
        · exact (climbs_visit t w.1 w.2).between (climbs_visits _ ws) (congrArg functions hsame)
        · have hfound : (t.visits ([] ++ (w.1, w.2) :: ws)).localsOf? w.1 = _ :=
            localsOf?_visits hw t
          rwa [List.nil_append, hsame] at hfound
      exact ⟨hfirst, hsame.trans hfirst.symm⟩

end Table

/-! ## Whole programs -/

namespace Program

variable {p : Program} {t : Table}

/-- Whether the round that follows some rounds reports a change. -/
def changed (p : Program) (n : Nat) : Bool := Table.reports p.walks (p.after n)

theorem distinct_after (hnodup : (p.routines.map (·.name)).Nodup) (n : Nat) :
    (p.after n).Distinct := by
  have hnames := congrArg (List.map Prod.fst) (p.names_after n)
  rw [Table.names, List.map_map, List.map_map] at hnames
  rw [Table.Distinct]
  exact hnames ▸ hnodup

theorem changed_eq_false_iff (hnodup : (p.routines.map (·.name)).Nodup) (n : Nat) :
    p.changed n = false ↔ p.after (n + 1) = p.after n := by
  rw [changed, Table.reports_eq_false_iff (nodup_walks hnodup) (distinct_after hnodup n)
    (p.ordered_after n), after_succ, Table.round_eq_visits]
  rfl

theorem rises_after_succ {n : Nat} {c : Cell} {old : Ty} (h : (p.after n).slotTy? c = some old) :
    ∃ new, (p.after (n + 1)).slotTy? c = some new ∧ old.Rises new := by
  rw [after_succ, Table.round_eq_visits, Table.slotTy?_visits, h]
  exact ⟨_, rfl, Ty.rises_iff_le.mpr (Ty.le_foldl_join _ old)⟩

/-- No slot falls over any number of rounds. -/
theorem rises_after {n m : Nat} (hle : n ≤ m) {c : Cell} {old : Ty}
    (h : (p.after n).slotTy? c = some old) :
    ∃ new, (p.after m).slotTy? c = some new ∧ old.Rises new := by
  induction m, hle using Nat.le_induction with
  | base => exact ⟨old, h, .inl rfl⟩
  | succ m _ ih =>
    obtain ⟨mid, hmid, hrises⟩ := ih
    obtain ⟨new, hnew, hrises'⟩ := rises_after_succ hmid
    rw [Ty.rises_iff_le] at hrises hrises'
    exact ⟨new, hnew, Ty.rises_iff_le.mpr (le_trans hrises hrises')⟩

theorem slots_eq (p : Program) :
    p.slots = (p.routines.map (·.params.length)).sum + p.routines.length := by
  rw [slots]
  induction p.routines with
  | nil => rfl
  | cons f fs ih =>
    simp only [List.map_cons, List.sum_cons, List.length_cons]
    omega

/-- Once the functions of a program are declared, the type of every parameter and result only rises,
round after round. A round that leaves the signatures as they are is followed by one that changes
neither these nor any locals. A round reports a change exactly if it makes one, and among the first
rounds, three for each parameter and each function and two more, there is one that reports none. -/
theorem rounds_rise_and_settle (h : p.declared = .ok t) :
    p.after 0 = t.markUsage p.routines ∧
      (∀ n m, n ≤ m → ∀ c old, (p.after n).slotTy? c = some old →
        ∃ new, (p.after m).slotTy? c = some new ∧ old.Rises new) ∧
      (∀ n, (p.after (n + 1)).functions = (p.after n).functions →
        (p.after (n + 2)).functions = (p.after (n + 1)).functions ∧
          (p.after (n + 2)).locals = (p.after (n + 1)).locals) ∧
      (∀ n, p.changed n = false ↔ p.after (n + 1) = p.after n) ∧
      ∃ n < 3 * ((p.routines.map (·.params.length)).sum + p.routines.length) + 2,
        p.changed n = false := by
  obtain ⟨hnodup, rfl⟩ := declared_eq_ok_iff.mp h
  refine ⟨rfl, fun n m hle c old => rises_after hle, fun n hkept => ?_,
    changed_eq_false_iff hnodup, ?_⟩
  · have hquiet := quiet_of_functions hnodup hkept
    exact ⟨congrArg Table.functions hquiet, congrArg Table.locals hquiet⟩
  · obtain ⟨n, hn, hquiet⟩ := exists_quiet hnodup
    rw [slots_eq] at hn
    exact ⟨n, Nat.lt_succ_of_le hn, (changed_eq_false_iff hnodup n).mpr hquiet⟩

/-- A function that is passed a truth value, an integer and half of what it returned for the
latter. -/
def halving : Program :=
  [.funcDef "keep" ["x"] [.ret (some (.var "x"))],
    .eval (.call "keep" [.bool true]),
    .assign "y" (.call "keep" [.int 1]),
    .eval (.call "keep" [.binary .div (.var "y") (.int 2)])]

/-- The first round takes the parameter to its last type, and the second one the result. -/
theorem rounds_rise_and_settle_halving :
    ∃ t, halving.declared = .ok t ∧ halving.after 0 = t.markUsage halving.routines ∧
      (halving.after 1).slotTy? (.result "keep") = some .unknown ∧
      (∀ m, 1 ≤ m → (halving.after m).slotTy? (.param "keep" 0) = some .float) ∧
      halving.changed 1 = true ∧ ∃ n < 3 * (1 + 1) + 2, halving.changed n = false := by
  have hdeclared : halving.declared = .ok ⟨halving.routines.map Function.signature, .empty⟩ :=
    declared_eq_ok_iff.mpr ⟨by decide +kernel, rfl⟩
  obtain ⟨hstart, hrises, -, -, hquiet⟩ := rounds_rise_and_settle hdeclared
  refine ⟨_, hdeclared, hstart, by decide +kernel, fun m hm => ?_, by decide +kernel, hquiet⟩
  obtain ⟨new, hnew, hfloat⟩ := hrises 1 m hm (.param "keep" 0) .float (by decide +kernel)
  cases new with
  | float => exact hnew
  | void | bool | int | str | list | unknown => exact absurd hfloat (by decide)

end Program

end Braces
