import Braces.Proofs.Inference.Scope
import Braces.Proofs.Inference.Steps
import Braces.Proofs.Inference.Walks

/-!
# Stores and their turns

A store puts a value into a cell: a variable, a parameter or a result. During inference it has a
turn in every round, and at each turn the type that its value has by then is joined into the cell.
What a cell holds at the end is the join of the types seen at these turns, in order.
-/

namespace Braces

/-- What inference gives a type. -/
inductive Cell where
  | var (routine name : String)
  | param (function : String) (index : Nat)
  | result (function : String)
  deriving DecidableEq, Repr

structure Store where
  /-- Where the store stands. -/
  routine : String
  cell : Cell
  origin : Origin

def Step.store? (routine : String) : Step → Option Store
  | .bind name origin => some ⟨routine, .var routine name, origin⟩
  | .pass function index arg => some ⟨routine, .param function index, .value arg⟩
  | .give function value => some ⟨routine, .result function, .value value⟩
  | .touch _ | .enter | .exit => none

/-- A store and how far the walk has come when it is made. -/
structure Turn extends Store where
  visit : Visit

namespace Turn

/-- The type that the value has by then. -/
def seen (τ : Turn) : Ty := τ.origin.ty τ.visit.typeOf

/-- The types that some turns join into a cell. -/
def typesAt (c : Cell) (τs : List Turn) : List Ty := (τs.filter (·.cell = c)).map seen

theorem typesAt_append (c : Cell) (τs τs' : List Turn) :
    typesAt c (τs ++ τs') = typesAt c τs ++ typesAt c τs' := by
  rw [typesAt, List.filter_append, List.map_append]
  rfl

theorem foldl_typesAt_singleton (c : Cell) (τ : Turn) (old : Ty) :
    (typesAt c [τ]).foldl Ty.join old = if τ.cell = c then old.join τ.seen else old := by
  by_cases h : τ.cell = c <;> simp [typesAt, h]

theorem seen_mem_typesAt {τ : Turn} {τs : List Turn} (h : τ ∈ τs) :
    τ.seen ∈ typesAt τ.cell τs :=
  List.mem_map.mpr ⟨τ, List.mem_filter.mpr ⟨h, decide_eq_true rfl⟩, rfl⟩

end Turn

namespace Table

variable {t : Table}

theorem signature?_modify {name : String} {g : Signature → Signature}
    (h : ∀ s, (g s).name = s.name) (function : String) :
    (t.modify name g).signature? function =
      (t.signature? function).map fun s => if function = name then g s else s := by
  have hname : ∀ s : Signature, (if s.name = name then g s else s).name = s.name := by
    intro s
    split
    · exact h s
    · rfl
  rw [signature?, modify, List.find?_map]
  have hpred : (fun s : Signature => decide (s.name = function)) ∘
      (fun s => if s.name = name then g s else s) = fun s => decide (s.name = function) := by
    funext s
    rw [Function.comp_apply, hname]
  rw [hpred, signature?]
  cases hs : t.functions.find? (·.name = function) with
  | none => rfl
  | some s =>
    have hs : s.name = function := by simpa using List.find?_some hs
    rw [Option.map_some, Option.map_some, hs]

theorem signature?_modifyParam (name : String) (index : Nat) (g : Param → Param)
    (function : String) :
    (t.modifyParam name index g).signature? function =
      (t.signature? function).map fun s =>
        if function = name then { s with params := s.params.modify index g } else s := by
  apply signature?_modify
  intro s
  rfl

/-- The type of a cell, as far as tables hold it. Variables are typed by scopes. -/
def slotTy? (t : Table) : Cell → Option Ty
  | .var _ _ => none
  | .param function index => (t.paramsOf function)[index]?.map (·.ty)
  | .result function => (t.signature? function).map (·.result)

theorem getElem?_paramsOf (t : Table) (function : String) (index : Nat) :
    (t.paramsOf function)[index]? = (t.signature? function).bind (·.params[index]?) := by
  rw [paramsOf]
  cases t.signature? function <;> rfl

theorem getElem?_paramsOf_modifyParam (name : String) (index : Nat) (g : Param → Param)
    (function : String) (i : Nat) :
    ((t.modifyParam name index g).paramsOf function)[i]? =
      (t.paramsOf function)[i]?.map fun p => if name = function ∧ index = i then g p else p := by
  rw [getElem?_paramsOf, signature?_modifyParam, getElem?_paramsOf]
  cases t.signature? function with
  | none => rfl
  | some s =>
    simp only [Option.map_some, Option.bind_some]
    by_cases hname : function = name
    · rw [if_pos hname, List.getElem?_modify]
      simp only [hname, true_and]
      rfl
    · have hne : ¬ (name = function ∧ index = i) := fun h => hname h.1.symm
      rw [if_neg hname]
      simp only [if_neg hne, Option.map_id']

theorem result_modifyParam (name : String) (index : Nat) (g : Param → Param) (function : String) :
    ((t.modifyParam name index g).signature? function).map (·.result) =
      (t.signature? function).map (·.result) := by
  rw [signature?_modifyParam, Option.map_map]
  congr 1
  funext s
  rw [Function.comp_apply]
  split <;> rfl

theorem slotTy?_refineParam (name : String) (index : Nat) (ty : Ty) (c : Cell) :
    (t.refineParam name index ty).1.slotTy? c =
      (t.slotTy? c).map fun old => if .param name index = c then old.join ty else old := by
  cases c with
  | var => rfl
  | result function =>
    simp only [reduceCtorEq, if_false, Option.map_id']
    exact result_modifyParam name index _ function
  | param function i =>
    simp only [slotTy?, refineParam, getElem?_paramsOf_modifyParam, Option.map_map,
      Cell.param.injEq]
    congr 1
    funext p
    rw [Function.comp_apply, Function.comp_apply]
    split <;> rfl

theorem slotTy?_refineResult (name : String) (ty : Ty) (c : Cell) :
    (t.refineResult name ty).1.slotTy? c =
      (t.slotTy? c).map fun old => if .result name = c then old.join ty else old := by
  have hsig := @signature?_modify t name
    (fun s => { s with result := if s.result = .void then .void else s.result.join ty })
    (fun _ => rfl)
  cases c with
  | var => rfl
  | param function i =>
    show ((t.modify name _).paramsOf function)[i]?.map _ = _
    rw [getElem?_paramsOf, hsig, slotTy?, getElem?_paramsOf]
    cases t.signature? function with
    | none => rfl
    | some s =>
      simp only [Option.map_some, Option.bind_some, reduceCtorEq, if_false, Option.map_map]
      split <;> rfl
  | result function =>
    show ((t.modify name _).signature? function).map _ = _
    rw [hsig, slotTy?, Option.map_map, Option.map_map]
    congr 1
    funext s
    simp only [Function.comp_apply, Cell.result.injEq]
    by_cases hname : function = name
    · rw [if_pos hname, if_pos hname.symm]
      -- A join leaves `void` as it is, so the test for it changes nothing.
      cases hs : s.result <;> cases ty <;> rfl
    · rw [if_neg hname, if_neg (Ne.symm hname)]

/-- What is still unknown at the end is an integer. -/
theorem slotTy?_finalize (t : Table) (c : Cell) :
    t.finalize.slotTy? c = (t.slotTy? c).map fun ty => if ty.isKnown then ty else .int := by
  have hsig : ∀ function, t.finalize.signature? function =
      (t.signature? function).map Signature.finalize := by
    intro function
    rw [signature?, finalize, List.find?_map]
    rfl
  cases c with
  | var => rfl
  | result function =>
    rw [slotTy?, slotTy?, hsig, Option.map_map, Option.map_map]
    rfl
  | param function index =>
    rw [slotTy?, slotTy?, getElem?_paramsOf, getElem?_paramsOf, hsig]
    cases t.signature? function with
    | none => rfl
    | some s =>
      simp only [Option.map_some, Option.bind_some, Signature.finalize, List.getElem?_map,
        Option.map_map]
      rfl

end Table

namespace Scope

theorem lookup_touch (s : Scope) (name x : String) : (s.touch name).lookup x = s.lookup x := by
  rw [lookup, (touched_touch s name).types]
  rfl

theorem lookup_bind (s : Scope) (name : String) (ty : Ty) (byLoop : Bool) (x : String) :
    (s.bind name ty byLoop).lookup x =
      if name = x then (s.lookup x).join ty else s.lookup x := by
  have htypes := (stored_bindName s name byLoop).types
  rw [lookup, bind, Dict.get?_insert, htypes]
  by_cases hx : x = name
  · rw [if_pos hx, if_pos hx.symm, hx]
    rfl
  · rw [if_neg hx, if_neg (Ne.symm hx)]
    rfl

end Scope

namespace Visit

/-- The type of a cell in the walk of a routine. -/
def cellTy? (routine : String) (v : Visit) : Cell → Option Ty
  | .var r name => if r = routine then some (v.scope.lookup name) else none
  | c => v.table.slotTy? c

/-- The turns of the stores among some steps. -/
def turns (routine : String) : List Step → Visit → List Turn
  | [], _ => []
  | st :: rest, v =>
    ((st.store? routine).map fun s => ⟨s, v⟩).toList ++ turns routine rest (v.step st)

variable {routine : String}

theorem cellTy?_bind (v : Visit) (name : String) (ty : Ty) (byLoop : Bool) (c : Cell) :
    (v.bind name ty byLoop).cellTy? routine c =
      (v.cellTy? routine c).map fun old => if .var routine name = c then old.join ty else old := by
  cases c with
  | param => exact Option.map_id'.symm
  | result => exact Option.map_id'.symm
  | var r x =>
    show (if r = routine then some ((v.scope.bind name ty byLoop).lookup x) else none) =
      Option.map _ (if r = routine then _ else none)
    by_cases hr : r = routine
    · rw [if_pos hr, if_pos hr, Option.map_some, Scope.lookup_bind]
      simp only [Cell.var.injEq, hr, true_and]
    · rw [if_neg hr, if_neg hr]
      rfl

/-- What a step does to a cell: it joins in the type that its store sees. -/
theorem cellTy?_step (v : Visit) (st : Step) (c : Cell) :
    (v.step st).cellTy? routine c =
      (v.cellTy? routine c).map fun old =>
        (Turn.typesAt c (turns routine [st] v)).foldl Ty.join old := by
  cases st with
  | touch name =>
    have hscope : ∀ x, (v.scope.touch name).lookup x = v.scope.lookup x := v.scope.lookup_touch name
    refine Eq.trans ?_ Option.map_id'.symm
    cases c with
    | var r x =>
      show (if r = routine then some ((v.scope.touch name).lookup x) else none) = _
      rw [hscope]
      rfl
    | param => rfl
    | result => rfl
  | enter => cases c <;> exact Option.map_id'.symm
  | exit => cases c <;> exact Option.map_id'.symm
  | bind name origin =>
    simp only [turns, Step.store?, Option.map_some, Option.toList_some, List.append_nil,
      Turn.foldl_typesAt_singleton]
    exact cellTy?_bind v name _ _ c
  | pass function index arg =>
    simp only [turns, Step.store?, Option.map_some, Option.toList_some, List.append_nil,
      Turn.foldl_typesAt_singleton]
    cases c with
    | var => exact Option.map_id'.symm
    | param f i => exact Table.slotTy?_refineParam function index (v.typeOf arg) (.param f i)
    | result f => exact Table.slotTy?_refineParam function index (v.typeOf arg) (.result f)
  | give function value =>
    simp only [turns, Step.store?, Option.map_some, Option.toList_some, List.append_nil,
      Turn.foldl_typesAt_singleton]
    cases c with
    | var => exact Option.map_id'.symm
    | param f i => exact Table.slotTy?_refineResult function (v.typeOf value) (.param f i)
    | result f => exact Table.slotTy?_refineResult function (v.typeOf value) (.result f)

theorem turns_cons (st : Step) (rest : List Step) (v : Visit) :
    turns routine (st :: rest) v = turns routine [st] v ++ turns routine rest (v.step st) := by
  simp [turns]

theorem cellTy?_run (steps : List Step) (v : Visit) (c : Cell) :
    (v.run steps).cellTy? routine c =
      (v.cellTy? routine c).map fun old =>
        (Turn.typesAt c (turns routine steps v)).foldl Ty.join old := by
  induction steps generalizing v with
  | nil => exact Option.map_id'.symm
  | cons st rest ih =>
    rw [run_cons, ih, cellTy?_step, turns_cons st rest v, Turn.typesAt_append, Option.map_map]
    simp only [Function.comp_def, List.foldl_append]

theorem map_store_turns (steps : List Step) (v : Visit) :
    (turns routine steps v).map Turn.toStore = steps.filterMap (Step.store? routine) := by
  induction steps generalizing v with
  | nil => rfl
  | cons st rest ih =>
    rw [turns, List.map_append, ih, List.filterMap_cons]
    cases st.store? routine <;> rfl

end Visit

end Braces
