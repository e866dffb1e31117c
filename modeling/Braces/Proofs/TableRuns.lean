import Braces.Proofs.Convergence

/-!
# Runs of table operations

A table is built by declaring functions, joining types into slots, setting locals and settling what
is open, in any order. Whatever the run, each function is listed once and where it was declared, an
operation touches what it names and nothing else, slots only rise, and settling leaves nothing open.
A table may also be kept as a map from names to signatures, with the names in order beside it: the
two answer every run alike.
-/

namespace Braces

namespace Table

/-- What can be done to a table. -/
inductive Op where
  | declare (s : Signature)
  | refineParam (function : String) (index : Nat) (ty : Ty)
  | refineResult (function : String) (ty : Ty)
  | setLocals (routine : String) (locals : Dict Local)
  | finalize
  deriving DecidableEq, Repr

inductive Answer where
  | done
  | refused (e : CheckError)
  | changed (b : Bool)
  deriving DecidableEq, Repr

/-- The table after an operation, and what the operation answers. -/
def apply (t : Table) : Op → Table × Answer
  | .declare s =>
    match t.declare s with
    | .ok t' => (t', .done)
    | .error e => (t, .refused e)
  | .refineParam function index ty =>
    ((t.refineParam function index ty).1, .changed (t.refineParam function index ty).2)
  | .refineResult function ty =>
    ((t.refineResult function ty).1, .changed (t.refineResult function ty).2)
  | .setLocals routine locals => (t.setLocals routine locals, .done)
  | .finalize => (t.finalize, .done)

/-- The table after a run of operations. -/
def performs (t : Table) (ops : List Op) : Table := ops.foldl (fun t op => (t.apply op).1) t

theorem performs_cons (t : Table) (op : Op) (ops : List Op) :
    t.performs (op :: ops) = (t.apply op).1.performs ops := rfl

theorem performs_append (t : Table) (ops ops' : List Op) :
    t.performs (ops ++ ops') = (t.performs ops).performs ops' :=
  List.foldl_append

variable {t t' : Table}

/-! ## Declarations -/

/-- The name that an operation declares, if it was not refused. -/
def Op.accepted? : Op → Answer → Option String
  | .declare s, .done => some s.name
  | _, _ => none

/-- The names that a run declares with success, in order. -/
def accepted : Table → List Op → List String
  | _, [] => []
  | t, op :: ops => (op.accepted? (t.apply op).2).toList ++ accepted (t.apply op).1 ops

theorem isSome_signature?_iff {name : String} :
    (t.signature? name).isSome ↔ name ∈ t.functions.map (·.name) := by
  simp [signature?, List.find?_isSome]

theorem apply_declare_of_mem {s : Signature} (h : s.name ∈ t.functions.map (·.name)) :
    t.apply (.declare s) = (t, .refused (.duplicateFunction s.name)) := by
  rw [apply, declare, if_pos (isSome_signature?_iff.mpr h)]

theorem apply_declare_of_notMem {s : Signature} (h : s.name ∉ t.functions.map (·.name)) :
    t.apply (.declare s) = ({ t with functions := t.functions ++ [s] }, .done) := by
  rw [apply, declare, if_neg fun hsome => h (isSome_signature?_iff.mp hsome)]

/-- An operation adds the name that it declares at the end, and moves no other. -/
theorem map_name_apply (t : Table) (op : Op) :
    (t.apply op).1.functions.map (·.name) =
      t.functions.map (·.name) ++ (op.accepted? (t.apply op).2).toList := by
  cases op with
  | declare s =>
    by_cases h : s.name ∈ t.functions.map (·.name)
    · rw [apply_declare_of_mem h]
      exact (List.append_nil _).symm
    · rw [apply_declare_of_notMem h]
      exact List.map_append
  | refineParam function index ty =>
    exact (map_name_of_names (Refined.refl.param).names).trans (List.append_nil _).symm
  | refineResult function ty =>
    exact (map_name_of_names (Refined.refl.result).names).trans (List.append_nil _).symm
  | setLocals routine locals => exact (List.append_nil _).symm
  | finalize => exact (map_name_of_names t.names_finalize).trans (List.append_nil _).symm

theorem map_name_performs (t : Table) (ops : List Op) :
    (t.performs ops).functions.map (·.name) = t.functions.map (·.name) ++ t.accepted ops := by
  induction ops generalizing t with
  | nil => exact (List.append_nil _).symm
  | cons op ops ih => rw [performs_cons, ih, map_name_apply, List.append_assoc, accepted]

theorem Distinct.apply (h : t.Distinct) (op : Op) : (t.apply op).1.Distinct := by
  rw [Distinct, map_name_apply]
  cases op with
  | declare s =>
    by_cases hmem : s.name ∈ t.functions.map (·.name)
    · rw [apply_declare_of_mem hmem]
      exact (List.append_nil _).symm ▸ h
    · rw [apply_declare_of_notMem hmem]
      exact List.nodup_append.mpr ⟨h, List.nodup_singleton _, by
        rintro a ha b hb rfl
        exact hmem (List.mem_singleton.mp hb ▸ ha)⟩
  | refineParam | refineResult | setLocals | finalize => exact (List.append_nil _).symm ▸ h

theorem Distinct.performs (h : t.Distinct) (ops : List Op) : (t.performs ops).Distinct := by
  induction ops generalizing t with
  | nil => exact h
  | cons op ops ih => exact ih (h.apply op)

theorem distinct_empty : empty.Distinct := List.nodup_nil

/-! ## Slots -/

/-- The slot that an operation joins a type into. -/
def Op.slot? : Op → Option Cell
  | .refineParam function index _ => some (.param function index)
  | .refineResult function _ => some (.result function)
  | .declare _ | .setLocals _ _ | .finalize => none

/-- Two tables that are the same but for the type of one slot. -/
structure SameBut (c : Cell) (t t' : Table) : Prop where
  params : t'.view (fun q => (q.name, q.mode, q.mutated, q.reassigned)) =
    t.view fun q => (q.name, q.mode, q.mutated, q.reassigned)
  locals : t'.locals = t.locals
  slots : ∀ c', c' ≠ c → t'.slotTy? c' = t.slotTy? c'

theorem Refined.sameBut {c : Cell} (h : Refined t t')
    (hslots : ∀ c', c' ≠ c → t'.slotTy? c' = t.slotTy? c') : SameBut c t t' :=
  ⟨h.view fun _ _ => rfl, h.locals, hslots⟩

theorem sameBut_refineParam (function : String) (index : Nat) (ty : Ty) :
    SameBut (.param function index) t (t.refineParam function index ty).1 := by
  refine (Refined.refl.param).sameBut fun c hc => ?_
  rw [slotTy?_refineParam]
  simp only [if_neg (Ne.symm hc), Option.map_id']

theorem sameBut_refineResult (function : String) (ty : Ty) :
    SameBut (.result function) t (t.refineResult function ty).1 := by
  refine (Refined.refl.result).sameBut fun c hc => ?_
  rw [slotTy?_refineResult]
  simp only [if_neg (Ne.symm hc), Option.map_id']

/-- A join tells whether the type of its parameter is another one now. -/
theorem refineParam_tells (function : String) (index : Nat) (ty : Ty) :
    (t.refineParam function index ty).2 =
      decide ((t.refineParam function index ty).1.slotTy? (.param function index) ≠
        t.slotTy? (.param function index)) := by
  rw [slotTy?_refineParam, slotTy?, refineParam]
  cases (t.paramsOf function)[index]? <;> simp

theorem refineResult_tells (function : String) (ty : Ty) :
    (t.refineResult function ty).2 =
      decide ((t.refineResult function ty).1.slotTy? (.result function) ≠
        t.slotTy? (.result function)) := by
  rw [slotTy?_refineResult, slotTy?, refineResult]
  cases hs : t.signature? function with
  | none => rfl
  | some s =>
    -- A join leaves `void` as it is, so the test for it changes nothing.
    have hvoid : (if s.result = .void then .void else s.result.join ty) = s.result.join ty := by
      cases s.result <;> cases ty <;> rfl
    simp [hvoid]

theorem apply_of_slot? {op : Op} {c : Cell} (h : op.slot? = some c) :
    SameBut c t (t.apply op).1 ∧
      (t.apply op).2 = .changed ((t.apply op).1.slotTy? c ≠ t.slotTy? c) := by
  cases op with
  | refineParam function index ty =>
    cases h
    exact ⟨sameBut_refineParam function index ty,
      congrArg Answer.changed (refineParam_tells function index ty)⟩
  | refineResult function ty =>
    cases h
    exact ⟨sameBut_refineResult function ty,
      congrArg Answer.changed (refineResult_tells function ty)⟩
  | declare | setLocals | finalize => cases h

theorem signature?_append {s : Signature} (h : s.name ∉ t.functions.map (·.name)) (name : String) :
    ({ t with functions := t.functions ++ [s] } : Table).signature? name =
      if s.name = name then some s else t.signature? name := by
  rw [signature?, List.find?_append]
  split
  · next heq =>
    subst heq
    have hnone : t.functions.find? (·.name = s.name) = none := by
      rw [← Option.not_isSome_iff_eq_none]
      exact fun hsome => h (isSome_signature?_iff.mp hsome)
    simp [hnone]
  · next hne => simp [signature?, hne]

/-- A declaration leaves the slots that are there. -/
theorem slotTy?_declare {s : Signature} {c : Cell} {old : Ty}
    (h : t.slotTy? c = some old) : (t.apply (.declare s)).1.slotTy? c = some old := by
  by_cases hmem : s.name ∈ t.functions.map (·.name)
  · rwa [apply_declare_of_mem hmem]
  rw [apply_declare_of_notMem hmem]
  have hkept : ∀ {name : String} {s' : Signature}, t.signature? name = some s' →
      ({ t with functions := t.functions ++ [s] } : Table).signature? name = some s' := by
    intro name s' hs'
    rw [signature?_append hmem, if_neg, hs']
    rintro rfl
    exact hmem (isSome_signature?_iff.mp (hs' ▸ rfl))
  cases c with
  | var => cases h
  | result function =>
    obtain ⟨s', hs', rfl⟩ := Option.map_eq_some_iff.mp h
    rw [slotTy?, hkept hs', Option.map_some]
  | param function index =>
    obtain ⟨p, hp, rfl⟩ := Option.map_eq_some_iff.mp h
    rw [getElem?_paramsOf] at hp
    obtain ⟨s', hs', hp⟩ := Option.bind_eq_some_iff.mp hp
    rw [slotTy?, getElem?_paramsOf, hkept hs', Option.bind_some, hp, Option.map_some]

theorem exists_le_of_map {c : Cell} {old : Ty} {raise : Ty → Ty} (hraise : ∀ ty, ty ≤ raise ty)
    (hslot : t'.slotTy? c = (t.slotTy? c).map raise) (h : t.slotTy? c = some old) :
    ∃ new, t'.slotTy? c = some new ∧ old ≤ new := by
  rw [hslot, h]
  exact ⟨raise old, rfl, hraise old⟩

/-- No operation lowers a slot or takes one away. -/
theorem le_slotTy?_apply {c : Cell} {old : Ty} (h : t.slotTy? c = some old) (op : Op) :
    ∃ new, (t.apply op).1.slotTy? c = some new ∧ old ≤ new := by
  cases op with
  | declare s => exact ⟨old, slotTy?_declare h, le_refl old⟩
  | refineParam function index ty =>
    refine exists_le_of_map (fun old => ?_) (slotTy?_refineParam function index ty c) h
    split
    · exact Ty.le_join_left old ty
    · exact le_refl old
  | refineResult function ty =>
    refine exists_le_of_map (fun old => ?_) (slotTy?_refineResult function ty c) h
    split
    · exact Ty.le_join_left old ty
    · exact le_refl old
  | setLocals routine locals => exact ⟨old, h, le_refl old⟩
  | finalize =>
    refine exists_le_of_map (fun old => ?_) (slotTy?_finalize t c) h
    cases old <;> decide

theorem le_slotTy?_performs {c : Cell} {old : Ty} (h : t.slotTy? c = some old) (ops : List Op) :
    ∃ new, (t.performs ops).slotTy? c = some new ∧ old ≤ new := by
  induction ops generalizing t old with
  | nil => exact ⟨old, h, le_refl old⟩
  | cons op ops ih =>
    obtain ⟨mid, hmid, hle⟩ := le_slotTy?_apply h op
    obtain ⟨new, hnew, hle'⟩ := ih hmid
    exact ⟨new, hnew, le_trans hle hle'⟩

/-- Nothing is above `void` but itself. -/
theorem slotTy?_apply_of_void {c : Cell} (h : t.slotTy? c = some .void) (op : Op) :
    (t.apply op).1.slotTy? c = some .void := by
  obtain ⟨new, hnew, hle⟩ := le_slotTy?_apply h op
  cases new with
  | void => exact hnew
  | bool | int | float | str | list | unknown => exact absurd hle (by decide)

/-! ## Settled tables -/

/-- Nothing is open, and each parameter is passed as its type and marks ask for. -/
structure Settled (t : Table) : Prop where
  result : ∀ s ∈ t.functions, s.result ≠ .unknown
  param : ∀ s ∈ t.functions, ∀ p ∈ s.params, p.ty ≠ .unknown
  mutRef : ∀ s ∈ t.functions, ∀ p ∈ s.params,
    p.mode = .mutRef ↔ p.ty = .list ∧ p.mutated = true ∧ p.reassigned = false
  constRef : ∀ s ∈ t.functions, ∀ p ∈ s.params,
    p.mode = .constRef ↔
      (p.ty = .list ∧ p.mutated = false ∨ p.ty = .str) ∧ p.reassigned = false

end Table

namespace Param

theorem ty_finalize_ne (p : Param) : p.finalize.ty ≠ .unknown := by
  rcases p with ⟨name, ty, mode, mutated, reassigned⟩
  cases ty <;> rintro ⟨⟩

theorem finalize_finalize (p : Param) : p.finalize.finalize = p.finalize := by
  rcases p with ⟨name, ty, mode, mutated, reassigned⟩
  cases ty <;> rfl

end Param

namespace Signature

theorem result_finalize_ne (s : Signature) : s.finalize.result ≠ .unknown := by
  rcases s with ⟨name, params, result⟩
  cases result <;> rintro ⟨⟩

theorem finalize_finalize (s : Signature) : s.finalize.finalize = s.finalize := by
  have hparams : s.finalize.params.map Param.finalize = s.finalize.params := by
    rw [finalize, List.map_map]
    exact List.map_congr_left fun p _ => p.finalize_finalize
  have hresult : s.finalize.result.isKnown = true := decide_eq_true s.result_finalize_ne
  rw [finalize, hparams, if_pos hresult]

end Signature

namespace Table

theorem finalize_finalize (t : Table) : t.finalize.finalize = t.finalize := by
  refine congrArg (fun functions => { t with functions }) ?_
  rw [finalize, List.map_map]
  exact List.map_congr_left fun s _ => s.finalize_finalize

theorem settled_finalize (t : Table) : t.finalize.Settled := by
  have hsig : ∀ s ∈ t.finalize.functions, ∃ s', s = Signature.finalize s' := by
    intro s hs
    obtain ⟨s', -, rfl⟩ := List.mem_map.mp hs
    exact ⟨s', rfl⟩
  have hparam : ∀ s ∈ t.finalize.functions, ∀ p ∈ s.params, ∃ p', p = Param.finalize p' := by
    intro s hs p hp
    obtain ⟨s', rfl⟩ := hsig s hs
    obtain ⟨p', -, rfl⟩ := List.mem_map.mp hp
    exact ⟨p', rfl⟩
  constructor
  · intro s hs
    obtain ⟨s', rfl⟩ := hsig s hs
    exact s'.result_finalize_ne
  · intro s hs p hp
    obtain ⟨p', rfl⟩ := hparam s hs p hp
    exact p'.ty_finalize_ne
  · intro s hs p hp
    obtain ⟨p', rfl⟩ := hparam s hs p hp
    exact p'.finalize.modeFor_eq_mutRef_iff
  · intro s hs p hp
    obtain ⟨p', rfl⟩ := hparam s hs p hp
    exact p'.finalize.modeFor_eq_constRef_iff

/-- Whatever was done to a new table before: its functions are those that were declared with
success, in this order and each once, and what is found under a name is what is listed. To declare a
name again is refused and changes nothing. A join changes at most the type of the slot that it
names, answers whether it did, and leaves a result that is none. Whatever is done later, slots only
rise. After a settling nothing is open, modes follow types and marks, and another settling changes
nothing. -/
theorem performs_laws (ops : List Op) :
    let t := empty.performs ops
    (t.functions.map (·.name) = empty.accepted ops ∧ (t.functions.map (·.name)).Nodup ∧
        ∀ s, t.signature? s.name = some s ↔ s ∈ t.functions) ∧
      (∀ s, t.apply (.declare s) =
        if s.name ∈ t.functions.map (·.name) then (t, .refused (.duplicateFunction s.name))
        else ({ t with functions := t.functions ++ [s] }, .done)) ∧
      (∀ op c, op.slot? = some c →
        SameBut c t (t.apply op).1 ∧
          (t.apply op).2 = .changed ((t.apply op).1.slotTy? c ≠ t.slotTy? c) ∧
          ∀ function, t.slotTy? (.result function) = some .void →
            (t.apply op).1.slotTy? (.result function) = some .void) ∧
      (∀ later c old, t.slotTy? c = some old →
        ∃ new, (empty.performs (ops ++ later)).slotTy? c = some new ∧ old.Rises new) ∧
      (empty.performs (ops ++ [.finalize])).Settled ∧
        empty.performs (ops ++ [.finalize, .finalize]) = empty.performs (ops ++ [.finalize]) := by
  have hdistinct : (empty.performs ops).Distinct := distinct_empty.performs ops
  refine ⟨⟨map_name_performs empty ops, hdistinct, fun s => ?_⟩, fun s => ?_, fun op c hop => ?_,
    fun later c old hold => ?_, ?_, ?_⟩
  · exact (find?_eq_some_iff_of_nodup hdistinct).trans (and_iff_left rfl)
  · split
    · next hmem => exact apply_declare_of_mem hmem
    · next hmem => exact apply_declare_of_notMem hmem
  · obtain ⟨hsame, htells⟩ := apply_of_slot? hop
    exact ⟨hsame, htells, fun function hvoid => slotTy?_apply_of_void hvoid op⟩
  · obtain ⟨new, hnew, hle⟩ := le_slotTy?_performs hold later
    exact ⟨new, performs_append empty ops later ▸ hnew, Ty.rises_iff_le.mpr hle⟩
  · rw [performs_append]
    exact settled_finalize _
  · rw [performs_append, performs_append]
    exact finalize_finalize _

/-- A procedure that stores into its first parameter, settled once. -/
def settledOnce : List Op :=
  [.declare ⟨"put", [{ name := "xs", mutated := true }, { name := "n" }], .void⟩,
    .refineParam "put" 0 .list, .finalize]

/-- The second parameter became an integer when the table was settled, and may still rise. -/
theorem performs_laws_settledOnce :
    (empty.performs settledOnce).functions.map (·.name) = ["put"] ∧
      (empty.performs settledOnce).apply (.declare ⟨"put", [], .int⟩) =
        (empty.performs settledOnce, .refused (.duplicateFunction "put")) ∧
      ((empty.performs settledOnce).apply (.refineParam "put" 1 .float)).2 = .changed true ∧
      ((empty.performs settledOnce).apply (.refineResult "put" .int)).1.slotTy? (.result "put") =
        some .void ∧
      ∀ later, ∃ new, (empty.performs (settledOnce ++ later)).slotTy? (.param "put" 1) = some new ∧
        Ty.int.Rises new := by
  obtain ⟨⟨hnames, -, -⟩, hdeclare, hjoin, hrises, -, -⟩ := performs_laws settledOnce
  have hput : (empty.performs settledOnce).functions.map (·.name) = ["put"] :=
    hnames.trans (by decide +kernel)
  obtain ⟨-, hraised, -⟩ := hjoin (.refineParam "put" 1 .float) (.param "put" 1) rfl
  obtain ⟨-, -, hvoid⟩ := hjoin (.refineResult "put" .int) (.result "put") rfl
  refine ⟨hput, ?_, ?_, hvoid "put" (by decide +kernel), ?_⟩
  · exact (hdeclare _).trans (if_pos (hput ▸ List.mem_singleton_self _))
  · exact hraised.trans (by decide +kernel)
  · exact fun later => hrises later (.param "put" 1) .int (by decide +kernel)

end Table

/-! ## A map and an order -/

/-- A table as a map from names to signatures, and the names in the order of their declarations. -/
structure Registry where
  signature? : String → Option Signature
  order : List String
  locals : Dict (Dict Local)

namespace Registry

open Table (Op Answer)

def empty : Registry := ⟨fun _ => none, [], .empty⟩

/-- The signatures in the order of their declarations. -/
def functions (r : Registry) : List Signature := r.order.filterMap r.signature?

def insert (r : Registry) (name : String) (s : Signature) : Registry :=
  { r with signature? := fun name' => if name' = name then some s else r.signature? name' }

def declare (r : Registry) (s : Signature) : Registry × Answer :=
  if (r.signature? s.name).isSome then (r, .refused (.duplicateFunction s.name))
  else ({ r.insert s.name s with order := r.order ++ [s.name] }, .done)

def refineParam (r : Registry) (function : String) (index : Nat) (ty : Ty) : Registry × Answer :=
  match r.signature? function with
  | none => (r, .changed false)
  | some s =>
    match s.params[index]? with
    | none => (r, .changed false)
    | some p =>
      let joined := p.ty.join ty
      (r.insert function { s with params := s.params.set index { p with ty := joined } },
        .changed (joined ≠ p.ty))

def refineResult (r : Registry) (function : String) (ty : Ty) : Registry × Answer :=
  match r.signature? function with
  | none => (r, .changed false)
  | some s =>
    if s.result = .void then (r, .changed false)
    else
      let joined := s.result.join ty
      (r.insert function { s with result := joined }, .changed (joined ≠ s.result))

def finalize (r : Registry) : Registry :=
  { r with signature? := fun name => (r.signature? name).map Signature.finalize }

def apply (r : Registry) : Op → Registry × Answer
  | .declare s => r.declare s
  | .refineParam function index ty => r.refineParam function index ty
  | .refineResult function ty => r.refineResult function ty
  | .setLocals routine locals => ({ r with locals := r.locals.insert routine locals }, .done)
  | .finalize => (r.finalize, .done)

/-- The registry after a run of operations, and their answers. -/
def run (r : Registry) : List Op → Registry × List Answer
  | [] => (r, [])
  | op :: ops => (((r.apply op).1.run ops).1, (r.apply op).2 :: ((r.apply op).1.run ops).2)

end Registry

namespace Table

/-- The answers of a run of operations. -/
def answers : Table → List Op → List Answer
  | _, [] => []
  | t, op :: ops => (t.apply op).2 :: answers (t.apply op).1 ops

/-- A registry holds the same functions and locals as a table. -/
structure KeptIn (t : Table) (r : Registry) : Prop where
  order : r.order = t.functions.map (·.name)
  signature? : ∀ name, r.signature? name = t.signature? name
  locals : r.locals = t.locals

namespace KeptIn

variable {t t' : Table} {r : Registry}

/-- The order lists each function once, so the registry lists the functions as the table does. -/
theorem functions (h : t.KeptIn r) (hdistinct : t.Distinct) : r.functions = t.functions := by
  have hfound : ∀ s ∈ t.functions, r.signature? s.name = some s := fun s hs =>
    (h.signature? s.name).trans ((find?_eq_some_iff_of_nodup hdistinct).mpr ⟨hs, rfl⟩)
  rw [Registry.functions, h.order, List.filterMap_map]
  calc t.functions.filterMap (r.signature? ∘ (·.name))
      = t.functions.filterMap some := List.filterMap_congr hfound
    _ = t.functions := List.filterMap_some

/-- To change a signature is to change what the registry has under its name. -/
theorem modify {function : String} {g : Signature → Signature} {r' : Registry} (h : t.KeptIn r)
    (hname : ∀ s, (g s).name = s.name) (horder : r'.order = r.order)
    (hlocals : r'.locals = r.locals)
    (hothers : ∀ name, name ≠ function → r'.signature? name = r.signature? name)
    (hfunction : r'.signature? function = (t.signature? function).map g) :
    (t.modify function g).KeptIn r' := by
  refine ⟨?_, fun name => ?_, hlocals.trans h.locals⟩
  · rw [horder, h.order, Table.modify, List.map_map]
    refine List.map_congr_left fun s _ => ?_
    rw [Function.comp_apply]
    split
    · exact (hname s).symm
    · rfl
  · rw [signature?_modify hname]
    by_cases heq : name = function
    · subst heq
      simpa using hfunction
    · simpa [heq, h.signature?] using hothers name heq

/-- A change that changes nothing. -/
theorem modify_same {function : String} {g : Signature → Signature} (h : t.KeptIn r)
    (hname : ∀ s, (g s).name = s.name)
    (hsame : (t.signature? function).map g = t.signature? function) :
    (t.modify function g).KeptIn r :=
  h.modify hname rfl rfl (fun _ _ => rfl) ((h.signature? function).trans hsame.symm)

theorem modify_insert {function : String} {g : Signature → Signature} {s s' : Signature}
    (h : t.KeptIn r) (hname : ∀ s, (g s).name = s.name) (hs : t.signature? function = some s)
    (hg : g s = s') : (t.modify function g).KeptIn (r.insert function s') := by
  refine h.modify hname rfl rfl (fun name hne => if_neg hne) ?_
  rw [hs, Option.map_some, hg]
  exact if_pos rfl

theorem declare (h : t.KeptIn r) (s : Signature) :
    (t.apply (.declare s)).1.KeptIn (r.declare s).1 ∧
      (r.declare s).2 = (t.apply (.declare s)).2 := by
  by_cases hmem : s.name ∈ t.functions.map (·.name)
  · rw [apply_declare_of_mem hmem, Registry.declare, h.signature?,
      if_pos (isSome_signature?_iff.mpr hmem)]
    exact ⟨h, rfl⟩
  · rw [apply_declare_of_notMem hmem, Registry.declare, h.signature?,
      if_neg fun hsome => hmem (isSome_signature?_iff.mp hsome)]
    refine ⟨⟨?_, fun name => ?_, h.locals⟩, rfl⟩
    · rw [List.map_append, ← h.order]
      rfl
    · rw [signature?_append hmem, ← h.signature?]
      simp [Registry.insert, eq_comm]

theorem refineParam (h : t.KeptIn r) (function : String) (index : Nat) (ty : Ty) :
    (t.refineParam function index ty).1.KeptIn (r.refineParam function index ty).1 ∧
      (r.refineParam function index ty).2 = .changed (t.refineParam function index ty).2 := by
  rw [Registry.refineParam, Table.refineParam, getElem?_paramsOf, h.signature?]
  cases hs : t.signature? function with
  | none => exact ⟨h.modify_same (fun _ => rfl) (by rw [hs]; rfl), rfl⟩
  | some s =>
    have hmodify := List.modify_eq_set_getElem? (fun p : Param => { p with ty := p.ty.join ty })
      index s.params
    cases hp : s.params[index]? with
    | none =>
      simp only [hp, Option.bind_some] at hmodify ⊢
      refine ⟨h.modify_same (fun _ => ?_) ?_, rfl⟩
      · rfl
      · rw [hs, Option.map_some, hmodify]
        rfl
    | some p =>
      simp only [hp, Option.bind_some] at hmodify ⊢
      refine ⟨h.modify_insert (fun _ => ?_) hs ?_, rfl⟩
      · rfl
      · rw [hmodify]
        rfl

theorem refineResult (h : t.KeptIn r) (function : String) (ty : Ty) :
    (t.refineResult function ty).1.KeptIn (r.refineResult function ty).1 ∧
      (r.refineResult function ty).2 = .changed (t.refineResult function ty).2 := by
  simp only [Registry.refineResult, Table.refineResult, h.signature?]
  cases hs : t.signature? function with
  | none => exact ⟨h.modify_same (fun _ => rfl) (by rw [hs]; rfl), rfl⟩
  | some s =>
    by_cases hvoid : s.result = .void
    · simp only [if_pos hvoid]
      refine ⟨h.modify_same (fun _ => rfl) ?_, by simp [hvoid]⟩
      rw [hs, Option.map_some, if_pos hvoid, ← hvoid]
    · simp only [if_neg hvoid]
      refine ⟨?_, by simp [hvoid]⟩
      refine h.modify_insert (fun _ => ?_) hs ?_
      · rfl
      · rw [if_neg hvoid]

theorem finalize (h : t.KeptIn r) : t.finalize.KeptIn r.finalize := by
  refine ⟨h.order.trans (map_name_of_names t.names_finalize).symm, fun name => ?_, h.locals⟩
  have hfind : t.finalize.signature? name = (t.signature? name).map Signature.finalize :=
    List.find?_map
  rw [hfind, ← h.signature?]
  rfl

theorem apply (h : t.KeptIn r) (op : Op) :
    (t.apply op).1.KeptIn (r.apply op).1 ∧ (r.apply op).2 = (t.apply op).2 := by
  cases op with
  | declare s => exact h.declare s
  | refineParam function index ty => exact h.refineParam function index ty
  | refineResult function ty => exact h.refineResult function ty
  | setLocals routine locals =>
    exact ⟨⟨h.order, h.signature?, congrArg (·.insert routine locals) h.locals⟩, rfl⟩
  | finalize => exact ⟨h.finalize, rfl⟩

theorem run (h : t.KeptIn r) (ops : List Op) :
    (t.performs ops).KeptIn (r.run ops).1 ∧ (r.run ops).2 = t.answers ops := by
  induction ops generalizing t r with
  | nil => exact ⟨h, rfl⟩
  | cons op ops ih =>
    obtain ⟨hkept, hanswer⟩ := h.apply op
    obtain ⟨hrun, hanswers⟩ := ih hkept
    exact ⟨hrun, congrArg₂ List.cons hanswer hanswers⟩

end KeptIn

/-- From nothing, the map with its order and the list go the same way: they answer alike, and find
and list the same functions after every run. -/
theorem keptIn_run (ops : List Op) :
    (empty.performs ops).KeptIn (Registry.empty.run ops).1 ∧
      (Registry.empty.run ops).2 = empty.answers ops ∧
      (Registry.empty.run ops).1.functions = (empty.performs ops).functions := by
  have hempty : empty.KeptIn .empty := ⟨rfl, fun _ => rfl, rfl⟩
  obtain ⟨hkept, hanswers⟩ := hempty.run ops
  exact ⟨hkept, hanswers, hkept.functions (distinct_empty.performs ops)⟩

end Table

end Braces
