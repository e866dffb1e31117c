import Braces.Emit.Expr
import Braces.Proofs.Inference.Rounds

/-!
# What the cells of a table absorb

Code is emitted with the final types: a value is typed by them, and so is the cell that it is stored
to. Inference joined into the cell what it saw at the turns of its stores, when variables and
results may not have had their final types yet. So a cell absorbs every type that was seen, and it
absorbs the final type of a value exactly if some store to the cell was seen with one as wide. A
store to a parameter is never seen by the parameter itself.
-/

namespace Braces

namespace Expr

/-- The variables and calls that the type of an expression depends on. -/
def typedBy : Expr → List Expr
  | .var name => [.var name]
  | .call name args => [.call name args]
  | .index target _ => target.typedBy
  | .binary op l r =>
    if op.isComparison || op.isLogical || op = .div then [] else l.typedBy ++ r.typedBy
  | .unary op e => if op = .not then [] else e.typedBy
  | .int _ | .float _ | .str _ | .bool _ | .len _ | .list _ | .range _ _ _ => []

theorem typeOf_congr {t t' : Table} {lookup lookup' : String → Ty} : ∀ {e : Expr},
    (∀ part ∈ e.typedBy, t.typeOf lookup part = t'.typeOf lookup' part) →
    t.typeOf lookup e = t'.typeOf lookup' e
  | .var _, h | .call _ _, h => h _ List.mem_cons_self
  | .index target position, h => by
    have htarget : t.typeOf lookup target = t'.typeOf lookup' target := typeOf_congr h
    rw [Table.typeOf, Table.typeOf, htarget]
  | .binary op l r, h => by
    rw [Table.typeOf, Table.typeOf]
    rw [typedBy] at h
    by_cases hbool : (op.isComparison || op.isLogical) = true
    · rw [if_pos hbool, if_pos hbool]
    by_cases hdiv : op = .div
    · rw [if_neg hbool, if_neg hbool, if_pos hdiv, if_pos hdiv]
    · rw [if_neg (by simp [hbool, hdiv])] at h
      have hl : t.typeOf lookup l = t'.typeOf lookup' l :=
        typeOf_congr fun part hp => h part (List.mem_append_left _ hp)
      have hr : t.typeOf lookup r = t'.typeOf lookup' r :=
        typeOf_congr fun part hp => h part (List.mem_append_right _ hp)
      rw [hl, hr]
  | .unary op e, h => by
    rw [Table.typeOf, Table.typeOf]
    rw [typedBy] at h
    split
    · rfl
    · next hnot =>
      rw [if_neg hnot] at h
      rw [typeOf_congr h]
  | .int _, _ | .float _, _ | .str _, _ | .bool _, _ | .len _, _ | .list _, _
  | .range _ _ _, _ => by simp only [Table.typeOf]

end Expr

namespace Table

/-- The cell whose type stands for a cell: a parameter of the routine, if the name is one. -/
def home (t : Table) : Cell → Cell
  | .var routine name =>
    match (t.paramsOf routine).findIdx? (·.name = name) with
    | some index => .param routine index
    | none => .var routine name
  | c => c

/-- The type of a cell in a finished table. -/
def cellTy? (t : Table) : Cell → Option Ty
  | .var routine name => some (Frame.varTy ⟨t, routine⟩ name)
  | c => t.slotTy? c

/-! ## Before the first round -/

/-- Nothing that a number could widen is settled yet. -/
def Fresh (t : Table) : Prop :=
  ∀ c ty, t.slotTy? c = some ty → ty.isNumeric = true → ty = .unknown

theorem fresh_declared (fs : List Function) : Fresh ⟨fs.map Function.signature, .empty⟩ := by
  have hsig : ∀ function, signature? ⟨fs.map Function.signature, .empty⟩ function =
      (fs.find? (·.name = function)).map Function.signature := by
    intro function
    rw [signature?, List.find?_map]
    rfl
  intro c ty hty hnum
  cases c with
  | var => cases hty
  | result function =>
    rw [slotTy?, hsig, Option.map_map] at hty
    obtain ⟨f, -, rfl⟩ := Option.map_eq_some_iff.mp hty
    simp only [Function.comp_apply, Function.signature] at hnum ⊢
    split
    · rfl
    · next h =>
      rw [if_neg h] at hnum
      cases hnum
  | param function index =>
    rw [slotTy?, getElem?_paramsOf, hsig] at hty
    cases hf : fs.find? (·.name = function) with
    | none =>
      rw [hf] at hty
      cases hty
    | some f =>
      rw [hf] at hty
      simp only [Option.map_some, Option.bind_some, Function.signature, List.getElem?_map,
        Option.map_map] at hty
      obtain ⟨name, -, rfl⟩ := Option.map_eq_some_iff.mp hty
      rfl

theorem Fresh.markParam {t : Table} (h : Fresh t) (function : String) (index : Nat) (u : Usage) :
    Fresh (t.markParam function index u) := by
  intro c ty hty hnum
  cases c with
  | var => cases hty
  | result f =>
    apply h (.result f) ty _ hnum
    rw [← hty]
    exact (result_modifyParam function index _ f).symm
  | param f i =>
    rw [slotTy?, Table.markParam, getElem?_paramsOf_modifyParam, Option.map_map] at hty
    obtain ⟨p, hp, rfl⟩ := Option.map_eq_some_iff.mp hty
    have hold : p.ty.isNumeric = true → p.ty = .unknown :=
      h (.param f i) p.ty (by rw [slotTy?, hp, Option.map_some])
    rw [Function.comp_apply] at hnum ⊢
    by_cases hslot : function = f ∧ index = i
    · rw [if_pos hslot] at hnum ⊢
      cases hseq : u.asSequence with
      | true => simp [hseq, Ty.isNumeric] at hnum
      | false => simpa [hseq] using hold (by simpa [hseq] using hnum)
    · rw [if_neg hslot] at hnum ⊢
      exact hold hnum

theorem Fresh.markFunction {t : Table} (h : Fresh t) (f : Function) : Fresh (t.markFunction f) := by
  rw [Table.markFunction]
  induction f.params.zipIdx generalizing t with
  | nil => exact h
  | cons p ps ih => exact ih (h.markParam f.name p.2 _)

theorem Fresh.markAll {t : Table} (h : Fresh t) (fs : List Function) : Fresh (t.markAll fs) := by
  rw [Table.markAll]
  induction fs generalizing t with
  | nil => exact h
  | cons f fs ih => exact ih (h.markFunction f)

theorem Fresh.markUsage {t : Table} (h : Fresh t) (fs : List Function) :
    Fresh (t.markUsage fs) := by
  fun_induction Table.markUsage fs t with
  | case1 t marked _ ih => exact ih (h.markAll fs)
  | case2 t marked _ => exact h.markAll fs

end Table

namespace Ty

/-- The types that fix a slot: an integer by default. -/
def defaulted (tys : List Ty) : List Ty := if tys.any isKnown then tys else [.int]

theorem any_isKnown_iff {tys : List Ty} :
    tys.any isKnown = true ↔ (tys.foldl join .unknown).isKnown = true := by
  have hfold : (tys.foldl join .unknown).isKnown = true ↔ ¬ ∀ ty ∈ tys, ty = .unknown := by
    simp [isKnown, foldl_join_eq_unknown_iff]
  rw [hfold]
  simp [isKnown]

/-- A number fits a slot exactly if it fits one of the types that fix it. -/
theorem le_foldl_iff {tys : List Ty} {e : Ty} (hne : tys ≠ [])
    (h : (tys.foldl join .unknown).isNumeric = true) (he : e.isNumeric = true) :
    e ≤ tys.foldl join .unknown ↔ ∃ ty ∈ tys, e ≤ ty := by
  rw [le_foldl_join_iff h he, le_unknown_iff]
  refine ⟨?_, .inr⟩
  rintro (rfl | hex)
  · obtain ⟨ty, hty⟩ := List.exists_mem_of_ne_nil tys hne
    exact ⟨ty, hty, unknown_le ty⟩
  · exact hex

theorem le_settled_iff {tys : List Ty} {e : Ty} (he : e.isNumeric = true)
    (h : (tys.foldl join .unknown).isNumeric = true) :
    e ≤ (if (tys.foldl join .unknown).isKnown then tys.foldl join .unknown else .int) ↔
      ∃ ty ∈ defaulted tys, e ≤ ty := by
  rw [defaulted]
  by_cases hknown : tys.any isKnown = true
  · have hne : tys ≠ [] := by
      rintro rfl
      cases hknown
    rw [if_pos hknown, if_pos (any_isKnown_iff.mp hknown)]
    exact le_foldl_iff hne h he
  · rw [if_neg hknown, if_neg (fun hk => hknown (any_isKnown_iff.mpr hk))]
    simp

end Ty

namespace Program

variable {p : Program} {t : Table}

/-- The types that inference joined into a cell. -/
def inputs (p : Program) : Cell → List Ty
  | .var routine name => Turn.typesAt (.var routine name) p.lastTurns
  | c => Ty.defaulted (Turn.typesAt c p.history.flatten)

/-! ## Parameters and results -/

theorem slotTy?_of_infer (h : p.infer = .ok t) (c : Cell) :
    t.slotTy? c = (p.marked.slotTy? c).map fun old =>
      let ty := (Turn.typesAt c p.history.flatten).foldl Ty.join old
      if ty.isKnown then ty else .int := by
  obtain ⟨-, -, -, rfl⟩ := infer_eq_ok_iff.mp h
  have hrounds : p.penultimate.visits p.walks =
      p.marked.rounds p.routines p.entryStatements maxRounds := by
    rw [walks, ← Table.round_eq_visits, penultimate, maxRounds, Table.rounds_succ]
  rw [Table.slotTy?_finalize, hrounds, Table.slotTy?_rounds, Option.map_map]
  rfl

theorem settled_of_slotTy? (h : p.infer = .ok t) {c : Cell} {S : Ty}
    (hS : t.slotTy? c = some S) :
    ∃ old, p.marked.slotTy? c = some old ∧
      S = if ((Turn.typesAt c p.history.flatten).foldl Ty.join old).isKnown
        then (Turn.typesAt c p.history.flatten).foldl Ty.join old else .int := by
  rw [slotTy?_of_infer h] at hS
  obtain ⟨old, hold, rfl⟩ := Option.map_eq_some_iff.mp hS
  exact ⟨old, hold, rfl⟩

/-- A slot of a number absorbs exactly what fits one of the types that were seen. -/
theorem slot_absorbs_iff (h : p.infer = .ok t) {c : Cell} {S E : Ty}
    (hS : t.slotTy? c = some S) (hnum : S.isNumeric = true) (hE : E.isNumeric = true) :
    S.join E = S ↔ ∃ ty ∈ Ty.defaulted (Turn.typesAt c p.history.flatten), E ≤ ty := by
  obtain ⟨old, hold, rfl⟩ := settled_of_slotTy? h hS
  have hfold : ((Turn.typesAt c p.history.flatten).foldl Ty.join old).isNumeric = true := by
    by_cases hk : ((Turn.typesAt c p.history.flatten).foldl Ty.join old).isKnown = true
    · rwa [if_pos hk] at hnum
    · simp only [Ty.isKnown, ne_eq, decide_eq_true_eq, Decidable.not_not] at hk
      rw [hk]
      rfl
  obtain rfl : old = .unknown := by
    have hfresh : p.marked.Fresh := (Table.fresh_declared p.routines).markUsage p.routines
    exact hfresh c old hold (Ty.isNumeric_of_foldl_join hfold)
  rw [Ty.join_eq_left_iff (Ty.accepts_of_isNumeric hnum hE)]
  exact Ty.le_settled_iff hE hfold

theorem slot_absorbs_seen (h : p.infer = .ok t) {c : Cell} {S : Ty} (hS : t.slotTy? c = some S)
    {ty : Ty} (hty : ty ∈ Turn.typesAt c p.history.flatten) : S.join ty = S := by
  obtain ⟨old, -, rfl⟩ := settled_of_slotTy? h hS
  by_cases hk : ((Turn.typesAt c p.history.flatten).foldl Ty.join old).isKnown = true
  · rw [if_pos hk]
    exact Ty.join_foldl_of_mem hty old
  · simp only [Ty.isKnown, ne_eq, decide_eq_true_eq, Decidable.not_not] at hk
    obtain rfl : ty = .unknown := (Ty.foldl_join_eq_unknown_iff.mp hk).2 ty hty
    rw [hk]
    rfl

/-! ## Variables -/

theorem types_ofParams_of_notMem {ps : List Param} {x : String} (h : x ∉ ps.map (·.name)) :
    (Scope.ofParams ps).types.get? x = none := by
  cases hget : (Scope.ofParams ps).types.get? x with
  | none => rfl
  | some ty =>
    obtain ⟨q, hq, heq⟩ := List.mem_map.mp (Dict.mem_ofList (Dict.mem_of_get? hget))
    exact absurd (List.mem_map.mpr ⟨q, hq, congrArg Prod.fst heq⟩) h

theorem lookup_ofParams {ps : List Param} {x : String} (h : x ∉ ps.map (·.name)) :
    (Scope.ofParams ps).lookup x = .unknown := by
  rw [Scope.lookup, types_ofParams_of_notMem h]
  rfl

/-- What a walk gets to know of a variable is what its own stores give it. -/
theorem lookup_walk {t : Table} {r x : String} (body : List Stmt)
    (hx : x ∉ (t.paramsOf r).map (·.name)) :
    (t.walk r body).scope.lookup x =
      (Turn.typesAt (.var r x) (t.turnsOf r body)).foldl Ty.join .unknown := by
  have hrun := @Visit.cellTy?_run r (Stmt.blockSteps r body) (t.start r) (.var r x)
  rw [← Table.walk_eq_run, Visit.cellTy?, Visit.cellTy?, if_pos rfl, if_pos rfl, Option.map_some]
    at hrun
  rw [Option.some.inj hrun]
  show (Turn.typesAt (.var r x) (t.turnsOf r body)).foldl Ty.join
    ((Scope.ofParams (t.paramsOf r)).lookup x) = _
  rw [lookup_ofParams hx]

section
variable {pre post : List (String × List Stmt)} {r x : String} {body : List Stmt}

theorem names_paramsOf_penultimate (h : p.infer = .ok t) (pre : List (String × List Stmt)) :
    ((p.penultimate.visits pre).paramsOf r).map (·.name) = (t.paramsOf r).map (·.name) := by
  rw [Table.map_name_paramsOf, Table.map_name_paramsOf, names_visits_penultimate h]

theorem local?_eq_some_iff (h : p.infer = .ok t) (hsplit : p.walks = pre ++ (r, body) :: post)
    {l : Local} :
    t.local? r x = some l ↔ x ∉ (t.paramsOf r).map (·.name) ∧
      ((p.penultimate.visits pre).walk r body).scope.types.get? x = some l.ty ∧
      l.hoisted = decide (x ∈ ((p.penultimate.visits pre).walk r body).scope.hoisted) := by
  obtain ⟨htidy, hleads⟩ := Visit.leads_block r body ((p.penultimate.visits pre).start r)
    (Scope.tidy_ofParams _)
  have hparams : ((p.penultimate.visits pre).walk r body).scope.params =
      (t.paramsOf r).map (·.name) := hleads.params.trans (names_paramsOf_penultimate h pre)
  rw [Table.local?, localsOf?_of_infer h hsplit, Option.bind_some, ← hparams]
  exact Scope.get?_locals htidy.ordered

theorem varTy_of_notMem (h : p.infer = .ok t) (hsplit : p.walks = pre ++ (r, body) :: post)
    (hx : x ∉ (t.paramsOf r).map (·.name)) :
    Frame.varTy ⟨t, r⟩ x = ((p.penultimate.visits pre).walk r body).scope.lookup x := by
  rw [Frame.varTy]
  cases hl : t.local? r x with
  | some l => rw [Scope.lookup, ((local?_eq_some_iff h hsplit).mp hl).2.1, Option.getD_some]
  | none =>
    have hnone : (t.paramsOf r).find? (·.name = x) = none := by
      rw [List.find?_eq_none]
      intro q hq hname
      exact hx (List.mem_map.mpr ⟨q, hq, by simpa using hname⟩)
    cases hget : ((p.penultimate.visits pre).walk r body).scope.types.get? x with
    | none =>
      rw [Scope.lookup, hget]
      show ((t.paramsOf r).find? _ |>.map _).getD _ = _
      rw [hnone]
      rfl
    | some ty =>
      have hsome := (local?_eq_some_iff h hsplit (l := ⟨ty, _⟩)).mpr ⟨hx, hget, rfl⟩
      rw [hl] at hsome
      cases hsome

/-- A variable has the join of the types that its stores were seen with in the last round. -/
theorem varTy_eq_foldl (h : p.infer = .ok t) (hm : (r, body) ∈ p.walks)
    (hx : x ∉ (t.paramsOf r).map (·.name)) :
    Frame.varTy ⟨t, r⟩ x = (p.inputs (.var r x)).foldl Ty.join .unknown := by
  obtain ⟨pre, post, hsplit⟩ := List.append_of_mem hm
  have hnodup := nodup_walks (infer_eq_ok_iff.mp h).2.1
  rw [hsplit, List.map_append, List.map_cons, List.nodup_append] at hnodup
  have hpre : r ∉ pre.map (·.1) := fun hr => hnodup.2.2 r hr r List.mem_cons_self rfl
  have hpost : r ∉ post.map (·.1) := (List.nodup_cons.mp hnodup.2.1).1
  rw [varTy_of_notMem h hsplit hx, inputs, lastTurns, hsplit, Table.typesAt_turns hpre hpost]
  exact lookup_walk body (names_paramsOf_penultimate h pre ▸ hx)

/-- A variable that is a parameter has the parameter's type. -/
theorem slotTy?_of_findIdx? (h : p.infer = .ok t) (hm : (r, body) ∈ p.walks) {index : Nat}
    (hi : (t.paramsOf r).findIdx? (·.name = x) = some index) :
    t.slotTy? (.param r index) = some (Frame.varTy ⟨t, r⟩ x) := by
  obtain ⟨pre, post, hsplit⟩ := List.append_of_mem hm
  have hfind : (t.paramsOf r).find? (·.name = x) = (t.paramsOf r)[index]? := by
    rw [List.find?_eq_bind_findIdx?_getElem?, hi, Option.bind_some]
  obtain ⟨hlt, hname, -⟩ := List.findIdx?_eq_some_iff_getElem.mp hi
  have hmem : x ∈ (t.paramsOf r).map (·.name) :=
    List.mem_map.mpr ⟨_, List.getElem_mem hlt, by simpa using hname⟩
  have hlocal : t.local? r x = none := by
    rw [Option.eq_none_iff_forall_ne_some]
    intro l hl
    exact ((local?_eq_some_iff h hsplit).mp hl).1 hmem
  rw [Frame.varTy, hlocal]
  show (t.paramsOf r)[index]?.map _ = some (((t.paramsOf r).find? _ |>.map _).getD _)
  rw [hfind, List.getElem?_eq_getElem hlt]
  rfl

end

/-! ## Stores -/

theorem mem_walks_of_mem_lastTurns {τ : Turn} (hτ : τ ∈ p.lastTurns) :
    ∃ body, (τ.routine, body) ∈ p.walks ∧ ∀ r x, τ.cell = .var r x → r = τ.routine := by
  obtain ⟨pre, r, body, post, hsplit, hmem⟩ := Table.mem_turns hτ
  have hr : τ.routine = r := Table.routine_of_mem_turnsOf hmem
  refine ⟨body, ?_, ?_⟩
  · rw [hr, hsplit]
    exact List.mem_append_right _ List.mem_cons_self
  · intro r' x hc
    exact (Table.routine_of_cell hmem hc).trans hr.symm

theorem seen_mem_history {τ : Turn} (hτ : τ ∈ p.lastTurns) :
    τ.seen ∈ Turn.typesAt τ.cell p.history.flatten :=
  Turn.seen_mem_typesAt (List.mem_flatten_of_mem p.lastTurns_mem_history hτ)

theorem home_of_findIdx?_eq_none {r x : String}
    (h : (t.paramsOf r).findIdx? (·.name = x) = none) :
    t.home (.var r x) = .var r x ∧ x ∉ (t.paramsOf r).map (·.name) := by
  refine ⟨by rw [Table.home, h], ?_⟩
  intro hx
  obtain ⟨q, hq, hname⟩ := List.mem_map.mp hx
  have hno := List.findIdx?_eq_none_iff.mp h q hq
  simp [hname] at hno

/-- A cell absorbs what its own stores were seen with, unless it is a parameter that they store to
by name. -/
theorem absorbs_seen (h : p.infer = .ok t) {τ : Turn} (hτ : τ ∈ p.lastTurns) {S : Ty}
    (hS : t.cellTy? τ.cell = some S) (hhome : t.home τ.cell = τ.cell) : S.join τ.seen = S := by
  obtain ⟨body, hm, hroutine⟩ := mem_walks_of_mem_lastTurns hτ
  have hseen := seen_mem_history hτ
  cases hc : τ.cell with
  | param function index =>
    rw [hc] at hS hseen
    exact slot_absorbs_seen (c := .param function index) h hS hseen
  | result function =>
    rw [hc] at hS hseen
    exact slot_absorbs_seen (c := .result function) h hS hseen
  | var r x =>
    obtain rfl := hroutine r x hc
    cases hi : (t.paramsOf τ.routine).findIdx? (·.name = x) with
    | some index =>
      rw [hc, Table.home, hi] at hhome
      cases hhome
    | none =>
      rw [hc] at hS
      have hx := (home_of_findIdx?_eq_none hi).2
      rw [← Option.some.inj hS, varTy_eq_foldl h hm hx]
      apply Ty.join_foldl_of_mem
      rw [inputs, ← hc]
      exact Turn.seen_mem_typesAt hτ

/-- A cell absorbs a number exactly if that fits one of the types that were joined into it. -/
theorem absorbs_iff (h : p.infer = .ok t) {τ : Turn} (hτ : τ ∈ p.lastTurns) {S E : Ty}
    (hS : t.cellTy? τ.cell = some S) (hnum : S.isNumeric = true) (hE : E.isNumeric = true) :
    S.join E = S ↔ ∃ ty ∈ p.inputs (t.home τ.cell), E ≤ ty := by
  obtain ⟨body, hm, hroutine⟩ := mem_walks_of_mem_lastTurns hτ
  cases hc : τ.cell with
  | param function index =>
    rw [hc] at hS
    exact slot_absorbs_iff h hS hnum hE
  | result function =>
    rw [hc] at hS
    exact slot_absorbs_iff h hS hnum hE
  | var r x =>
    obtain rfl := hroutine r x hc
    rw [hc] at hS
    obtain rfl : Frame.varTy ⟨t, τ.routine⟩ x = S := Option.some.inj hS
    cases hi : (t.paramsOf τ.routine).findIdx? (·.name = x) with
    | some index =>
      rw [Table.home, hi]
      exact slot_absorbs_iff h (slotTy?_of_findIdx? h hm hi) hnum hE
    | none =>
      obtain ⟨hhome, hx⟩ := home_of_findIdx?_eq_none hi
      have hseen : τ.seen ∈ p.inputs (.var τ.routine x) := by
        rw [inputs, ← hc]
        exact Turn.seen_mem_typesAt hτ
      rw [hhome, Ty.join_eq_left_iff (Ty.accepts_of_isNumeric hnum hE)]
      rw [varTy_eq_foldl h hm hx] at hnum ⊢
      exact Ty.le_foldl_iff (List.ne_nil_of_mem hseen) hnum hE

end Program

/-- The type that a finished table gives what is stored. -/
def Store.ty (t : Table) (s : Store) : Ty := s.origin.ty (Frame.typeOf ⟨t, s.routine⟩)

namespace Turn

/-- If all that a value is typed by had its final type at the turn, so had the value. -/
theorem exists_typedBy_of_seen_ne {t : Table} {τ : Turn} (h : τ.seen ≠ τ.ty t) :
    ∃ part ∈ τ.origin.expr.typedBy, τ.visit.typeOf part ≠ Frame.typeOf ⟨t, τ.routine⟩ part := by
  apply Decidable.byContradiction
  intro hno
  have hall : ∀ part ∈ τ.origin.expr.typedBy,
      τ.visit.typeOf part = Frame.typeOf ⟨t, τ.routine⟩ part := by
    intro part hp
    exact Decidable.byContradiction fun hne => hno ⟨part, hp, hne⟩
  have heq : τ.visit.typeOf τ.origin.expr = Frame.typeOf ⟨t, τ.routine⟩ τ.origin.expr :=
    Expr.typeOf_congr hall
  apply h
  rw [seen, Store.ty]
  cases ho : τ.origin with
  | value e =>
    rw [ho] at heq
    exact heq
  | elements e =>
    rw [ho] at heq
    exact congrArg Visit.elementTy heq

end Turn

/-- Every store of a program has its turn in the last round, and its cell absorbs what is seen
there, unless a parameter is stored to by name. Of a number, the cell absorbs the type that the
finished table gives the value exactly if a type as wide was joined into the cell; where it does
not, a parameter is stored to, or a variable or call that types the value had not its final type
yet. -/
theorem store_absorbed_iff {p : Program} {t : Table} (h : p.infer = .ok t) :
    p.lastTurns.map Turn.toStore = p.stores ∧
      ∀ τ ∈ p.lastTurns, ∀ S, t.cellTy? τ.cell = some S →
        (t.home τ.cell = τ.cell → S.join τ.seen = S) ∧
        (S.isNumeric = true → (τ.ty t).isNumeric = true →
          (S.join (τ.ty t) = S ↔ ∃ ty ∈ p.inputs (t.home τ.cell), τ.ty t ≤ ty) ∧
          (S.join (τ.ty t) ≠ S → t.home τ.cell ≠ τ.cell ∨
            ∃ part ∈ τ.origin.expr.typedBy,
              τ.visit.typeOf part ≠ Frame.typeOf ⟨t, τ.routine⟩ part)) := by
  refine ⟨Program.map_toStore_turns _ _, ?_⟩
  intro τ hτ S hS
  refine ⟨Program.absorbs_seen h hτ hS, ?_⟩
  intro hnum hE
  refine ⟨Program.absorbs_iff h hτ hS hnum hE, ?_⟩
  intro hne
  by_cases hhome : t.home τ.cell = τ.cell
  · right
    apply Turn.exists_typedBy_of_seen_ne
    intro heq
    exact hne (heq ▸ Program.absorbs_seen h hτ hS hhome)
  · exact .inl hhome

/-- A loop whose second store widens what its first store copies. -/
def growingLoop : Program :=
  [.assign "x" (.int 1),
    .whileLoop (.binary .lessThan (.var "x") (.int 3))
      [.assign "y" (.var "x"),
        .assign "x" (.binary .add (.var "x") (.float (.finite false 4503599627370496 (-53))))]]

def growingLoopTable : Table :=
  ⟨[], .ofList [(entryName, .ofList [("x", ⟨.float, false⟩), ("y", ⟨.int, false⟩)])]⟩

/-- The copy is seen with the type that the variable has before it is widened. -/
theorem store_absorbed_iff_growingLoop :
    growingLoop.infer = .ok growingLoopTable ∧
      ∃ τ ∈ growingLoop.lastTurns, τ.cell = .var entryName "y" ∧
        growingLoopTable.cellTy? τ.cell = some .int ∧ τ.seen = .int ∧
        τ.ty growingLoopTable = .float ∧
        growingLoop.inputs (growingLoopTable.home τ.cell) = [.int] ∧
        Ty.int.join (τ.ty growingLoopTable) ≠ .int ∧
        ∃ part ∈ τ.origin.expr.typedBy,
          τ.visit.typeOf part ≠ Frame.typeOf ⟨growingLoopTable, τ.routine⟩ part := by
  have hinfer : growingLoop.infer = .ok growingLoopTable := by
    have hsome : growingLoop.infer.toOption = some growingLoopTable := by decide +kernel
    cases hi : growingLoop.infer with
    | error e => rw [hi] at hsome; cases hsome
    | ok t => rw [hi] at hsome; rw [Option.some.inj hsome]
  have hturn : (growingLoop.lastTurns[1]?.map fun τ =>
      (τ.cell, τ.seen, τ.ty growingLoopTable)) = some (.var entryName "y", .int, .float) := by
    decide +kernel
  have hS : growingLoopTable.cellTy? (.var entryName "y") = some .int := by decide +kernel
  have hhome : growingLoopTable.home (.var entryName "y") = .var entryName "y" := by
    decide +kernel
  have hinputs : growingLoop.inputs (.var entryName "y") = [.int] := by decide +kernel
  obtain ⟨τ, hget, heq⟩ := Option.map_eq_some_iff.mp hturn
  obtain ⟨hcell, hseen, hty⟩ : τ.cell = .var entryName "y" ∧ τ.seen = .int ∧
      τ.ty growingLoopTable = .float := by simpa using heq
  have hτ : τ ∈ growingLoop.lastTurns := List.mem_of_getElem? hget
  obtain ⟨hiff, hcause⟩ := ((store_absorbed_iff hinfer).2 τ hτ .int (hcell ▸ hS)).2 rfl
    (by rw [hty]; rfl)
  have hnot : Ty.int.join (τ.ty growingLoopTable) ≠ .int := by
    intro habsorbs
    obtain ⟨ty, hmem, hle⟩ := hiff.mp habsorbs
    rw [hcell, hhome, hinputs, List.mem_singleton] at hmem
    rw [hmem, hty] at hle
    exact absurd hle (by decide)
  have hown : growingLoopTable.home τ.cell = τ.cell := by rw [hcell, hhome]
  refine ⟨hinfer, τ, hτ, hcell, hcell ▸ hS, hseen, hty, ?_, hnot, ?_⟩
  · rw [hown, hcell, hinputs]
  · exact (hcause hnot).resolve_left fun hne => hne hown

end Braces
