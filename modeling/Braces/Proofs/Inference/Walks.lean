import Braces.Infer

/-!
# The walks of inference

A round walks the functions in order and then the entry statements. Walking only refines types, so
the names of functions and parameters stay as they were declared. What a table says of the locals of
a routine comes from the last walk of that routine.
-/

namespace Braces

namespace Table

/-- The functions of a table and their parameters, by name. -/
def names (t : Table) : List (String × List String) :=
  t.functions.map fun s => (s.name, s.params.map (·.name))

theorem names_modify {t : Table} {name : String} {g : Signature → Signature}
    (h : ∀ s, (g s).name = s.name ∧ (g s).params.map (·.name) = s.params.map (·.name)) :
    (t.modify name g).names = t.names := by
  simp only [names, modify, List.map_map]
  refine List.map_congr_left fun s _ => ?_
  simp only [Function.comp_apply]
  split
  · rw [(h s).1, (h s).2]
  · rfl

theorem names_modifyParam {t : Table} {name : String} {index : Nat} {g : Param → Param}
    (h : ∀ p, (g p).name = p.name) : (t.modifyParam name index g).names = t.names := by
  refine names_modify fun s => ⟨rfl, ?_⟩
  apply List.ext_getElem?
  intro i
  simp only [List.getElem?_map, List.getElem?_modify]
  cases s.params[i]? with
  | none => rfl
  | some p =>
    simp only [Option.map_eq_map, Option.map_some]
    split
    · rw [h]
    · rfl

theorem names_finalize (t : Table) : t.finalize.names = t.names := by
  simp [names, finalize, Signature.finalize, Param.finalize, Function.comp_def]

theorem map_name_paramsOf (t : Table) (routine : String) :
    (t.paramsOf routine).map (·.name) =
      ((t.names.find? (·.1 = routine)).map (·.2)).getD [] := by
  have hfind : t.names.find? (·.1 = routine) =
      (t.signature? routine).map fun s => (s.name, s.params.map (·.name)) := by
    rw [names, List.find?_map]
    rfl
  rw [hfind, paramsOf]
  cases t.signature? routine <;> rfl

/-! ## Refinement -/

/-- Types were joined into slots of a table. -/
inductive Refined (t : Table) : Table → Prop
  | refl : Refined t t
  | param {t' name index ty} : Refined t t' → Refined t (t'.refineParam name index ty).1
  | result {t' name ty} : Refined t t' → Refined t (t'.refineResult name ty).1

namespace Refined
variable {t t' t'' : Table}

theorem trans (h : Refined t t') (h' : Refined t' t'') : Refined t t'' := by
  induction h' with
  | refl => exact h
  | param _ ih => exact .param ih
  | result _ ih => exact .result ih

theorem names (h : Refined t t') : t'.names = t.names := by
  induction h with
  | refl => rfl
  | param _ ih =>
    rw [← ih]
    exact names_modifyParam fun _ => rfl
  | result _ ih =>
    rw [← ih]
    exact names_modify fun _ => ⟨rfl, rfl⟩

theorem locals (h : Refined t t') : t'.locals = t.locals := by
  induction h with
  | refl => rfl
  | param _ ih | result _ ih => exact ih

end Refined

end Table

namespace Visit

open Table (Refined)

mutual

theorem refined_expr : ∀ (e : Expr) (v : Visit), Refined v.table (expr e v).table
  | .var _, _ => .refl
  | .binary _ l r, v => (refined_expr l v).trans (refined_expr r _)
  | .unary _ e, v | .len e, v => refined_expr e v
  | .list es, v => refined_exprs es v
  | .index target position, v => (refined_expr target v).trans (refined_expr position _)
  | .call name args, v => refined_arguments name 0 args v
  | .range start stop step, v =>
    ((refined_expr start v).trans (refined_option stop _)).trans (refined_option step _)
  | .int _, _ | .float _, _ | .str _, _ | .bool _, _ => .refl

theorem refined_exprs : ∀ (es : List Expr) (v : Visit), Refined v.table (exprs es v).table
  | [], _ => .refl
  | e :: es, v => (refined_expr e v).trans (refined_exprs es _)

theorem refined_option : ∀ (e : Option Expr) (v : Visit), Refined v.table (option e v).table
  | none, _ => .refl
  | some e, v => refined_expr e v

theorem refined_arguments : ∀ (name : String) (index : Nat) (args : List Expr) (v : Visit),
    Refined v.table (arguments name index args v).table
  | _, _, [], _ => .refl
  | name, index, arg :: args, v =>
    ((refined_expr arg v).param).trans (refined_arguments name (index + 1) args
      ((expr arg v).refineParam name index ((expr arg v).typeOf arg)))

end

mutual

theorem refined_stmt (routine : String) : ∀ (s : Stmt) (v : Visit),
    Refined v.table (stmt routine s v).table
  | .assign _ value, v => refined_expr value v
  | .assignAt target position value, v =>
    ((refined_expr target v).trans (refined_expr position _)).trans (refined_expr value _)
  | .print args, v => refined_exprs args v
  | .ifElse cond body orelse, v =>
    ((refined_expr cond v).trans (refined_block routine body (expr cond v).enter)).trans
      (refined_otherwise routine orelse (block routine body (expr cond v).enter).exit)
  | .whileLoop cond body, v =>
    (refined_expr cond v).trans (refined_block routine body (expr cond v).enter)
  | .forLoop name iterable body, v =>
    (refined_expr iterable v).trans (refined_block routine body
      ((expr iterable v).enter.bind name (elementTy ((expr iterable v).typeOf iterable)) true))
  | .ret (some e), v => by
    rw [stmt]
    split
    · exact refined_expr e v
    · exact (refined_expr e v).result
  | .eval e, v => refined_expr e v
  | .ret none, _ | .funcDef _ _ _, _ | .pass, _ | .break_, _ | .continue_, _ => .refl

theorem refined_block (routine : String) : ∀ (body : List Stmt) (v : Visit),
    Refined v.table (block routine body v).table
  | [], _ => .refl
  | s :: rest, v => (refined_stmt routine s v).trans (refined_block routine rest _)

theorem refined_otherwise (routine : String) : ∀ (orelse : Option (List Stmt)) (v : Visit),
    Refined v.table (otherwise routine orelse v).table
  | none, _ => .refl
  | some body, v => refined_block routine body v.enter

end

end Visit

namespace Table

/-! ## Rounds -/

/-- Where the walk of a routine starts. -/
def start (t : Table) (routine : String) : Visit := ⟨t, .ofParams (t.paramsOf routine)⟩

/-- The walk of a routine, from its start. -/
def walk (t : Table) (routine : String) (body : List Stmt) : Visit :=
  Visit.block routine body (t.start routine)

theorem visit_eq (t : Table) (routine : String) (body : List Stmt) :
    t.visit routine body =
      (t.walk routine body).table.setLocals routine (t.walk routine body).scope.locals :=
  rfl

theorem names_visit (t : Table) (routine : String) (body : List Stmt) :
    (t.visit routine body).names = t.names :=
  (Visit.refined_block routine body _).names

theorem localsOf?_visit (t : Table) (routine : String) (body : List Stmt) (r : String) :
    (t.visit routine body).localsOf? r =
      if r = routine then some (t.walk routine body).scope.locals else t.localsOf? r := by
  have hl : (t.walk routine body).table.locals = t.locals :=
    (Visit.refined_block routine body _).locals
  simp only [visit_eq, setLocals, localsOf?, Dict.get?_insert, hl]

/-- Walks some routines, in order. -/
def visits (t : Table) (ws : List (String × List Stmt)) : Table :=
  ws.foldl (fun t w => t.visit w.1 w.2) t

/-- The routines that a round walks. -/
def walks (fs : List Function) (entry : List Stmt) : List (String × List Stmt) :=
  fs.map (fun f => (f.name, f.body)) ++ [(entryName, entry)]

theorem round_eq_visits (fs : List Function) (entry : List Stmt) (t : Table) :
    t.round fs entry = t.visits (walks fs entry) := by
  simp [round, visits, walks, List.foldl_map]

theorem names_visits (ws : List (String × List Stmt)) (t : Table) :
    (t.visits ws).names = t.names := by
  induction ws generalizing t with
  | nil => rfl
  | cons w ws ih => exact (ih _).trans (names_visit t w.1 w.2)

theorem localsOf?_visits_of_notMem (ws : List (String × List Stmt)) (t : Table) {r : String}
    (h : r ∉ ws.map (·.1)) : (t.visits ws).localsOf? r = t.localsOf? r := by
  induction ws generalizing t with
  | nil => rfl
  | cons w ws ih =>
    rw [List.map_cons, List.mem_cons, not_or] at h
    exact (ih _ h.2).trans ((localsOf?_visit t w.1 w.2 r).trans (if_neg h.1))

/-- The locals of a routine are those of its walk, from the table that the walks before it leave. -/
theorem localsOf?_visits {pre post : List (String × List Stmt)} {r : String} {body : List Stmt}
    (h : r ∉ post.map (·.1)) (t : Table) :
    (t.visits (pre ++ (r, body) :: post)).localsOf? r =
      some ((t.visits pre).walk r body).scope.locals := by
  rw [visits, List.foldl_append, List.foldl_cons]
  exact (localsOf?_visits_of_notMem post _ h).trans
    ((localsOf?_visit _ r body r).trans (if_pos rfl))

theorem names_round (fs : List Function) (entry : List Stmt) (t : Table) :
    (t.round fs entry).names = t.names := by
  rw [round_eq_visits]
  exact names_visits _ t

/-- The table before the last of at most `n + 1` rounds. -/
def beforeLast (fs : List Function) (entry : List Stmt) : Nat → Table → Table
  | 0, t => t
  | n + 1, t => if t.round fs entry = t then t else beforeLast fs entry n (t.round fs entry)

theorem rounds_succ (fs : List Function) (entry : List Stmt) (n : Nat) (t : Table) :
    t.rounds fs entry (n + 1) = (t.beforeLast fs entry n).round fs entry := by
  induction n generalizing t with
  | zero => simp [rounds, beforeLast]
  | succ n ih =>
    rw [rounds, beforeLast]
    split
    · rfl
    · exact ih _

theorem names_beforeLast (fs : List Function) (entry : List Stmt) (n : Nat) (t : Table) :
    (t.beforeLast fs entry n).names = t.names := by
  induction n generalizing t with
  | zero => rfl
  | succ n ih =>
    rw [beforeLast]
    split
    · rfl
    · exact (ih _).trans (names_round fs entry t)

/-! ## Marks of parameters -/

theorem names_markFunction (t : Table) (f : Function) : (t.markFunction f).names = t.names := by
  rw [markFunction]
  induction f.params.zipIdx generalizing t with
  | nil => rfl
  | cons p ps ih => exact (ih _).trans (names_modifyParam fun _ => rfl)

theorem names_markAll (fs : List Function) (t : Table) : (t.markAll fs).names = t.names := by
  rw [markAll]
  induction fs generalizing t with
  | nil => rfl
  | cons f fs ih => exact (ih _).trans (names_markFunction t f)

theorem names_markUsage (fs : List Function) (t : Table) : (t.markUsage fs).names = t.names := by
  fun_induction markUsage fs t with
  | case1 t marked _ ih => exact ih.trans (names_markAll fs t)
  | case2 t marked _ => exact names_markAll fs t

end Table

namespace Program

variable {p : Program} {t : Table}

/-! ## Tables of programs -/

theorem declare_signature (fs : List Function) (f : Function) :
    Table.declare ⟨fs.map Function.signature, .empty⟩ f.signature =
      if f.name ∈ fs.map (·.name) then .error (.duplicateFunction f.name)
      else .ok ⟨(fs ++ [f]).map Function.signature, .empty⟩ := by
  have hmem : (Table.signature? ⟨fs.map Function.signature, .empty⟩ f.signature.name).isSome ↔
      f.name ∈ fs.map (·.name) := by
    simp only [Table.signature?, List.find?_isSome, List.mem_map, decide_eq_true_eq]
    constructor
    · rintro ⟨_, ⟨g, hg, rfl⟩, heq⟩
      exact ⟨g, hg, heq⟩
    · rintro ⟨g, hg, heq⟩
      exact ⟨g.signature, ⟨g, hg, rfl⟩, heq⟩
  rw [Table.declare]
  simp only [hmem, List.map_append]
  rfl

theorem declare_all (fs : List Function) {pre : List Function}
    (hpre : (pre.map (·.name)).Nodup) :
    fs.foldlM (fun (t : Table) f => t.declare f.signature) ⟨pre.map Function.signature, .empty⟩ =
        .ok t ↔
      ((pre ++ fs).map (·.name)).Nodup ∧ t = ⟨(pre ++ fs).map Function.signature, .empty⟩ := by
  induction fs generalizing pre with
  | nil => simp [hpre, pure, Except.pure, eq_comm]
  | cons f fs ih =>
    rw [List.foldlM_cons, declare_signature]
    by_cases hf : f.name ∈ pre.map (·.name)
    · have hdup : ¬ ((pre ++ f :: fs).map (·.name)).Nodup := by
        rw [List.map_append, List.map_cons]
        exact fun h => (List.nodup_append.mp h).2.2 _ hf _ List.mem_cons_self rfl
      rw [if_pos hf]
      exact ⟨nofun, fun h => absurd h.1 hdup⟩
    · have hpre' : ((pre ++ [f]).map (·.name)).Nodup := by
        rw [List.map_append, List.nodup_append]
        refine ⟨hpre, List.pairwise_singleton _ _, ?_⟩
        rintro a ha b hb rfl
        cases List.mem_singleton.mp hb
        exact hf ha
      rw [if_neg hf]
      have := ih hpre'
      rwa [List.append_assoc] at this

theorem declared_eq_ok_iff :
    p.declared = .ok t ↔
      (p.routines.map (·.name)).Nodup ∧ t = ⟨p.routines.map Function.signature, .empty⟩ := by
  rw [declared]
  exact @declare_all t p.routines [] List.nodup_nil

/-- The table before the first round of inference. -/
def marked (p : Program) : Table :=
  Table.markUsage p.routines ⟨p.routines.map Function.signature, .empty⟩

/-- The table before the last round of inference. -/
def penultimate (p : Program) : Table := p.marked.beforeLast p.routines p.entryStatements 31

/-- The routines that inference walks. -/
def walks (p : Program) : List (String × List Stmt) := Table.walks p.routines p.entryStatements

theorem infer_eq_ok_iff :
    p.infer = .ok t ↔ p.entryFunction?.any (!·.params.isEmpty) = false ∧
      (p.routines.map (·.name)).Nodup ∧ p.nestedFunction? = none ∧
      t = (p.penultimate.visits p.walks).finalize := by
  have hrounds : p.penultimate.visits p.walks =
      p.marked.rounds p.routines p.entryStatements maxRounds := by
    rw [walks, ← Table.round_eq_visits, penultimate, maxRounds, Table.rounds_succ]
  rw [infer, hrounds]
  cases p.entryFunction?.any (!·.params.isEmpty) with
  | true => exact ⟨nofun, fun h => nomatch h.1⟩
  | false =>
    cases hd : p.declared with
    | error e =>
      refine ⟨nofun, fun h => ?_⟩
      rw [declared_eq_ok_iff.mpr ⟨h.2.1, rfl⟩] at hd
      cases hd
    | ok t₀ =>
      obtain ⟨hnodup, rfl⟩ := declared_eq_ok_iff.mp hd
      cases p.nestedFunction? with
      | some name => exact ⟨nofun, fun h => nomatch h.2.2.1⟩
      | none =>
        constructor
        · intro h
          cases h
          exact ⟨rfl, hnodup, rfl, rfl⟩
        · rintro ⟨-, -, -, rfl⟩
          rfl

theorem nodup_walks (h : (p.routines.map (·.name)).Nodup) : (p.walks.map (·.1)).Nodup := by
  rw [walks, Table.walks, List.map_append, List.map_map, List.nodup_append]
  refine ⟨h, List.pairwise_singleton _ _, ?_⟩
  rintro a ha b hb rfl
  obtain ⟨f, hf, rfl⟩ := List.mem_map.mp ha
  have hne : f.name ≠ entryName := by simpa [routines] using (List.mem_filter.mp hf).2
  exact hne (List.mem_singleton.mp hb)

theorem names_of_infer (h : p.infer = .ok t) :
    t.names = p.routines.map fun f => (f.name, f.params) := by
  obtain ⟨-, -, -, rfl⟩ := infer_eq_ok_iff.mp h
  rw [Table.names_finalize, Table.names_visits, penultimate, Table.names_beforeLast, marked,
    Table.names_markUsage, Table.names, List.map_map]
  refine List.map_congr_left fun f _ => ?_
  simp [Function.signature, Function.comp_def]

theorem localsOf?_of_infer (h : p.infer = .ok t) {pre post : List (String × List Stmt)} {r : String}
    {body : List Stmt} (hsplit : p.walks = pre ++ (r, body) :: post) :
    t.localsOf? r = some ((p.penultimate.visits pre).walk r body).scope.locals := by
  obtain ⟨-, hnodup, -, rfl⟩ := infer_eq_ok_iff.mp h
  have hpost : r ∉ post.map (·.1) := by
    have := nodup_walks hnodup
    rw [hsplit, List.map_append, List.map_cons, List.nodup_append] at this
    exact (List.nodup_cons.mp this.2.1).1
  show (p.penultimate.visits p.walks).localsOf? r = _
  rw [hsplit]
  exact Table.localsOf?_visits hpost _

theorem names_visits_penultimate (h : p.infer = .ok t) (pre : List (String × List Stmt)) :
    (p.penultimate.visits pre).names = t.names := by
  obtain ⟨-, -, -, rfl⟩ := infer_eq_ok_iff.mp h
  rw [Table.names_finalize, Table.names_visits, Table.names_visits]

/-- What a table says of the locals of a routine comes from a walk of its body. -/
theorem exists_walk_of_infer (h : p.infer = .ok t) {r : String} {body : List Stmt}
    (hm : (r, body) ∈ p.walks) :
    ∃ t₀ : Table, t₀.names = t.names ∧ t.localsOf? r = some (t₀.walk r body).scope.locals := by
  obtain ⟨pre, post, hsplit⟩ := List.append_of_mem hm
  exact ⟨_, names_visits_penultimate h pre, localsOf?_of_infer h hsplit⟩

/-- The entry routine has no parameters. -/
theorem paramsOf_entryName (h : p.infer = .ok t) : t.paramsOf entryName = [] := by
  have hnone : t.names.find? (·.1 = entryName) = none := by
    rw [names_of_infer h, List.find?_eq_none]
    rintro _ hm heq
    obtain ⟨f, hf, rfl⟩ := List.mem_map.mp hm
    have hne : f.name ≠ entryName := by simpa [routines] using (List.mem_filter.mp hf).2
    exact hne (by simpa using heq)
  have hmap := t.map_name_paramsOf entryName
  rw [hnone] at hmap
  exact List.map_eq_nil_iff.mp hmap

end Program

end Braces
