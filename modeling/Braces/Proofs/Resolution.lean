import Braces.Proofs.Absorption
import Braces.Proofs.SlotChecks
import Braces.Proofs.Usage.Forwarding

/-!
# Names resolve

The table knows as locals of a routine exactly the names that its body binds, its parameters apart.
Every variable and every call that is emitted was looked up. So what a routine reads is its own, and
what it calls is a function of the program, called with as many arguments as it takes.
-/

namespace Braces

/-! ## Names that a body binds -/

def Step.target? : Step → Option String
  | .bind name _ => some name
  | _ => none

namespace Expr

mutual

/-- Evaluating an expression binds no name. -/
theorem targets_steps : ∀ e : Expr, e.steps.filterMap Step.target? = []
  | .var _ => rfl
  | .binary _ l r => by simp [steps, targets_steps l, targets_steps r]
  | .unary _ e | .len e => by simpa [steps] using targets_steps e
  | .list es => by simpa [steps] using targets_stepsOf es
  | .index target position => by simp [steps, targets_steps target, targets_steps position]
  | .call name args => by simpa [steps] using targets_argumentSteps name 0 args
  | .range start stop step => by
    simp [steps, targets_steps start, targets_optionSteps stop, targets_optionSteps step]
  | .int _ | .float _ | .str _ | .bool _ => rfl

theorem targets_stepsOf : ∀ es : List Expr, (stepsOf es).filterMap Step.target? = []
  | [] => rfl
  | e :: es => by simp [stepsOf, targets_steps e, targets_stepsOf es]

theorem targets_optionSteps : ∀ e : Option Expr, (optionSteps e).filterMap Step.target? = []
  | none => rfl
  | some e => by simpa [optionSteps] using targets_steps e

theorem targets_argumentSteps (name : String) : ∀ (index : Nat) (args : List Expr),
    (argumentSteps name index args).filterMap Step.target? = []
  | _, [] => rfl
  | i, arg :: args => by
    simp [argumentSteps, Step.target?, targets_steps arg, targets_argumentSteps name (i + 1) args,
      List.filterMap_cons]

end

end Expr

namespace Stmt

mutual

theorem targets_steps (routine : String) : ∀ s : Stmt,
    (s.steps routine).filterMap Step.target? = s.within.filterMap target?
  | .assign name value => by
    simp [steps, within, target?, Step.target?, Expr.targets_steps]
  | .forLoop name iterable body => by
    have hbody := targets_blockSteps routine body
    simp [steps, within, target?, Step.target?, Expr.targets_steps, hbody, boundNames,
      List.filterMap_cons]
  | .ifElse cond body orelse => by
    have hbody := targets_blockSteps routine body
    have horelse := targets_elseSteps routine orelse
    simp [steps, within, target?, Step.target?, Expr.targets_steps, hbody, horelse, boundNames,
      List.filterMap_cons]
  | .whileLoop cond body => by
    have hbody := targets_blockSteps routine body
    simp [steps, within, target?, Step.target?, Expr.targets_steps, hbody, boundNames,
      List.filterMap_cons]
  | .ret (some e) => by
    rw [steps]
    split <;> simp [within, target?, Step.target?, Expr.targets_steps, List.filterMap_cons]
  | .assignAt _ _ _ | .eval _ => by
    simp [steps, within, target?, Expr.targets_steps, List.filterMap_cons]
  | .print _ => by simp [steps, within, target?, Expr.targets_stepsOf, List.filterMap_cons]
  | .ret none | .funcDef _ _ _ | .pass | .break_ | .continue_ => rfl

/-- The walk of a body stores to the names that the body binds, in their order. -/
theorem targets_blockSteps (routine : String) : ∀ body : List Stmt,
    (blockSteps routine body).filterMap Step.target? = boundNames body
  | [] => rfl
  | s :: rest => by
    rw [blockSteps, List.filterMap_append, targets_steps routine s,
      targets_blockSteps routine rest, boundNames, boundNames, withinBlock, List.filterMap_append]

theorem targets_elseSteps (routine : String) : ∀ orelse : Option (List Stmt),
    (elseSteps routine orelse).filterMap Step.target? = (withinElse orelse).filterMap target?
  | none => rfl
  | some body => by
    have hbody := targets_blockSteps routine body
    simp [elseSteps, withinElse, Step.target?, hbody, boundNames, List.filterMap_cons]

end

end Stmt

/-! ## Names that a walk gets to know -/

namespace Visit

variable {x : String}

/-- A step gives a type to no name but the one that it stores to. -/
theorem isSome_types_step (v : Visit) (st : Step) :
    ((v.step st).scope.types.get? x).isSome ↔
      (v.scope.types.get? x).isSome ∨ st.target? = some x := by
  cases st with
  | touch name =>
    have htypes : (v.scope.touch name).types = v.scope.types :=
      (Scope.touched_touch v.scope name).types
    show ((v.scope.touch name).types.get? x).isSome ↔ _
    simp [htypes, Step.target?]
  | bind name origin =>
    show ((v.scope.bind name (origin.ty v.typeOf) origin.isLoop).types.get? x).isSome ↔ _
    rw [Scope.bind, Dict.get?_insert, (Scope.stored_bindName v.scope name origin.isLoop).types]
    by_cases hx : x = name
    · simp [hx, Step.target?]
    · simp [hx, Ne.symm hx, Step.target?]
  | pass | give | enter | exit => simp [step, Step.target?]; rfl

theorem isSome_types_run (steps : List Step) (v : Visit) :
    ((v.run steps).scope.types.get? x).isSome ↔
      (v.scope.types.get? x).isSome ∨ x ∈ steps.filterMap Step.target? := by
  induction steps generalizing v with
  | nil => simp
  | cons st rest ih =>
    rw [run_cons, ih, isSome_types_step, List.mem_filterMap, List.mem_filterMap, or_assoc]
    simp only [List.mem_cons, exists_eq_or_imp]

end Visit

namespace Program

variable {p : Program} {t : Table} {u : Cpp.Unit} {r x : String} {body : List Stmt}

/-- The locals of a routine are the names that its body binds and that are not its parameters. -/
theorem isSome_local?_iff (h : p.infer = .ok t) (hm : (r, body) ∈ p.walks) :
    (t.local? r x).isSome ↔
      x ∉ (t.paramsOf r).map (·.name) ∧ x ∈ Stmt.boundNames body := by
  obtain ⟨pre, post, hsplit⟩ := List.append_of_mem hm
  have hwalk : (((p.penultimate.visits pre).walk r body).scope.types.get? x).isSome ↔
      (((p.penultimate.visits pre).start r).scope.types.get? x).isSome ∨
        x ∈ Stmt.boundNames body := by
    rw [Table.walk, Visit.block_eq_run, Visit.isSome_types_run, Stmt.targets_blockSteps]
  have hstart (hx : x ∉ (t.paramsOf r).map (·.name)) :
      (((p.penultimate.visits pre).start r).scope.types.get? x) = none := by
    rw [← names_paramsOf_penultimate h pre] at hx
    exact types_ofParams_of_notMem hx
  constructor
  · intro hl
    obtain ⟨l, hl⟩ := Option.isSome_iff_exists.1 hl
    obtain ⟨hx, hty, -⟩ := (local?_eq_some_iff h hsplit).1 hl
    rw [hty, hstart hx] at hwalk
    exact ⟨hx, by simpa using hwalk⟩
  · rintro ⟨hx, hbound⟩
    obtain ⟨ty, hty⟩ := Option.isSome_iff_exists.1 (hwalk.2 (.inr hbound))
    rw [(local?_eq_some_iff h hsplit (l := ⟨ty, _⟩)).2 ⟨hx, hty, rfl⟩]
    rfl

/-! ## Resolution -/

/-- All names in what a routine evaluates resolve: it reads its parameters and what it binds itself,
and it calls functions of the program, with as many arguments as they take. -/
structure Resolves (p : Program) (routine : String) (params : List String) (body : List Stmt) :
    Prop where
  reads : ∀ name, .var name ∈ Stmt.evaluatedNodes routine body →
    name ∈ params ∨ name ∈ Stmt.boundNames body
  calls : ∀ name args, .call name args ∈ Stmt.evaluatedNodes routine body →
    name = Expr.strName ∧ args.length ≤ 1 ∨
      ∃ fn ∈ p.routines, fn.name = name ∧ fn.params.length = args.length

theorem exists_of_signature? (h : p.infer = .ok t) {name : String} {s : Signature}
    (hs : t.signature? name = some s) :
    ∃ fn ∈ p.routines, fn.name = name ∧ fn.params.length = s.params.length := by
  have hmem : (s.name, s.params.map (·.name)) ∈ t.names :=
    List.mem_map.2 ⟨s, List.mem_of_find?_eq_some hs, rfl⟩
  rw [names_of_infer h] at hmem
  obtain ⟨fn, hfn, heq⟩ := List.mem_map.1 hmem
  have hname : s.name = name := by simpa using List.find?_some hs
  refine ⟨fn, hfn, (congrArg Prod.fst heq).trans hname, ?_⟩
  have hparams : fn.params = s.params.map (·.name) := congrArg Prod.snd heq
  rw [hparams, List.length_map]

/-- A routine that is emitted resolves, whatever the walk that it comes from. -/
theorem resolves_of_walk (h : p.infer = .ok t) (hemit : p.emit t = .ok u)
    (hm : (r, body) ∈ p.walks) : p.Resolves r ((t.paramsOf r).map (·.name)) body := by
  obtain ⟨st, cs, st', hblock⟩ := exists_emitsBlock hemit hm
  constructor
  · intro name hname
    obtain ⟨c, hc⟩ := hblock.exists_of_evaluatedNodes _ hname
    cases hc with
    | var hvar =>
      rcases Bool.or_eq_true_iff.1 hvar with hlocal | hparam
      · exact .inr ((isSome_local?_iff h hm).1 hlocal).2
      · obtain ⟨q, hq, heq⟩ := List.any_eq_true.1 hparam
        exact .inl (List.mem_map.2 ⟨q, hq, by simpa using heq⟩)
  · intro name args hcall
    obtain ⟨c, hc⟩ := hblock.exists_of_evaluatedNodes _ hcall
    cases hc with
    | emptyText => exact .inl ⟨rfl, Nat.zero_le _⟩
    | text _ => exact .inl ⟨rfl, Nat.le_refl _⟩
    | call _ hps _ =>
      obtain ⟨s, hs, rfl, hlen⟩ := Frame.length_of_calleeParams hps
      obtain ⟨fn, hfn, hname, hparams⟩ := exists_of_signature? h hs
      exact .inr ⟨fn, hfn, hname, hparams.trans hlen⟩

theorem map_name_paramsOf_routine (h : p.infer = .ok t) {fn : Function} (hfn : fn ∈ p.routines) :
    (t.paramsOf fn.name).map (·.name) = fn.params := by
  have hnodup := (infer_eq_ok_iff.1 h).2.1
  have hfind : p.routines.find? (·.name = fn.name) = some fn :=
    (find?_eq_some_iff_of_nodup hnodup).2 ⟨hfn, rfl⟩
  rw [Table.map_name_paramsOf, names_of_infer h, List.find?_map]
  simp only [Function.comp_def, hfind, Option.map_some, Option.getD_some]

/-- If a program is emitted with its own table, the names in every function and in the entry
statements resolve. -/
theorem names_resolve {p : Program} {t : Table} {u : Cpp.Unit} (h : p.infer = .ok t)
    (hemit : p.emit t = .ok u) :
    (∀ fn ∈ p.routines, p.Resolves fn.name fn.params fn.body) ∧
      p.Resolves entryName [] p.entryStatements := by
  constructor
  · intro fn hfn
    rw [← map_name_paramsOf_routine h hfn]
    exact resolves_of_walk h hemit (List.mem_append_left _ (List.mem_map.2 ⟨fn, hfn, rfl⟩))
  · have hentry := resolves_of_walk h hemit (List.mem_append_right _ List.mem_cons_self)
    rwa [paramsOf_entryName h] at hentry

/-- A function that reads the variable of its loop after it, and is called within other calls. -/
def lastDigits : String :=
  "def last(n):\n for i in range(n):\n  d = i % 10\n return d + i\n" ++
    "k = 3\nprint(str(last(last(k))))\n"

theorem names_resolve_lastDigits :
    ∃ p t u, readSource lastDigits = .ok p ∧ p.infer = .ok t ∧ p.emit t = .ok u ∧
      (∀ fn ∈ p.routines, p.Resolves fn.name fn.params fn.body) ∧
      p.Resolves entryName [] p.entryStatements := by
  have hok : (compile lastDigits).toBool = true := by decide +kernel
  obtain ⟨text, h⟩ := exists_of_toBool hok
  obtain ⟨p, t, u, hp, ht, hu, -⟩ := exists_of_compile h
  exact ⟨p, t, u, hp, ht, hu, names_resolve ht hu⟩

end Program

end Braces
