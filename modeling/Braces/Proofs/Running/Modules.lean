import Braces.Proofs.Running.Coupling
import Braces.Proofs.Splicing.Statements

/-!
# Running a module

A module runs its statements in order. A call of the entry function runs the body of that function
with variables of its own, and the module goes on with the next statement. Such a call may stand in
a guard, which compares the name of the module. In the main module, and as long as nothing assigns
that name, a guard does what its body does.
-/

namespace Braces

open Attempt Run

variable {V H : Type}

/-- How the call of a function that ends so ends as a statement. No other jump leaves a body. -/
def Flow.afterCall : Flow V → Flow V
  | .returned _ => .next
  | flow => flow

namespace Machine

variable (M : Machine V H)

/-- Calls the entry function. What it returns is dropped. -/
def callEntry : Run V H (Flow V) := do
  let m ← get
  match m.functions entryName with
  | none => throw (.unbound entryName)
  | some fn =>
    if fn.params = [] then return (← M.enter m.vars fn []).afterCall else throw .raised

mutual

/-- Runs a statement of a module. -/
def top : Stmt → Run V H (Flow V)
  | .ifElse cond body orelse =>
    if cond.isEntryGuard then do
      let v ← M.eval .module cond
      if ← M.isTrue v then topBlock body else topElse orelse
    else M.exec .module (.ifElse cond body orelse)
  | .eval e => if e.isEntryCall then M.callEntry else M.exec .module (.eval e)
  | s => M.exec .module s

def topBlock : List Stmt → Run V H (Flow V)
  | [] => return .next
  | s :: rest => (top s).andThen (topBlock rest)

def topElse : Option (List Stmt) → Run V H (Flow V)
  | none => return .next
  | some body => topBlock body

end

end Machine

/-! ## Sequences -/

namespace Run

theorem andThen_next (x : Run V H (Flow V)) : x.andThen (return .next) = x := by
  have hpure : x.andThen (return .next) = x >>= Pure.pure := by
    rw [andThen]
    congr 1
    funext flow
    cases flow <;> rfl
  rw [hpure, bind_pure]

theorem andThen_assoc (x y z : Run V H (Flow V)) :
    (x.andThen y).andThen z = x.andThen (y.andThen z) := by
  rw [andThen, andThen, andThen, bind_assoc]
  congr 1
  funext flow
  cases flow <;> rfl

theorem on_andThen_next {x y : Run V H (Flow V)} {m m₁ : Memory V H}
    (h : x.on m = (.ok .next, m₁)) :
    (x.andThen y).on m = y.on m₁ :=
  on_bind_ok h

theorem on_andThen_error {x y : Run V H (Flow V)} {m m₁ : Memory V H} {e : Fault}
    (h : x.on m = (.error e, m₁)) : (x.andThen y).on m = (.error e, m₁) :=
  on_bind_error h

/-- After anything but the end of a statement, nothing more is run. -/
theorem on_andThen_of_ne {x y : Run V H (Flow V)} {m : Memory V H} (h : (x.on m).1 ≠ .ok .next) :
    (x.andThen y).on m = x.on m := by
  generalize ho : x.on m = o at h
  obtain ⟨result, m₁⟩ := o
  cases result with
  | error e => exact on_bind_error ho
  | ok flow =>
    rw [andThen, on_bind_ok ho]
    cases flow with
    | next => exact (h rfl).elim
    | broke | continued | returned => rfl

theorem on_andThen_congr {x x' y y' : Run V H (Flow V)} {m : Memory V H} (hx : x.on m = x'.on m)
    (hy : ∀ m₁, x.on m = (.ok .next, m₁) → y.on m₁ = y'.on m₁) :
    (x.andThen y).on m = (x'.andThen y').on m := by
  by_cases hnext : (x.on m).1 = .ok .next
  · have ho : x.on m = (.ok .next, (x.on m).2) := Prod.ext hnext rfl
    rw [on_andThen_next ho, on_andThen_next (hx.symm.trans ho), hy _ ho]
  · rw [on_andThen_of_ne hnext, on_andThen_of_ne (hx ▸ hnext), hx]

theorem on_bind_pure {α β : Type} (x : Run V H α) (f : α → β) (m : Memory V H) :
    (x >>= fun a => Pure.pure (f a)).on m = ((x.on m).1.map f, (x.on m).2) := by
  generalize ho : x.on m = o
  obtain ⟨result, m₁⟩ := o
  cases result with
  | error e => exact on_bind_error ho
  | ok a => exact on_bind_ok ho

end Run

namespace Machine

variable (M : Machine V H)

theorem block_append (r : Region V) (ss ss' : List Stmt) :
    M.block r (ss ++ ss') = (M.block r ss).andThen (M.block r ss') := by
  induction ss with
  | nil =>
    rw [block, List.nil_append, andThen, pure_bind]
  | cons s ss ih => rw [List.cons_append, block, block, ih, andThen_assoc]

theorem topBlock_append (ss ss' : List Stmt) :
    M.topBlock (ss ++ ss') = (M.topBlock ss).andThen (M.topBlock ss') := by
  induction ss with
  | nil =>
    rw [topBlock, List.nil_append, andThen, pure_bind]
  | cons s ss ih => rw [List.cons_append, topBlock, topBlock, ih, andThen_assoc]

theorem top_eq_exec {s : Stmt} (hguard : s.isGuard = false) (hcall : s.isEntryCall = false) :
    M.top s = M.exec .module s := by
  cases s with
  | ifElse cond body orelse =>
    rw [Stmt.isGuard] at hguard
    rw [top, if_neg (ne_true_of_eq_false hguard)]
  | eval e =>
    rw [Stmt.isEntryCall] at hcall
    rw [top, if_neg (ne_true_of_eq_false hcall)]
  | _ => rfl

theorem topBlock_singleton (s : Stmt) : M.topBlock [s] = M.top s := by
  rw [topBlock, topBlock, andThen_next]

end Machine

/-! ## The name of the module -/

theorem Closed.mono {F F' : String → Option Function} (h : Closed F)
    (hsub : ∀ name fn, F' name = some fn → F name = some fn) : Closed F' := by
  intro name hname fn hfn
  exact h name hname fn (hsub name fn hfn)

/-- The memory of a main module, some of the functions of which are defined. -/
structure Memory.IsMain (R : Runtime V H) (F : String → Option Function)
    (m : Memory V H) : Prop where
  name : m.vars moduleName = some (R.str mainModule)
  functions : ∀ name fn, m.functions name = some fn → F name = some fn

/-- A part of a run after which the module still has its name. -/
def Steady (R : Runtime V H) (F : String → Option Function) (x : Run V H (Flow V)) : Prop :=
  ∀ ⦃m flow m₁⦄, m.IsMain R F → x.on m = (.ok flow, m₁) → m₁.IsMain R F

section
variable {R : Runtime V H} {F : String → Option Function} {n : Nat}

/-- A run that agrees with itself keeps what is said of its memory. -/
theorem Accord.of_self {α : Type} {P : Memory V H → Memory V H → Prop} {G : α → Prop}
    {E : Result V H α → Result V H α → Prop} {o : Result V H α} {a : α} {m : Memory V H}
    (h : Accord P G E o o) (ho : o = (.ok a, m))
    (hE : E (.ok a, m) (.ok a, m) → P m m) : P m m := by
  subst ho
  cases h with
  | value _ h => exact h
  | ended h => exact hE h

/-- The statements of a module that do not assign its name leave it as it is. -/
theorem steady_exec (hF : Closed F) {s : Stmt}
    (hs : ∀ s' ∈ s.within, s'.Meets (fun _ => True) (· ≠ moduleName)) :
    Steady R F ((machine R n).exec .module s) := by
  intro m flow m₁ hm h
  let W := Aligned (fun vars => vars moduleName = some (R.str mainModule)) (fun _ => True)
    (.module (V := V)) .module
  have hc : Coupling m.functions (machine R n) .module .module W
      (fun _ => True) (· ≠ moduleName) := by
    refine coupling_aligned (handles_machine (hF.mono hm.functions) R n) ?_
      fun _ _ => ⟨trivial, trivial⟩
    intro x hx vars v hvars
    rw [update_of_ne hx.symm]
    exact hvars
  -- The run is put beside itself, on a memory that is linked to itself.
  have hself : Linked m.functions W m m :=
    ⟨rfl, rfl, fun _ _ hfn => hfn, rfl, hm.name, fun _ _ _ hv => hv⟩
  have hexec := hc.exec (E := .alike (Linked m.functions W)) s
    (fun s' hs' => ⟨hs s' hs', fun _ _ => mirrors_returned _⟩) hself
  have hafter : Linked m.functions W m₁ m₁ := by
    refine hexec.of_self h ?_
    rintro ⟨v, m₂, m₂', heq, heq', hlinked⟩
    cases heq
    cases heq'
    exact hlinked
  exact ⟨hafter.vars.1, fun name fn hfn => hm.functions name fn (hafter.functions name fn hfn)⟩

theorem steady_define {name : String} {params : List String} {body : List Stmt}
    (hfn : F name = some ⟨name, params, body⟩) :
    Steady R F ((machine R n).exec .module (.funcDef name params body)) := by
  intro m flow m₁ hm h
  rw [Machine.exec] at h
  cases h
  refine ⟨hm.name, ?_⟩
  intro other fn hother
  dsimp only at hother
  split at hother
  · next heq =>
    cases hother
    rw [heq, hfn]
  · exact hm.functions other fn hother

theorem tracks_callEntry {M : Machine V H} (hM : M.Handles F)
    (hmain : ∀ fn, F entryName = some fn → fn.Meets fun _ => True) (vars : String → Option V) :
    Tracks (Pinned F vars vars) M.callEntry M.callEntry := by
  intro m m' hm
  rw [Machine.callEntry, on_get_bind, on_get_bind]
  cases hfn : m.functions entryName with
  | none => exact .unbound ..
  | some fn =>
    have hfn' := hm.functions entryName fn hfn
    rw [hm.table, hfn', hm.vars.1, hm.vars.2]
    have henter : Tracks (Pinned F vars vars) (M.enter vars fn []) (M.enter vars fn []) :=
      tracks_enter hM (hmain fn hfn') (fun _ _ _ _ hv => hv) [] vars vars
    exact Accords.ite (Accords.bind henter fun _ => .pure trivial) (.throw _) hm

theorem steady_callEntry (hF : Closed F)
    (hmain : ∀ fn, F entryName = some fn → fn.Meets fun _ => True) :
    Steady R F (machine R n).callEntry := by
  intro m flow m₁ hm h
  have hcall : Tracks (Pinned m.functions m.vars m.vars) (machine R n).callEntry
      (machine R n).callEntry :=
    tracks_callEntry (handles_machine (hF.mono hm.functions) R n)
      (fun fn hfn => hmain fn (hm.functions _ fn hfn)) m.vars
  have hafter := (hcall ⟨rfl, rfl, fun _ _ hfn => hfn, rfl, rfl, rfl⟩).of_self h False.elim
  refine ⟨hafter.vars.1 ▸ hm.name, fun name fn hfn => ?_⟩
  exact hm.functions name fn (hafter.functions name fn hfn)

/-- A sequence of steady parts is steady. -/
theorem steady_topBlock {M : Machine V H} {ss : List Stmt} (h : ∀ s ∈ ss, Steady R F (M.top s)) :
    Steady R F (M.topBlock ss) := by
  induction ss with
  | nil =>
    intro m flow m₁ hm hrun
    cases hrun
    exact hm
  | cons s ss ih =>
    intro m flow m₁ hm hrun
    rw [Machine.topBlock] at hrun
    by_cases hnext : ((M.top s).on m).1 = .ok .next
    · have hfirst : (M.top s).on m = (.ok .next, ((M.top s).on m).2) := Prod.ext hnext rfl
      rw [on_andThen_next hfirst] at hrun
      have hmid := h s List.mem_cons_self hm hfirst
      exact ih (fun s hs => h s (List.mem_cons_of_mem _ hs)) hmid hrun
    · rw [on_andThen_of_ne hnext] at hrun
      exact h s List.mem_cons_self hm hrun

theorem on_eval_guard {M : Machine V H} {m : Memory V H} {cond : Expr}
    (hcond : cond.testsMain = true) (hm : m.vars moduleName = some (M.runtime.str mainModule)) :
    (M.eval .module cond).on m = (.ok (M.runtime.bool true), m) := by
  have hread : (read .module moduleName).on m = (.ok (M.runtime.str mainModule), m) :=
    on_read_some hm
  have hequal : (operate (V := V) (M.runtime.binary .equal (M.runtime.str mainModule)
      (M.runtime.str mainModule))).on m = (.ok (M.runtime.bool true), m) := by
    rw [on_operate_some (M.runtime.equal_str _ _ _), decide_eq_true rfl]
  obtain rfl | rfl := Expr.testsMain_cases hcond
  · rw [Machine.eval, Machine.eval, Machine.eval, on_bind_ok hread]
    exact hequal
  · rw [Machine.eval, Machine.eval, Machine.eval, pure_bind]
    exact (on_bind_ok hread).trans hequal

end

section
variable {M : Machine V H} {F : String → Option Function}

mutual

/-- In the main module a guard does what its body does. -/
theorem on_top_unguard : ∀ s : Stmt, (∀ cond ∈ s.guards, cond.testsMain = true) →
    (∀ s' ∈ s.unguard, Steady M.runtime F (M.top s')) → ∀ m, m.IsMain M.runtime F →
    (M.top s).on m = (M.topBlock s.unguard).on m
  | .ifElse cond body orelse, hguards, hsteady, m, hm => by
    rw [Stmt.guards] at hguards
    rw [Stmt.unguard] at hsteady ⊢
    rw [Machine.top]
    by_cases hguard : cond.isEntryGuard = true
    · rw [if_pos hguard] at hguards hsteady ⊢
      rw [if_pos hguard]
      obtain ⟨hcond, hbody⟩ := List.forall_mem_cons.1 hguards
      have htrue : (M.isTrue (M.runtime.bool true)).on m = (.ok true, m) := by
        rw [Machine.isTrue, observe, on_operate_some rfl, M.runtime.truth_bool]
      rw [on_bind_ok (on_eval_guard hcond hm.name), on_bind_ok htrue, if_pos rfl]
      exact on_topBlock_unguard body hbody hsteady m hm
    · rw [if_neg hguard, if_neg hguard, M.topBlock_singleton, Machine.top, if_neg hguard]
  | .assign _ _, _, _, _, _ | .assignAt _ _ _, _, _, _, _ | .print _, _, _, _, _
  | .whileLoop _ _, _, _, _, _ | .forLoop _ _ _, _, _, _, _ | .funcDef _ _ _, _, _, _, _
  | .ret _, _, _, _, _ | .eval _, _, _, _, _ | .pass, _, _, _, _ | .break_, _, _, _, _
  | .continue_, _, _, _, _ =>
    congrFun (congrArg on (M.topBlock_singleton _).symm) _

theorem on_topBlock_unguard : ∀ ss : List Stmt, (∀ cond ∈ Stmt.guardsOf ss, cond.testsMain = true) →
    (∀ s ∈ Stmt.unguardBlock ss, Steady M.runtime F (M.top s)) → ∀ m, m.IsMain M.runtime F →
    (M.topBlock ss).on m = (M.topBlock (Stmt.unguardBlock ss)).on m
  | [], _, _, _, _ => rfl
  | s :: rest, hguards, hsteady, m, hm => by
    rw [Stmt.guardsOf] at hguards
    rw [Stmt.unguardBlock] at hsteady ⊢
    obtain ⟨hguards, hguards'⟩ := List.forall_mem_append.1 hguards
    obtain ⟨hsteady, hsteady'⟩ := List.forall_mem_append.1 hsteady
    have hfirst := on_top_unguard s hguards hsteady m hm
    rw [Machine.topBlock, M.topBlock_append]
    refine on_andThen_congr hfirst fun m₁ hm₁ => ?_
    have hmid := steady_topBlock hsteady hm (hfirst.symm.trans hm₁)
    exact on_topBlock_unguard rest hguards' hsteady' m₁ hmid

end

end

/-! ## Definitions -/

section
variable {F : String → Option Function} {M : Machine V H}
  {W : (String → Option V) → (String → Option V) → Prop} {vis own : String → Prop}

/-- A definition of a function that the second run has already. -/
theorem Linked.define {m m' : Memory V H} (h : Linked F W m m') {fn : Function}
    (hfn : F fn.name = some fn) : Linked F W ((define fn).on m).2 m' := by
  refine ⟨h.heap, h.printed, ?_, h.table, h.vars⟩
  intro name fn' hname
  change (if name = fn.name then some fn else m.functions name) = some fn' at hname
  split at hname
  · next heq =>
    cases hname
    rw [heq, hfn]
  · exact h.functions name fn' hname

/-- The second run has all functions from the start, and leaves out their definitions. -/
theorem Coupling.topBlock (h : Coupling F M .module .module W vis own) {ss : List Stmt}
    (hguard : ∀ s ∈ ss, s.isGuard = false) (hcall : ∀ s ∈ ss, s.isEntryCall = false)
    (hdefs : ∀ fn ∈ ss.filterMap Program.function?, F fn.name = some fn)
    (hmeets : ∀ s ∈ Stmt.withinBlock (ss.filter (!·.isFunction)), s.Meets vis own) :
    Mirrors (Linked F W) (.alike (Linked F W)) (M.topBlock ss)
      (M.block .module (ss.filter (!·.isFunction))) := by
  induction ss with
  | nil => exact .pure rfl
  | cons s rest ih =>
    rw [List.forall_mem_cons] at hguard hcall
    rw [Machine.topBlock, M.top_eq_exec hguard.1 hcall.1]
    cases hs : s.isFunction with
    | true =>
      cases s with
      | funcDef name params body =>
        rw [List.filter_cons_of_neg (by simp [hs])] at hmeets ⊢
        obtain ⟨hdef, hdefs⟩ := List.forall_mem_cons.1 hdefs
        intro m m' hm
        exact ih hguard.2 hcall.2 hdefs hmeets (hm.define hdef)
      | _ => cases hs
    | false =>
      rw [List.filter_cons_of_pos (by simp [hs]), Stmt.withinBlock,
        List.forall_mem_append] at hmeets
      rw [List.filter_cons_of_pos (by simp [hs]), Machine.block]
      have hdefs' : ∀ fn ∈ rest.filterMap Program.function?, F fn.name = some fn :=
        fun fn hfn => hdefs fn (((List.sublist_cons_self s rest).filterMap _).subset hfn)
      refine Mirrors.andThen ?_ (ih hguard.2 hcall.2 hdefs' hmeets.2)
      exact h.exec s fun s' hs' => ⟨hmeets.1 s' hs', fun _ _ => mirrors_returned _⟩

/-- Definitions, and statements that do not assign the name of the module, are steady. -/
theorem steady_top {R : Runtime V H} {n : Nat} (hF : Closed F) {ss : List Stmt}
    (hguard : ∀ s ∈ ss, s.isGuard = false) (hcall : ∀ s ∈ ss, s.isEntryCall = false)
    (hdefs : ∀ fn ∈ ss.filterMap Program.function?, F fn.name = some fn)
    (hmeets : ∀ s ∈ Stmt.withinBlock (ss.filter (!·.isFunction)),
      s.Meets (fun _ => True) (· ≠ moduleName)) :
    ∀ s ∈ ss, Steady R F ((machine R n).top s) := by
  intro s hs
  rw [Machine.top_eq_exec _ (hguard s hs) (hcall s hs)]
  cases hfunction : s.isFunction with
  | true =>
    cases s with
    | funcDef name params body =>
      exact steady_define (hdefs ⟨name, params, body⟩ (List.mem_filterMap.2 ⟨_, hs, rfl⟩))
    | _ => cases hfunction
  | false =>
    apply steady_exec hF
    intro s' hs'
    have hmem : s ∈ ss.filter (!·.isFunction) := List.mem_filter.2 ⟨hs, by simp [hfunction]⟩
    exact hmeets s' (Stmt.mem_withinBlock.2 ⟨s, hmem, hs'⟩)

end

/-! ## Printing -/

/-- Two runs print the same, or the first reads a name without a value. -/
def PrintsAlike {α : Type} (o o' : Result V H α) : Prop :=
  (∃ x, o.1 = .error (.unbound x)) ∨ o.2.printed = o'.2.printed

theorem Accord.printsAlike {α : Type} {P : Memory V H → Memory V H → Prop} {G : α → Prop}
    {E : Result V H α → Result V H α → Prop} {o o' : Result V H α} (h : Accord P G E o o')
    (hP : ∀ m m', P m m' → m.printed = m'.printed) (hE : E o o' → o.2.printed = o'.2.printed) :
    PrintsAlike o o' := by
  cases h with
  | unbound x => exact .inl ⟨x, rfl⟩
  | fault e h => exact .inr (hP _ _ h)
  | value _ h => exact .inr (hP _ _ h)
  | ended h => exact .inr (hE h)

theorem Mirrors.printsAlike {P : Memory V H → Memory V H → Prop} {x y : Run V H (Flow V)}
    (h : Mirrors P (.alike P) x y) (hP : ∀ m m', P m m' → m.printed = m'.printed)
    {m m' : Memory V H} (hm : P m m') : PrintsAlike (x.on m) (y.on m') := by
  apply (h hm).printsAlike hP
  rintro ⟨v, m₁, m₁', ho, ho', hlinked⟩
  rw [ho, ho']
  exact hP m₁ m₁' hlinked

end Braces
