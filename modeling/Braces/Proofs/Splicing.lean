import Braces.Proofs.Splicing.Parts
import Braces.Proofs.Splicing.Returns

/-!
# Splicing keeps what a program prints

The body of the entry function is put in place of its call, where its variables and those of the
module are in one scope, and where a return ends the program. Let the entry function be called once
and in the guard of a main module, and let nothing read a variable afterwards that both the module
and the entry function have bound. Then the entry routine prints what the module prints until the
entry function returns. So both print the same exactly if the module prints nothing from a return
on, neither by evaluating what is returned nor after the call.
-/

namespace Braces

open Attempt Run

namespace Program

/-! ## Runs -/

section
variable {V H : Type}

/-- A module at its start: only its name is known. -/
def moduleStart (R : Runtime V H) (heap : H) : Memory V H :=
  ⟨update (fun _ => none) moduleName (R.str mainModule), fun _ => none, heap, []⟩

/-- Runs a module by itself. -/
def moduleRun (p : Program) (R : Runtime V H) (n : Nat) (heap : H) : Result V H (Flow V) :=
  ((machine R n).topBlock p).on (moduleStart R heap)

/-- The entry routine at its start: it has no variables, and all functions are there. -/
def entryStart (p : Program) (heap : H) : Memory V H := ⟨fun _ => none, p.defined, heap, []⟩

/-- Runs the entry statements in one scope. -/
def entryRun (p : Program) (R : Runtime V H) (n : Nat) (heap : H) : Result V H (Flow V) :=
  ((machine R n).block .module p.entryStatements).on (p.entryStart heap)

end

end Program

/-- Calls a function without parameters until it returns, and leaves out what it returns. -/
def Machine.callBare {V H : Type} (M : Machine V H) (main : Function) : Run V H (Flow V) := do
  let m ← get
  M.enter m.vars main.bare []

namespace Program

section
variable {V H : Type} {p : Program} {main : Function} {R : Runtime V H} {n : Nat}

/-- Runs a module until the end of its entry function. Where that function returns a value, the
value is not evaluated. -/
def returnRun (p : Program) (main : Function) (R : Runtime V H) (n : Nat) (heap : H) :
    Result V H (Flow V) :=
  (((machine R n).topBlock p.beforeEntry).andThen ((machine R n).callBare main)).on
    (moduleStart R heap)

/-- If the entry function returns, the module prints nothing from then on: neither the evaluation of
what is returned nor what follows the call does. -/
def SkipsNothing (p : Program) (main : Function) (R : Runtime V H) (n : Nat) (heap : H) : Prop :=
  (p.returnRun main R n heap).returns = true →
    (p.started.moduleRun R n heap).2.printed = (p.returnRun main R n heap).2.printed

instance (p : Program) (main : Function) (R : Runtime V H) (n : Nat) (heap : H) :
    Decidable (p.SkipsNothing main R n heap) :=
  inferInstanceAs (Decidable (_ → _))

/-! ## Parts of the run -/

/-- The memory of an entry function that was called with given variables in the module, and of the
entry routine. -/
abbrev LinkedWithin (p : Program) (main : Function) (outer : String → Option V) :
    Memory V H → Memory V H → Prop :=
  Linked p.defined (Aligned (fun _ => True) (· ≠ moduleName) (.call main.own outer) .module)

/-- The body of the entry function does the same as a function that returns no value and as a part
of the entry routine. -/
theorem mirrors_main (R : Runtime V H) (n : Nat) (hp : p.Parted main) (outer : String → Option V) :
    Mirrors (LinkedWithin p main outer) (.alike (LinkedWithin p main outer))
      ((machine R n).block (.call main.own outer) (Stmt.bareBlock main.body))
      ((machine R n).block .module main.body) := by
  have hc : Coupling p.defined (machine R n) (.call main.own outer) .module
      (Aligned (fun _ => True) (· ≠ moduleName) (.call main.own outer) .module) (· ≠ moduleName)
      (· ∈ main.own) :=
    coupling_aligned (handles_machine hp.closed R n) (fun _ _ _ _ h => h) fun _ hx => ⟨hx, trivial⟩
  rw [← (machine R n).block_module_bare main.body]
  apply hc.block
  intro s hs
  rw [Stmt.withinBlock_bareBlock] at hs
  obtain ⟨s₀, hs₀, rfl⟩ := List.mem_map.1 hs
  refine ⟨(hp.body s₀ hs₀).bare, fun value hvalue => ?_⟩
  rw [Stmt.eq_none_of_bare hvalue]
  exact mirrors_returned _

/-- Only what the module binds before it calls the entry function has a value. -/
def Known (p : Program) (vars : String → Option V) : Prop :=
  ∀ x v, vars x = some v → x = moduleName ∨ x ∈ Stmt.boundNames p.beforeEntry

/-- The memories of the module and of the entry routine before the call of the entry function. -/
abbrev LinkedBefore (p : Program) : Memory V H → Memory V H → Prop :=
  Linked p.defined (Aligned (Known p) (· ≠ moduleName) .module .module)

theorem mirrors_before (R : Runtime V H) (n : Nat) (hp : p.Parted main) :
    Mirrors (LinkedBefore p) (.alike (LinkedBefore p)) ((machine R n).topBlock p.beforeEntry)
      ((machine R n).block .module (p.beforeEntry.filter (!·.isFunction))) := by
  have hc : Coupling p.defined (machine R n) .module .module
      (Aligned (Known p) (· ≠ moduleName) .module .module) (· ≠ moduleName)
      (fun x => x ≠ moduleName ∧ x ∈ Stmt.boundNames p.beforeEntry) := by
    refine coupling_aligned (handles_machine hp.closed R n) ?_ fun _ _ => ⟨trivial, trivial⟩
    intro x hx vars v hvars y w hy
    by_cases heq : y = x
    · exact .inr (heq ▸ hx.2)
    · rw [update_of_ne heq] at hy
      exact hvars y w hy
  exact hc.topBlock (fun s hs => isGuard_of_mem_started (mem_started_of_mem_beforeEntry hs))
    (fun s hs => isEntryCall_of_mem_beforeEntry hs) hp.defs_before hp.before

/-- The memories of the module and of the entry routine after the call of the entry function. -/
abbrev LinkedAfter (p : Program) (main : Function) : Memory V H → Memory V H → Prop :=
  Linked p.defined (Aligned (fun _ => True) (p.VisibleAfter main) .module .module)

theorem mirrors_after (hp : p.Parted main) :
    Mirrors (LinkedAfter p main) (.alike (LinkedAfter p main)) ((machine R n).topBlock p.afterEntry)
      ((machine R n).block .module (p.afterEntry.filter (!·.isFunction))) := by
  have hc : Coupling p.defined (machine R n) .module .module
      (Aligned (fun _ => True) (p.VisibleAfter main) .module .module) (p.VisibleAfter main)
      (· ≠ moduleName) :=
    coupling_aligned (handles_machine hp.closed R n) (fun _ _ _ _ h => h)
      fun _ _ => ⟨trivial, trivial⟩
  exact hc.topBlock (fun s hs => isGuard_of_mem_started (mem_started_of_mem_afterEntry hs)) hp.once
    hp.defs_after hp.after

/-! ## The whole run -/

/-- What a call of the entry function comes to. -/
theorem on_callEntry {M : Machine V H} {m : Memory V H} (hmain : m.functions entryName = some main)
    (hparams : main.params = []) :
    M.callEntry.on m =
      (((M.block (.call main.own m.vars) main.body).on { m with vars := fun _ => none }).1.map
          Flow.afterCall,
        { ((M.block (.call main.own m.vars) main.body).on { m with vars := fun _ => none }).2 with
          vars := m.vars }) := by
  rw [Machine.callEntry, on_get_bind, hmain]
  dsimp only
  rw [if_pos hparams, on_bind_pure, Machine.enter, hparams]
  rfl

/-- What a call without the returned value comes to. -/
theorem on_callBare {M : Machine V H} {m : Memory V H} (hparams : main.params = []) :
    (M.callBare main).on m =
      (((M.block (.call main.own m.vars) (Stmt.bareBlock main.body)).on
          { m with vars := fun _ => none }).1,
        { ((M.block (.call main.own m.vars) (Stmt.bareBlock main.body)).on
            { m with vars := fun _ => none }).2 with vars := m.vars }) := by
  rw [Machine.callBare, on_get_bind, Machine.enter, main.own_bare]
  change (inScope (fun x => (main.params.zip []).lookup x) _).on m = _
  rw [hparams]
  rfl

/-- The entry function starts without variables of its own, and sees those of the module. -/
theorem LinkedBefore.within {m m' : Memory V H} (h : LinkedBefore p m m') (main : Function) :
    LinkedWithin p main m.vars { m with vars := fun _ => none } m' := by
  refine ⟨h.heap, h.printed, h.functions, h.table, trivial, ?_⟩
  intro x hx v hv
  by_cases hown : x ∈ main.own
  · rw [Region.lookup, if_pos hown] at hv
    cases hv
  · rw [Region.lookup, if_neg hown] at hv
    exact h.vars.2 x hx v hv

/-- The variables of the module are back after the call. What the entry function has bound in the
entry routine is not among those that can be seen and have a value. -/
theorem LinkedWithin.after {vars : String → Option V} {m m' : Memory V H}
    (h : LinkedWithin p main vars m m') (hparams : main.params = []) (hvars : Known p vars) :
    LinkedAfter p main { m with vars := vars } m' := by
  refine ⟨h.heap, h.printed, h.functions, h.table, trivial, ?_⟩
  rintro x ⟨hname, hvisible⟩ v hv
  have hfree : x ∉ main.own := by
    intro hown
    have hbound : x ∈ Stmt.boundNames main.body := by
      rwa [Function.own, hparams, List.nil_append] at hown
    exact hvisible ((hvars x v hv).resolve_left hname) hbound
  apply h.vars.2 x hname v
  rw [Region.lookup, if_neg hfree]
  exact hv

/-- A module, the module until its entry function returns, and an entry routine have been run. The
entry routine has printed what the module has printed, and only until that return if there is one,
unless the module reads a name without a value. -/
def PrintsUntil (o b o' : Result V H (Flow V)) : Prop :=
  (∃ x, o.1 = .error (.unbound x)) ∨ o'.2.printed = (if b.returns then b else o).2.printed

/-- What follows two runs that do the same. -/
theorem PrintsUntil.andThen {P : Memory V H → Memory V H → Prop} {x x' y b y' : Run V H (Flow V)}
    (h : Mirrors P (.alike P) x x') (hP : ∀ m m', P m m' → m.printed = m'.printed)
    (hrest : ∀ m m', P m m' → PrintsUntil (y.on m) (b.on m) (y'.on m')) {m m' : Memory V H}
    (hm : P m m') :
    PrintsUntil ((x.andThen y).on m) ((x.andThen b).on m) ((x'.andThen y').on m') := by
  have hx := h hm
  generalize ho : x.on m = o at hx
  generalize ho' : x'.on m' = o' at hx
  cases hx with
  | unbound e =>
    rw [on_andThen_error ho]
    exact .inl ⟨e, rfl⟩
  | fault e h =>
    rw [on_andThen_error ho, on_andThen_error ho, on_andThen_error ho']
    exact .inr (hP _ _ h).symm
  | @value flow _ _ hflow h =>
    cases flow with
    | next =>
      rw [on_andThen_next ho, on_andThen_next ho, on_andThen_next ho']
      exact hrest _ _ h
    | broke | continued =>
      rw [Run.andThen, Run.andThen, Run.andThen, on_bind_ok ho, on_bind_ok ho, on_bind_ok ho']
      exact .inr (hP _ _ h).symm
    | returned v => cases hflow
  | ended h =>
    obtain ⟨v, m₁, m₁', rfl, rfl, h⟩ := h
    rw [Run.andThen, Run.andThen, Run.andThen, on_bind_ok ho, on_bind_ok ho, on_bind_ok ho']
    exact .inr (hP _ _ h).symm

/-- The call of the entry function and all that follows it, the call until it returns, and the body
of the entry function with what follows it in the entry routine. -/
theorem printsUntil_callEntry (hmain : p.entryFunction? = some main) (hp : p.Parted main)
    {m m' : Memory V H} (hm : LinkedBefore p m m') :
    PrintsUntil
      (((machine R n).callEntry.andThen ((machine R n).topBlock p.afterEntry)).on m)
      (((machine R n).callBare main).on m)
      ((((machine R n).block .module main.body).andThen
        ((machine R n).block .module (p.afterEntry.filter (!·.isFunction)))).on m') := by
  cases hfn : m.functions entryName with
  | none =>
    have hcall : (machine R n).callEntry.on m = (.error (.unbound entryName), m) := by
      rw [Machine.callEntry, on_get_bind, hfn]
      rfl
    rw [on_andThen_error hcall]
    exact .inl ⟨entryName, rfl⟩
  | some fn =>
    obtain rfl : fn = main := Option.some.inj ((hm.functions _ fn hfn).symm.trans hmain)
    have hcall := on_callEntry (M := machine R n) hfn hp.params
    have hbare := on_callBare (M := machine R n) (m := m) hp.params
    have huntil := mirrors_block_bare (machine R n) fn.own m.vars fn.body
      (rfl : { m with vars := fun _ => none } = { m with vars := fun _ => none })
    have hbody := mirrors_main R n hp m.vars (LinkedBefore.within hm fn)
    generalize ((machine R n).block (.call fn.own m.vars) fn.body).on
      { m with vars := fun _ => none } = o at huntil hcall
    generalize ((machine R n).block (.call fn.own m.vars) (Stmt.bareBlock fn.body)).on
      { m with vars := fun _ => none } = b at huntil hbody hbare
    generalize ho' : ((machine R n).block .module fn.body).on m' = o' at hbody
    rw [hbare]
    cases huntil with
    | unbound x m₁ =>
      rw [on_andThen_error hcall]
      exact .inl ⟨x, rfl⟩
    | @fault e m₁ _ heq =>
      rw [on_andThen_error hcall]
      cases hbody with
      | unbound x m₁ => exact .inl ⟨x, rfl⟩
      | fault e h =>
        rw [on_andThen_error ho', heq]
        exact .inr h.printed.symm
      | ended h =>
        obtain ⟨v, _, _, heq', -⟩ := h
        cases heq'
    | @value flow m₁ _ hflow heq =>
      subst heq
      cases hbody with
      | @value _ _ m₁' _ h =>
        cases flow with
        | next =>
          rw [on_andThen_next hcall, on_andThen_next ho']
          have hafter := (mirrors_after (R := R) (n := n) hp).printsAlike (fun _ _ h => h.printed)
            (LinkedWithin.after h hp.params hm.vars.1)
          exact hafter.imp_right Eq.symm
        | broke | continued =>
          rw [andThen, andThen, on_bind_ok hcall, on_bind_ok ho']
          exact .inr h.printed.symm
        | returned v => cases hflow
      | ended h =>
        obtain ⟨v, _, _, heq', -⟩ := h
        cases heq'
        cases hflow
    | ended h =>
      -- The entry routine ends where the function returns.
      obtain ⟨-, hreturns⟩ := h
      cases hbody with
      | unbound | fault => cases hreturns
      | value hflow _ => cases hflow.symm.trans hreturns
      | ended h =>
        obtain ⟨v, m₁, m₁', rfl, rfl, h⟩ := h
        have hstop : (((machine R n).block .module fn.body).on m').1 ≠ .ok .next := by
          rw [ho']
          intro hnext
          cases hnext
        rw [on_andThen_of_ne hstop, ho']
        exact .inr h.printed.symm

theorem top_entryCall (M : Machine V H) : M.top entryCall = M.callEntry := by
  rw [entryCall, Machine.top, if_pos (show (Expr.call entryName []).isEntryCall = true from rfl)]

theorem Parted.steady (hp : p.Parted main) (hmain : p.defined entryName = some main) :
    ∀ s ∈ p.started.unguarded, Steady R p.defined ((machine R n).top s) := by
  rw [unguarded_started, List.forall_mem_append, List.forall_mem_cons, top_entryCall]
  refine ⟨?_, ?_, ?_⟩
  · apply steady_top hp.closed
      (fun s hs => isGuard_of_mem_started (mem_started_of_mem_beforeEntry hs))
      (fun s hs => isEntryCall_of_mem_beforeEntry hs) hp.defs_before
    exact fun s hs => (hp.before s hs).mono (fun _ _ => trivial) fun _ hx => hx.1
  · apply steady_callEntry hp.closed
    intro fn hfn
    obtain rfl : fn = main := Option.some.inj (hfn.symm.trans hmain)
    exact hp.whole
  · apply steady_top hp.closed
      (fun s hs => isGuard_of_mem_started (mem_started_of_mem_afterEntry hs))
      hp.once hp.defs_after
    exact fun s hs => (hp.after s hs).mono (fun _ _ => trivial) fun _ hx => hx

/-- The run of a module, with its guards opened. -/
theorem moduleRun_started (hmain : p.entryFunction? = some main) (hs : p.Spliceable main)
    (hp : p.Parted main) (heap : H) :
    p.started.moduleRun R n heap =
      (((machine R n).topBlock p.beforeEntry).andThen
        ((machine R n).callEntry.andThen ((machine R n).topBlock p.afterEntry))).on
        (moduleStart R heap) := by
  have hguards : ∀ cond ∈ Stmt.guardsOf p.started, cond.testsMain = true := by
    rw [guardsOf_started]
    exact hs.guards
  have hstart : (moduleStart R heap).IsMain R p.defined := by
    refine ⟨update_self (fun _ => none) moduleName _, ?_⟩
    intro name fn hfn
    cases hfn
  rw [moduleRun, on_topBlock_unguard (M := machine R n) p.started hguards
    (hp.steady hmain) _ hstart, ← unguarded, unguarded_started, Machine.topBlock_append,
    Machine.topBlock, top_entryCall]

theorem linkedBefore_start (p : Program) (R : Runtime V H) (heap : H) :
    LinkedBefore p (moduleStart R heap) (p.entryStart heap) := by
  have hname : ∀ x v, (moduleStart R heap).vars x = some v → x = moduleName := by
    intro x v hv
    by_contra hne
    change update (fun _ => none) moduleName (R.str mainModule) x = some v at hv
    rw [update_of_ne hne] at hv
    cases hv
  refine ⟨rfl, rfl, ?_, rfl, ?_, ?_⟩
  · intro name fn hfn
    cases hfn
  · exact fun x v hv => .inl (hname x v hv)
  · intro x hx v hv
    exact absurd (hname x v hv) hx

/-- The entry routine prints what the module prints, until the entry function returns. -/
theorem printsUntil_entryRun (hmain : p.entryFunction? = some main) (hs : p.Spliceable main)
    (hp : p.Parted main) (heap : H) :
    PrintsUntil (p.started.moduleRun R n heap) (p.returnRun main R n heap)
      (p.entryRun R n heap) := by
  rw [moduleRun_started hmain hs hp, returnRun, entryRun, entryStatements_eq hmain hs.once,
    Machine.block_append, Machine.block_append]
  exact .andThen (mirrors_before R n hp) (fun _ _ h => h.printed)
    (fun m m' hm => printsUntil_callEntry hmain hp hm) (linkedBefore_start p R heap)

end

/-- An entry function that reads a variable of the module, binds one that the module has as well,
and returns what another function gives. That function is called once more after the return. -/
def returning : String :=
  "x = 2\ndef f():\n return 3\ndef main():\n t = x\n print(t)\n return f()\n" ++
    "if '__main__' == __name__:\n t = 1\n main()\n f()\n"

/-- Sources, each with what the module prints and with what the entry routine prints. -/
def misplaced : List (String × List String × List String) :=
  -- A return ends the entry routine, and its value is not evaluated.
  [("def main():\n return\nmain()\nprint(1)\n", ["1"], []),
    ("def f():\n print(1)\n return 2\ndef main():\n return f()\nmain()\n", ["1"], []),
    -- The entry function and the module share their variables.
    ("x = 1\ndef main():\n x = 2\nmain()\nprint(x)\n", ["1"], ["2"]),
    ("x = 1\ndef main():\n print(x)\n x = 2\nmain()\n", [], ["1"]),
    -- The first entry function runs once, wherever it is defined and whether or not it is called.
    ("def main():\n print(1)\nmain()\nmain()\n", ["1", "1"], ["1"]),
    ("def main():\n print(1)\n", [], ["1"]),
    ("def main():\n print(1)\ndef main():\n print(2)\nmain()\n", ["2"], ["1"]),
    -- Guards are not evaluated.
    ("def main():\n print(1)\nif __name__ == 'other':\n main()\n", [], ["1"]),
    ("__name__ = 'other'\ndef main():\n print(1)\nif __name__ == '__main__':\n main()\n", [],
      ["1"])]

/-- Whether a source is compiled, and what it prints as a module and as an entry routine. -/
def prints (source : String) (inModule inEntry : List String) : Bool :=
  (compile source).toBool &&
    (readSource source).toOption.any fun p =>
      (p.moduleRun scalars 9 ()).2.printed = inModule &&
        (p.entryRun scalars 9 ()).2.printed = inEntry

end Program

end Braces
