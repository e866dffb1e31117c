import Braces.Proofs.Emission.Within
import Braces.Proofs.WellScoped

/-!
# Which stores are checked

A value fits a slot if the type of the slot accepts its type. In an accepted source every assigned
value, every argument, every result and every bound of a loop over a range was checked against its
slot. What no check looks at is what a loop stores into its variable and the arguments of a range
that is a value. So all stores of an accepted source fit exactly if those two kinds do.
-/

namespace Braces

namespace Frame

/-- Assigned values fit their variables. -/
def AssignedFit (f : Frame) (body : List Stmt) : Prop :=
  ∀ name value, Stmt.assign name value ∈ Stmt.withinBlock body →
    (f.varTy name).accepts (f.typeOf value) = true

/-- Arguments fit the parameters of the function that is called, of which there are as many. -/
def PassedFit (f : Frame) (body : List Stmt) : Prop :=
  ∀ callee args, callee ≠ Expr.strName →
    Expr.call callee args ∈ Stmt.evaluatedNodes f.routine body →
      ∃ s, f.table.signature? callee = some s ∧ s.params.length = args.length ∧
        ∀ (i : Nat) (q : Param) (arg : Expr), s.params[i]? = some q → args[i]? = some arg →
          q.ty.accepts (f.typeOf arg) = true

/-- The type of what the routine returns. -/
def resultTy (f : Frame) : Ty := ((f.table.signature? f.routine).map (·.result)).getD .void

/-- Results fit the result type of the routine. The entry routine returns none. -/
def ReturnedFit (f : Frame) (body : List Stmt) : Prop :=
  f.routine ≠ entryName → ∀ value, Stmt.ret (some value) ∈ Stmt.withinBlock body →
    f.resultTy.accepts (f.typeOf value) = true

/-- Elements fit the variables of loops. -/
def LoopedFit (f : Frame) (body : List Stmt) : Prop :=
  ∀ name iterable block, Stmt.forLoop name iterable block ∈ Stmt.withinBlock body →
    (f.varTy name).accepts (Visit.elementTy (f.typeOf iterable)) = true

/-- The bounds and the step of a range count. -/
def Counts (f : Frame) (start : Expr) (stop step : Option Expr) : Prop :=
  ∀ e ∈ Expr.bounds start stop step, (f.typeOf e).isCount = true

/-- The ranges that loops count over have bounds and steps that count. -/
def HeadRangesFit (f : Frame) (body : List Stmt) : Prop :=
  ∀ name start stop step block,
    Stmt.forLoop name (.range start stop step) block ∈ Stmt.withinBlock body →
      f.Counts start stop step

/-- The ranges that are values have bounds and steps that count. -/
def ValueRangesFit (f : Frame) (body : List Stmt) : Prop :=
  ∀ start stop step, Expr.range start stop step ∈ Stmt.evaluatedNodes f.routine body →
    f.Counts start stop step

/-- Everything that a body stores fits its slot. -/
structure SlotsFit (f : Frame) (body : List Stmt) : Prop where
  assigned : f.AssignedFit body
  looped : f.LoopedFit body
  passed : f.PassedFit body
  returned : f.ReturnedFit body
  headRanges : f.HeadRangesFit body
  valueRanges : f.ValueRangesFit body

variable {f : Frame}

/-! ## Checks -/

theorem accepts_of_checkSlot {slot : Slot} {expected found : Ty}
    (h : checkSlot slot expected found = .ok ()) : expected.accepts found = true := by
  unfold checkSlot at h
  split at h
  · next ha => exact ha
  · cases h

theorem isCount_of_checkCount {slot : Slot} {found : Ty} {u : Unit}
    (h : checkCount slot found = .ok u) : found.isCount = true := by
  unfold checkCount at h
  split at h
  · next hc => exact hc
  · cases h

theorem EmitsArgs.accepts {name : String} {ps : List Param} {args : List Expr}
    {cs : List Cpp.Expr} (h : f.EmitsArgs name ps args cs) :
    ∀ (i : Nat) (q : Param) (arg : Expr), ps[i]? = some q → args[i]? = some arg →
      q.ty.accepts (f.typeOf arg) = true := by
  induction args generalizing ps cs with
  | nil => simp
  | cons arg args ih =>
    cases h with
    | surplus => simp
    | next hslot _ hargs =>
      intro i q a hq ha
      cases i with
      | zero =>
        cases hq
        cases ha
        exact accepts_of_checkSlot hslot
      | succ i => exact ih hargs i q a hq ha

/-- A call that is emitted has arguments that fit. -/
theorem Emits.passedFit {callee : String} {args : List Expr} {c : Cpp.Expr}
    (hne : callee ≠ Expr.strName) (h : f.Emits (.call callee args) c) :
    ∃ s, f.table.signature? callee = some s ∧ s.params.length = args.length ∧
      ∀ (i : Nat) (q : Param) (arg : Expr), s.params[i]? = some q → args[i]? = some arg →
        q.ty.accepts (f.typeOf arg) = true := by
  cases h with
  | emptyText => exact absurd rfl hne
  | text _ => exact absurd rfl hne
  | call _ hps hargs =>
    obtain ⟨s, hs, rfl, hlen⟩ := length_of_calleeParams hps
    exact ⟨s, hs, hlen, hargs.accepts⟩

theorem counts_of_rangeHead {st st₁ : Progress} {name : String} {start stop : Expr}
    {step : Option Expr} {assigned : List String} {head : LoopHead} {first : List Cpp.Stmt}
    (h : f.rangeHead st name start stop step assigned = .ok (head, first, st₁)) :
    ∀ e ∈ start :: stop :: step.toList, (f.typeOf e).isCount = true := by
  unfold rangeHead at h
  obtain ⟨_, hstart, h⟩ := exists_of_bind_eq_ok h
  obtain ⟨_, hstop, h⟩ := exists_of_bind_eq_ok h
  obtain ⟨_, hstep, -⟩ := exists_of_bind_eq_ok h
  intro e he
  rcases List.mem_cons.1 he with rfl | he
  · exact isCount_of_checkCount hstart
  rcases List.mem_cons.1 he with rfl | he
  · exact isCount_of_checkCount hstop
  · cases step with
    | none => cases he
    | some step =>
      obtain rfl := List.mem_singleton.1 he
      exact isCount_of_checkCount hstep

/-- The range of a loop was checked, whether or not it names its start. -/
theorem counts_of_loopHead {st st₁ : Progress} {name : String} {start : Expr}
    {stop step : Option Expr} {assigned : List String} {head : LoopHead} {first : List Cpp.Stmt}
    (h : f.loopHead st name (.range start stop step) assigned = .ok (head, first, st₁)) :
    f.Counts start stop step := by
  intro e he
  cases stop with
  | some stop => exact counts_of_rangeHead h e he
  | none => exact counts_of_rangeHead h e (List.mem_cons_of_mem _ he)

/-! ## Bodies -/

section
variable {inLoop : Bool} {st st' : Progress} {body : List Stmt} {cs : List Cpp.Stmt}

theorem EmitsBlock.assignedFit (h : f.EmitsBlock inLoop st body cs st') : f.AssignedFit body := by
  intro name value hmem
  obtain ⟨_, _, _, _, hs⟩ := h.somewhere_of_within _ hmem
  cases hs with
  | store hslot _ _ => exact accepts_of_checkSlot hslot
  | declare hslot _ _ => exact accepts_of_checkSlot hslot

theorem EmitsBlock.passedFit (h : f.EmitsBlock inLoop st body cs st') : f.PassedFit body := by
  intro callee args hne hmem
  obtain ⟨c, hc⟩ := h.exists_of_evaluatedNodes _ hmem
  exact hc.passedFit hne

theorem EmitsBlock.returnedFit (h : f.EmitsBlock inLoop st body cs st') : f.ReturnedFit body := by
  intro hentry value hmem
  obtain ⟨_, _, _, _, hs⟩ := h.somewhere_of_within _ hmem
  cases hs with
  | ret hc =>
    rw [ret, if_neg hentry] at hc
    obtain ⟨_, hslot, -⟩ := exists_of_bind_eq_ok hc
    exact accepts_of_checkSlot hslot

theorem EmitsBlock.headRangesFit (h : f.EmitsBlock inLoop st body cs st') :
    f.HeadRangesFit body := by
  intro name start stop step block hmem
  obtain ⟨_, _, _, _, hs⟩ := h.somewhere_of_within _ hmem
  cases hs with
  | freshLoop hhead _ _ => exact counts_of_loopHead hhead
  | loop hhead _ _ => exact counts_of_loopHead hhead

end

end Frame

/-! ## Programs -/

theorem exists_of_mem_mapM {ε α β : Type} {g : α → Except ε β} {l : List α} {l' : List β}
    (h : l.mapM g = .ok l') {a : α} (ha : a ∈ l) : ∃ b ∈ l', g a = .ok b := by
  induction l generalizing l' with
  | nil => cases ha
  | cons a' l ih =>
    obtain ⟨b, bs, rfl, hb, hbs⟩ := exists_of_mapM_cons h
    rcases List.mem_cons.1 ha with rfl | ha
    · exact ⟨b, List.mem_cons_self, hb⟩
    · obtain ⟨b', hb', hg⟩ := ih hbs ha
      exact ⟨b', List.mem_cons_of_mem _ hb', hg⟩

/-- Every routine of an emitted program is emitted from its body. -/
theorem Program.exists_emitsBlock {p : Program} {t : Table} {u : Cpp.Unit} (h : p.emit t = .ok u)
    {w : String × List Stmt} (hw : w ∈ p.walks) :
    ∃ st cs st', Frame.EmitsBlock ⟨t, w.1⟩ false st w.2 cs st' := by
  obtain ⟨routines, hroutines, h⟩ := exists_of_bind_eq_ok h
  obtain ⟨entry, hentry, -⟩ := exists_of_bind_eq_ok h
  rcases List.mem_append.1 hw with hw | hw
  · obtain ⟨fn, hfn, rfl⟩ := List.mem_map.1 hw
    obtain ⟨r, -, hr⟩ := exists_of_mem_mapM hroutines hfn
    obtain ⟨cs, st', hblock, -⟩ := Frame.exists_block_of_body (emitFunction_ok hr).2
    exact ⟨_, cs, st', Frame.emits_of_block hblock⟩
  · obtain rfl := List.mem_singleton.1 hw
    obtain ⟨body, hbody, -⟩ := exists_of_bind_eq_ok hentry
    obtain ⟨cs, st', hblock, -⟩ := Frame.exists_block_of_body hbody
    exact ⟨_, cs, st', Frame.emits_of_block hblock⟩

/-- In an accepted source, assigned values, arguments, results and the ranges of loops fit their
slots. All stores of a routine do exactly if also the elements fit the variables of its loops and
the ranges that are values have arguments that count. -/
theorem slotsFit_iff {source text : String} (h : compile source = .ok text) :
    ∃ p t, readSource source = .ok p ∧ p.infer = .ok t ∧ ∀ w ∈ p.walks,
      (Frame.AssignedFit ⟨t, w.1⟩ w.2 ∧ Frame.PassedFit ⟨t, w.1⟩ w.2 ∧
        Frame.ReturnedFit ⟨t, w.1⟩ w.2 ∧ Frame.HeadRangesFit ⟨t, w.1⟩ w.2) ∧
      (Frame.SlotsFit ⟨t, w.1⟩ w.2 ↔
        Frame.LoopedFit ⟨t, w.1⟩ w.2 ∧ Frame.ValueRangesFit ⟨t, w.1⟩ w.2) := by
  obtain ⟨p, t, u, hp, ht, hemit, -⟩ := exists_of_compile h
  refine ⟨p, t, hp, ht, fun w hw => ?_⟩
  obtain ⟨st, cs, st', hblock⟩ := Program.exists_emitsBlock hemit hw
  refine ⟨⟨hblock.assignedFit, hblock.passedFit, hblock.returnedFit, hblock.headRangesFit⟩,
    fun hfit => ⟨hfit.looped, hfit.valueRanges⟩, fun ⟨hlooped, hranges⟩ => ?_⟩
  exact ⟨hblock.assignedFit, hlooped, hblock.passedFit, hblock.returnedFit, hblock.headRangesFit,
    hranges⟩

/-- A loop that counts in a variable that holds text, and a range from a text. -/
def unfitting : String := "x = \"s\"\nfor x in range(3):\n print(x)\ny = range(\"a\")\n"

theorem slotsFit_iff_unfitting :
    ∃ p t, readSource unfitting = .ok p ∧ p.infer = .ok t ∧
      (Frame.AssignedFit ⟨t, entryName⟩ p.entryStatements ∧
        Frame.PassedFit ⟨t, entryName⟩ p.entryStatements ∧
        Frame.ReturnedFit ⟨t, entryName⟩ p.entryStatements ∧
        Frame.HeadRangesFit ⟨t, entryName⟩ p.entryStatements) ∧
      ¬Frame.SlotsFit ⟨t, entryName⟩ p.entryStatements := by
  have hok : (compile unfitting).toBool = true := by decide +kernel
  have hunfit : (readSource unfitting).toOption.bind (fun p => p.infer.toOption.map fun t =>
      (Stmt.withinBlock p.entryStatements).any fun
        | .forLoop name iterable _ =>
          !(Frame.varTy ⟨t, entryName⟩ name).accepts
            (Visit.elementTy (Frame.typeOf ⟨t, entryName⟩ iterable))
        | _ => false) = some true := by decide +kernel
  obtain ⟨text, h⟩ := exists_of_toBool hok
  obtain ⟨p, t, hp, ht, hall⟩ := slotsFit_iff h
  have hmem : (entryName, p.entryStatements) ∈ p.walks :=
    List.mem_append_right _ List.mem_cons_self
  obtain ⟨hchecked, hiff⟩ := hall _ hmem
  refine ⟨p, t, hp, ht, hchecked, fun hfit => ?_⟩
  simp only [hp, ht, Except.toOption, Option.bind_some, Option.map_some, Option.some.injEq,
    List.any_eq_true] at hunfit
  obtain ⟨s, hs, hloop⟩ := hunfit
  split at hloop
  · rw [(hiff.1 hfit).1 _ _ _ hs] at hloop
    cases hloop
  · cases hloop

end Braces
