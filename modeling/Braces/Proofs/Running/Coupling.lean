import Braces.Proofs.Running.Machine
import Braces.Proofs.WellShaped

/-!
# Two runs side by side

The same statements are run in two places, where the second may know more names than the first. As
long as each name that is read has the same value in the second place as in the first, both runs do
the same: they end the same way and print the same. The first run may also read a name without a
value, and then nothing is said of the second.
-/

namespace Braces

variable {V H α β : Type}

/-- What comes of a run. -/
abbrev Result (V H α : Type) := Except Fault α × Memory V H

namespace Run

open Attempt

theorem on_operate_some {f : H → Option (α × H)} {m : Memory V H} {a : α} {h : H}
    (hf : f m.heap = some (a, h)) : (operate f).on m = (.ok a, { m with heap := h }) := by
  rw [operate, on_get_bind, hf]
  rfl

theorem on_operate_none {f : H → Option (α × H)} {m : Memory V H} (hf : f m.heap = none) :
    (operate f).on m = (.error .raised, m) := by
  rw [operate, on_get_bind, hf]
  rfl

theorem on_read_some {r : Region V} {m : Memory V H} {x : String} {v : V}
    (h : r.lookup m.vars x = some v) : (read r x).on m = (.ok v, m) := by
  rw [read, on_get_bind, h]
  rfl

theorem on_read_none {r : Region V} {m : Memory V H} {x : String} (h : r.lookup m.vars x = none) :
    (read r x).on m = (.error (.unbound x), m) := by
  rw [read, on_get_bind, h]
  rfl

theorem update_self (vars : String → Option V) (x : String) (v : V) : update vars x v x = some v :=
  if_pos rfl

theorem update_of_ne {x y : String} (h : y ≠ x) (vars : String → Option V) (v : V) :
    update vars x v y = vars y :=
  if_neg h

end Run

open Attempt Run

/-! ## Results that agree -/

/-- Two results agree: both come to one value, of which `G` holds, or to one fault, in memories that
`P` relates. Otherwise `E` relates them, or the first run read a name without a value. -/
inductive Accord (P : Memory V H → Memory V H → Prop) (G : α → Prop)
    (E : Result V H α → Result V H α → Prop) : Result V H α → Result V H α → Prop
  | unbound (x : String) (m : Memory V H) (o : Result V H α) :
      Accord P G E (.error (.unbound x), m) o
  | fault (e : Fault) {m m' : Memory V H} : P m m' → Accord P G E (.error e, m) (.error e, m')
  | value {a : α} {m m' : Memory V H} : G a → P m m' → Accord P G E (.ok a, m) (.ok a, m')
  | ended {o o' : Result V H α} : E o o' → Accord P G E o o'

theorem Accord.mono {P Q : Memory V H → Memory V H → Prop} {G : α → Prop}
    {E : Result V H α → Result V H α → Prop} {o o' : Result V H α} (h : Accord P G E o o')
    (hPQ : ∀ m m', P m m' → Q m m') : Accord Q G E o o' := by
  cases h with
  | unbound => exact .unbound ..
  | fault e h => exact .fault e (hPQ _ _ h)
  | value ha h => exact .value ha (hPQ _ _ h)
  | ended h => exact .ended h

/-- Run on related memories, two computations agree. -/
def Accords (P : Memory V H → Memory V H → Prop) (G : α → Prop)
    (E : Result V H α → Result V H α → Prop) (x y : Run V H α) : Prop :=
  ∀ ⦃m m'⦄, P m m' → Accord P G E (x.on m) (y.on m')

/-- Two computations agree on their values. -/
abbrev Tracks (P : Memory V H → Memory V H → Prop) (x y : Run V H α) : Prop :=
  Accords P (fun _ => True) (fun _ _ => False) x y

/-- Whether a statement returned. -/
def Flow.isReturn : Flow V → Bool
  | .returned _ => true
  | _ => false

/-- A result after which a routine does nothing more. -/
def Result.Ends (o : Result V H (Flow V)) : Prop := ∀ flow, o.1 = .ok flow → flow.isReturn = true

/-- What two routines may end with. -/
structure Ending (V H : Type) where
  rel : Result V H (Flow V) → Result V H (Flow V) → Prop
  ends : ∀ {o o'}, rel o o' → Result.Ends o ∧ Result.Ends o'

/-- Two statements agree on how they end, but for returns, which `E` relates. -/
abbrev Mirrors (P : Memory V H → Memory V H → Prop) (E : Ending V H)
    (x y : Run V H (Flow V)) : Prop :=
  Accords P (·.isReturn = false) E.rel x y

section
variable {P : Memory V H → Memory V H → Prop} {G : α → Prop}
  {E : Result V H α → Result V H α → Prop}

namespace Accords

theorem pure {a : α} (ha : G a) : Accords P G E (Pure.pure a) (Pure.pure a) := by
  intro m m' h
  exact .value ha h

theorem throw (e : Fault) : Accords P G E (MonadExcept.throw e) (MonadExcept.throw e) := by
  intro m m' h
  exact .fault e h

theorem bind {x y : Run V H β} {f g : β → Run V H α} (hx : Tracks P x y)
    (hf : ∀ a, Accords P G E (f a) (g a)) : Accords P G E (x >>= f) (y >>= g) := by
  intro m m' h
  have hxm := hx h
  generalize ho : x.on m = o at hxm
  generalize ho' : y.on m' = o' at hxm
  cases hxm with
  | unbound =>
    rw [on_bind_error ho]
    exact .unbound ..
  | fault e h =>
    rw [on_bind_error ho, on_bind_error ho']
    exact .fault e h
  | value _ h =>
    rw [on_bind_ok ho, on_bind_ok ho']
    exact hf _ h
  | ended h => exact h.elim

theorem ite {c : Prop} [Decidable c] {x x' y y' : Run V H α} (hx : Accords P G E x y)
    (hx' : Accords P G E x' y') : Accords P G E (if c then x else x') (if c then y else y') := by
  split
  · exact hx
  · exact hx'

end Accords

end

/-! ## Blocks and loops -/

section
variable {P : Memory V H → Memory V H → Prop} {E : Ending V H}

/-- What follows a result that ends a routine does not change it. -/
theorem on_bind_of_ends {x : Run V H (Flow V)} {f : Flow V → Run V H (Flow V)} {m : Memory V H}
    (hf : ∀ v, f (.returned v) = Pure.pure (.returned v)) (h : Result.Ends (x.on m)) :
    (x >>= f).on m = x.on m := by
  generalize ho : x.on m = o at h
  obtain ⟨result, m₁⟩ := o
  cases result with
  | error e => exact on_bind_error ho
  | ok flow =>
    have hflow := h flow rfl
    cases flow with
    | returned v =>
      rw [on_bind_ok ho, hf]
      rfl
    | _ => cases hflow

/-- Goes on after a statement in both runs, if returns are passed on. -/
theorem Mirrors.sequence {x y : Run V H (Flow V)} {f g : Flow V → Run V H (Flow V)}
    (hx : Mirrors P E x y) (hf : ∀ v, f (.returned v) = Pure.pure (.returned v))
    (hg : ∀ v, g (.returned v) = Pure.pure (.returned v))
    (hfg : ∀ flow, flow.isReturn = false → Mirrors P E (f flow) (g flow)) :
    Mirrors P E (x >>= f) (y >>= g) := by
  intro m m' h
  have hxm := hx h
  generalize ho : x.on m = o at hxm
  generalize ho' : y.on m' = o' at hxm
  cases hxm with
  | unbound =>
    rw [on_bind_error ho]
    exact .unbound ..
  | fault e h =>
    rw [on_bind_error ho, on_bind_error ho']
    exact .fault e h
  | value hflow h =>
    rw [on_bind_ok ho, on_bind_ok ho']
    exact hfg _ hflow h
  | ended h =>
    obtain ⟨hends, hends'⟩ := E.ends h
    rw [on_bind_of_ends hf (by rwa [ho]), on_bind_of_ends hg (by rwa [ho']), ho, ho']
    exact .ended h

theorem Mirrors.andThen {x y x' y' : Run V H (Flow V)} (hx : Mirrors P E x y)
    (hx' : Mirrors P E x' y') : Mirrors P E (x.andThen x') (y.andThen y') := by
  refine hx.sequence (fun _ => rfl) (fun _ => rfl) ?_
  intro flow hflow
  cases flow with
  | next => exact hx'
  | broke | continued => exact .pure rfl
  | returned v => cases hflow

theorem Mirrors.cycle {enter enter' : Nat → Run V H Bool} {body body' : Run V H (Flow V)}
    (henter : ∀ i, Tracks P (enter i) (enter' i)) (hbody : Mirrors P E body body') :
    ∀ passes i, Mirrors P E (cycle enter body passes i) (cycle enter' body' passes i) := by
  intro passes
  induction passes with
  | zero =>
    intro i
    exact .throw .exhausted
  | succ passes ih =>
    intro i
    refine Accords.bind (henter i) fun entered => Accords.ite ?_ (.pure rfl)
    refine hbody.sequence (fun _ => rfl) (fun _ => rfl) ?_
    intro flow hflow
    cases flow with
    | broke => exact .pure rfl
    | next | continued => exact ih (i + 1)
    | returned v => cases hflow

end

/-! ## Memories that are linked -/

/-- Two memories hold the same but for their variables, which `W` relates. The second has the
functions `F`, and those of the first are among them. -/
structure Linked (F : String → Option Function)
    (W : (String → Option V) → (String → Option V) → Prop) (m m' : Memory V H) : Prop where
  heap : m.heap = m'.heap
  printed : m.printed = m'.printed
  functions : ∀ name fn, m.functions name = some fn → F name = some fn
  table : m'.functions = F
  vars : W m.vars m'.vars

section
variable {F : String → Option Function} {W : (String → Option V) → (String → Option V) → Prop}
  {r r' : Region V}
  {x : String}

theorem tracks_operate (f : H → Option (α × H)) :
    Tracks (Linked F W) (operate (V := V) f) (operate f) := by
  intro m m' h
  cases hf : f m.heap with
  | none =>
    have hf' : f m'.heap = none := by rw [← h.heap, hf]
    rw [on_operate_none hf, on_operate_none hf']
    exact .fault .raised h
  | some result =>
    have hf' : f m'.heap = some result := by rw [← h.heap, hf]
    rw [on_operate_some hf, on_operate_some hf']
    exact .value trivial ⟨rfl, h.printed, h.functions, h.table, h.vars⟩

theorem tracks_observe (f : H → α) : Tracks (Linked F W) (observe (V := V) f) (observe f) :=
  tracks_operate _

theorem tracks_print (line : String) :
    Tracks (Linked (V := V) (H := H) F W) (print line) (print line) := by
  intro m m' h
  have hprinted : m.printed ++ [line] = m'.printed ++ [line] := by rw [h.printed]
  exact .value trivial ⟨h.heap, hprinted, h.functions, h.table, h.vars⟩

theorem tracks_read (hx : ∀ vars vars' v, W vars vars' → r.lookup vars x = some v →
    r'.lookup vars' x = some v) : Tracks (Linked (H := H) F W) (read r x) (read r' x) := by
  intro m m' h
  cases hv : r.lookup m.vars x with
  | none =>
    rw [on_read_none hv]
    exact .unbound ..
  | some v =>
    rw [on_read_some hv, on_read_some (hx _ _ _ h.vars hv)]
    exact .value trivial h

theorem tracks_write {v : V}
    (hx : ∀ vars vars', W vars vars' → W (update vars x v) (update vars' x v)) :
    Tracks (Linked (H := H) F W) (write x v) (write x v) := by
  intro m m' h
  exact .value trivial ⟨h.heap, h.printed, h.functions, h.table, hx _ _ h.vars⟩

end

/-! ## Expressions -/

/-- What an expression itself may do: read the names that can be seen, and call functions other than
the entry function. -/
def Expr.Meets (vis : String → Prop) : Expr → Prop
  | .var x => vis x
  | .call name _ => name ≠ entryName
  | _ => True

theorem Expr.Meets.mono {vis vis' : String → Prop} {e : Expr} (h : e.Meets vis)
    (hvis : ∀ x, vis x → vis' x) : e.Meets vis' := by
  cases e with
  | var x => exact hvis x h
  | call name args => exact h
  | _ => trivial

/-- Two memories hold the same but for their variables, which are given. -/
abbrev Pinned (F : String → Option Function) (vars vars' : String → Option V) :
    Memory V H → Memory V H → Prop :=
  Linked F fun w w' => w = vars ∧ w' = vars'

/-- A call does the same wherever it is made from, and leaves the caller's variables alone. -/
def Machine.Handles (F : String → Option Function) (M : Machine V H) : Prop :=
  ∀ name, name ≠ entryName → ∀ outer outer' args vars vars',
    Tracks (Pinned F vars vars') (M.call outer name args) (M.call outer' name args)

/-- Two regions can be run side by side: what can be seen in the first has the same value in the
second, also after writes to own names. -/
structure Coupling (F : String → Option Function) (M : Machine V H) (r r' : Region V)
    (W : (String → Option V) → (String → Option V) → Prop) (vis own : String → Prop) : Prop where
  reads : ∀ x, vis x → ∀ vars vars' v, W vars vars' → r.lookup vars x = some v →
    r'.lookup vars' x = some v
  writes : ∀ x, own x → ∀ vars vars' v, W vars vars' → W (update vars x v) (update vars' x v)
  calls : M.Handles F

namespace Coupling

variable {F : String → Option Function} {M : Machine V H} {r r' : Region V}
  {W : (String → Option V) → (String → Option V) → Prop} {vis own : String → Prop}

theorem callFrom (h : Coupling F M r r' W vis own) {name : String} (hname : name ≠ entryName)
    (args : List V) : Tracks (Linked F W) (M.callFrom r name args) (M.callFrom r' name args) := by
  intro m m' hm
  rw [Machine.callFrom, Machine.callFrom, on_get_bind, on_get_bind]
  have hpinned : Pinned F m.vars m'.vars m m' :=
    ⟨hm.heap, hm.printed, hm.functions, hm.table, rfl, rfl⟩
  have hcall := h.calls name hname (r.globals m.vars) (r'.globals m'.vars) args _ _ hpinned
  refine hcall.mono fun m₁ m₁' hm₁ => ⟨hm₁.heap, hm₁.printed, hm₁.functions, hm₁.table, ?_⟩
  rw [hm₁.vars.1, hm₁.vars.2]
  exact hm.vars

theorem toText (vs : List V) : Tracks (Linked F W) (M.toText vs) (M.toText vs) := by
  match vs with
  | [] => exact .pure trivial
  | [v] => exact .bind (tracks_observe _) fun _ => .pure trivial
  | _ :: _ :: _ => exact .throw .raised

mutual

/-- An expression has the same value in both regions. -/
theorem eval (h : Coupling F M r r' W vis own) : ∀ e : Expr, (∀ e' ∈ e.parts, e'.Meets vis) →
    Tracks (Linked F W) (M.eval r e) (M.eval r' e)
  | .int _, _ | .float _, _ | .str _, _ | .bool _, _ => by
    rw [Machine.eval, Machine.eval]
    exact .pure trivial
  | .var x, hmeets => by
    rw [Machine.eval, Machine.eval]
    exact tracks_read (h.reads x (hmeets _ (Expr.mem_parts_self _)))
  | .binary op left right, hmeets => by
    have hleft := h.eval left fun e he => hmeets e (by simp [Expr.parts, he])
    have hright := h.eval right fun e he => hmeets e (by simp [Expr.parts, he])
    rw [Machine.eval, Machine.eval]
    refine .bind hleft fun v => .ite ?_ ?_
    · exact .bind (tracks_observe _) fun _ => .ite (.pure trivial) hright
    · exact .bind hright fun w => tracks_operate _
  | .unary op operand, hmeets => by
    have hoperand := h.eval operand fun e he => hmeets e (by simp [Expr.parts, he])
    rw [Machine.eval, Machine.eval]
    refine .bind hoperand fun v => .ite ?_ (tracks_operate _)
    exact .bind (tracks_observe _) fun _ => .pure trivial
  | .list elements, hmeets => by
    have helements := h.evalAll elements fun e he => hmeets e (by simp [Expr.parts, he])
    rw [Machine.eval, Machine.eval]
    exact .bind helements fun _ => tracks_operate _
  | .index target position, hmeets => by
    have htarget := h.eval target fun e he => hmeets e (by simp [Expr.parts, he])
    have hposition := h.eval position fun e he => hmeets e (by simp [Expr.parts, he])
    rw [Machine.eval, Machine.eval]
    exact .bind htarget fun _ => .bind hposition fun _ => tracks_operate _
  | .call name args, hmeets => by
    have hname : name ≠ entryName := hmeets _ (Expr.mem_parts_self _)
    have hargs := h.evalAll args fun e he => hmeets e (by simp [Expr.parts, he])
    rw [Machine.eval, Machine.eval]
    exact .bind hargs fun vs => .ite (toText vs) (h.callFrom hname vs)
  | .len operand, hmeets => by
    have hoperand := h.eval operand fun e he => hmeets e (by simp [Expr.parts, he])
    rw [Machine.eval, Machine.eval]
    exact .bind hoperand fun _ => tracks_operate _
  | .range start stop step, hmeets => by
    have hstart := h.eval start fun e he => hmeets e (by simp [Expr.parts, he])
    have hstop := h.evalOption stop fun e he => hmeets e (by simp [Expr.parts, he])
    have hstep := h.evalOption step fun e he => hmeets e (by simp [Expr.parts, he])
    rw [Machine.eval, Machine.eval]
    refine .bind hstart fun a => .bind hstop fun b? => .bind hstep fun _ => ?_
    cases b? with
    | none => exact tracks_operate _
    | some b => exact tracks_operate _

theorem evalAll (h : Coupling F M r r' W vis own) : ∀ es : List Expr,
    (∀ e ∈ Expr.partsOf es, e.Meets vis) → Tracks (Linked F W) (M.evalAll r es) (M.evalAll r' es)
  | [], _ => by
    rw [Machine.evalAll, Machine.evalAll]
    exact .pure trivial
  | e :: es, hmeets => by
    have he := h.eval e fun e he => hmeets e (by simp [Expr.partsOf, he])
    have hes := h.evalAll es fun e he => hmeets e (by simp [Expr.partsOf, he])
    rw [Machine.evalAll, Machine.evalAll]
    exact .bind he fun v => .bind hes fun vs => .pure trivial

theorem evalOption (h : Coupling F M r r' W vis own) : ∀ e : Option Expr,
    (∀ e' ∈ Expr.partsOfOption e, e'.Meets vis) →
    Tracks (Linked F W) (M.evalOption r e) (M.evalOption r' e)
  | none, _ => by
    rw [Machine.evalOption, Machine.evalOption]
    exact .pure trivial
  | some e, hmeets => by
    have he := h.eval e hmeets
    rw [Machine.evalOption, Machine.evalOption]
    exact .bind he fun _ => .pure trivial

end

end Coupling

/-! ## Statements -/

/-- What a statement itself may do: bind own names, define no function, and evaluate what can be
seen. What it returns is left open. -/
structure Stmt.Meets (vis own : String → Prop) (s : Stmt) : Prop where
  binds : ∀ x, s.target? = some x → own x
  flat : s.isFunction = false
  reads : s.isReturn = false → ∀ e ∈ s.operands, ∀ e' ∈ e.parts, e'.Meets vis

theorem Stmt.Meets.mono {vis vis' own own' : String → Prop} {s : Stmt} (h : s.Meets vis own)
    (hvis : ∀ x, vis x → vis' x) (hown : ∀ x, own x → own' x) : s.Meets vis' own' where
  binds x hx := hown x (h.binds x hx)
  flat := h.flat
  reads hs e he e' he' := (h.reads hs e he e' he').mono hvis

namespace Coupling

variable {F : String → Option Function} {M : Machine V H} {r r' : Region V}
  {W : (String → Option V) → (String → Option V) → Prop} {vis own : String → Prop}
  {E : Ending V H}

theorem takeNext (h : Coupling F M r r' W vis own) {x : String} (hx : own x) (v : V) (i : Nat) :
    Tracks (Linked F W) (M.takeNext x v i) (M.takeNext x v i) := by
  refine .bind (tracks_operate _) fun item => ?_
  cases item with
  | none => exact .pure trivial
  | some w =>
    refine .bind (tracks_write fun vars vars' => h.writes x hx vars vars' w) fun _ => ?_
    exact .pure trivial

/-- A statement may be run in both regions, and returns alike as `E` says. -/
def Suits (F : String → Option Function) (M : Machine V H) (r r' : Region V)
    (W : (String → Option V) → (String → Option V) → Prop) (vis own : String → Prop)
    (E : Ending V H) (s : Stmt) : Prop :=
  s.Meets vis own ∧
    ∀ value, s = .ret value → Mirrors (Linked F W) E (M.ret r value) (M.ret r' value)

mutual

/-- A statement does the same in both regions. -/
theorem exec (h : Coupling F M r r' W vis own) : ∀ s : Stmt,
    (∀ s' ∈ s.within, Suits F M r r' W vis own E s') →
    Mirrors (Linked F W) E (M.exec r s) (M.exec r' s)
  | .assign x value, hs => by
    have hmeets := (hs _ (Stmt.within_self _)).1
    have hvalue := h.eval value (hmeets.reads rfl value List.mem_cons_self)
    have hx := h.writes x (hmeets.binds x rfl)
    rw [Machine.exec, Machine.exec]
    refine Accords.bind hvalue fun v => Accords.bind ?_ fun _ => .pure rfl
    exact tracks_write fun vars vars' => hx vars vars' v
  | .assignAt target position value, hs => by
    have hreads := (hs _ (Stmt.within_self _)).1.reads rfl
    have htarget := h.eval target (hreads _ (by simp [Stmt.operands]))
    have hposition := h.eval position (hreads _ (by simp [Stmt.operands]))
    have hvalue := h.eval value (hreads _ (by simp [Stmt.operands]))
    rw [Machine.exec, Machine.exec]
    refine Accords.bind hvalue fun _ => Accords.bind htarget fun _ =>
      Accords.bind hposition fun _ => ?_
    exact Accords.bind (tracks_operate _) fun _ => .pure rfl
  | .print args, hs => by
    have hreads := (hs _ (Stmt.within_self _)).1.reads rfl
    have hargs := h.evalAll args fun e he => by
      obtain ⟨e', he', hmem⟩ := Expr.mem_partsOf.1 he
      exact hreads e' he' e hmem
    rw [Machine.exec, Machine.exec]
    refine Accords.bind hargs fun _ => Accords.bind (tracks_observe _) fun _ => ?_
    exact Accords.bind (tracks_print _) fun _ => .pure rfl
  | .ifElse cond body orelse, hs => by
    have hcond := h.eval cond ((hs _ (Stmt.within_self _)).1.reads rfl cond List.mem_cons_self)
    have hbody := h.block body fun s hmem => hs s (by simp [Stmt.within, hmem])
    have helse := h.otherwise orelse fun s hmem => hs s (by simp [Stmt.within, hmem])
    rw [Machine.exec, Machine.exec]
    exact Accords.bind hcond fun _ => Accords.bind (tracks_observe _) fun _ =>
      Accords.ite hbody helse
  | .whileLoop cond body, hs => by
    have hcond := h.eval cond ((hs _ (Stmt.within_self _)).1.reads rfl cond List.mem_cons_self)
    have hbody := h.block body fun s hmem => hs s (by simp [Stmt.within, hmem])
    rw [Machine.exec, Machine.exec]
    exact .cycle (fun _ => .bind hcond fun _ => tracks_observe _) hbody _ _
  | .forLoop x iterable body, hs => by
    have hmeets := (hs _ (Stmt.within_self _)).1
    have hiterable := h.eval iterable (hmeets.reads rfl iterable List.mem_cons_self)
    have hbody := h.block body fun s hmem => hs s (by simp [Stmt.within, hmem])
    rw [Machine.exec, Machine.exec]
    exact Accords.bind hiterable
      fun v => Mirrors.cycle (h.takeNext (hmeets.binds x rfl) v) hbody _ _
  | .funcDef name params body, hs => by
    cases (hs _ (Stmt.within_self _)).1.flat
  | .ret value, hs => by
    rw [Machine.exec, Machine.exec]
    exact (hs _ (Stmt.within_self _)).2 value rfl
  | .eval e, hs => by
    have he := h.eval e ((hs _ (Stmt.within_self _)).1.reads rfl e List.mem_cons_self)
    rw [Machine.exec, Machine.exec]
    exact Accords.bind he fun _ => .pure rfl
  | .pass, _ | .break_, _ | .continue_, _ => by
    rw [Machine.exec, Machine.exec]
    exact .pure rfl

theorem block (h : Coupling F M r r' W vis own) : ∀ ss : List Stmt,
    (∀ s ∈ Stmt.withinBlock ss, Suits F M r r' W vis own E s) →
    Mirrors (Linked F W) E (M.block r ss) (M.block r' ss)
  | [], _ => by
    rw [Machine.block, Machine.block]
    exact .pure rfl
  | s :: rest, hs => by
    have hfirst := h.exec s fun s hmem => hs s (by simp [Stmt.withinBlock, hmem])
    have hrest := h.block rest fun s hmem => hs s (by simp [Stmt.withinBlock, hmem])
    rw [Machine.block, Machine.block]
    exact hfirst.andThen hrest

theorem otherwise (h : Coupling F M r r' W vis own) : ∀ orelse : Option (List Stmt),
    (∀ s ∈ Stmt.withinElse orelse, Suits F M r r' W vis own E s) →
    Mirrors (Linked F W) E (M.otherwise r orelse) (M.otherwise r' orelse)
  | none, _ => by
    rw [Machine.otherwise, Machine.otherwise]
    exact .pure rfl
  | some body, hs => by
    rw [Machine.otherwise, Machine.otherwise]
    exact h.block body hs

end

end Coupling

/-! ## Lookups -/

/-- Each name that can be seen has the value in the second scope that it has in the first. -/
def Below (vis : String → Prop) (vars vars' : String → Option V) : Prop :=
  ∀ x, vis x → ∀ v, vars x = some v → vars' x = some v

theorem Below.update {vis : String → Prop} {vars vars' : String → Option V}
    (h : Below vis vars vars')
    (x : String) (v : V) : Below vis (update vars x v) (update vars' x v) := by
  intro y hy w hw
  by_cases heq : y = x
  · subst heq
    rwa [update_self] at hw ⊢
  · rw [update_of_ne heq] at hw ⊢
    exact h y hy w hw

/-- The names that a routine binds among the variables in scope. -/
def Region.Owns : Region V → String → Prop
  | .module, _ => True
  | .call own _, x => x ∈ own

theorem Region.lookup_update {r : Region V} {x : String} (h : r.Owns x) (vars : String → Option V)
    (v : V) : r.lookup (update vars x v) = update (r.lookup vars) x v := by
  cases r with
  | module => rfl
  | call own outer =>
    funext y
    by_cases heq : y = x
    · subst heq
      rw [Region.Owns] at h
      rw [Region.lookup, if_pos h, update_self, update_self]
    · simp [Region.lookup, update_of_ne heq]

/-- What can be seen has the same value in the second region. Also a fact about the variables of the
first is carried along. -/
def Aligned (I : (String → Option V) → Prop) (vis : String → Prop) (r r' : Region V)
    (vars vars' : String → Option V) : Prop :=
  I vars ∧ Below vis (r.lookup vars) (r'.lookup vars')

theorem coupling_aligned {F : String → Option Function} {M : Machine V H} {r r' : Region V}
    {vis own : String → Prop} {I : (String → Option V) → Prop} (hM : M.Handles F)
    (hI : ∀ x, own x → ∀ vars v, I vars → I (update vars x v))
    (howns : ∀ x, own x → r.Owns x ∧ r'.Owns x) :
    Coupling F M r r' (Aligned I vis r r') vis own where
  reads := by
    intro x hx vars vars' v hvars hv
    exact hvars.2 x hx v hv
  writes := by
    intro x hx vars vars' v hvars
    rw [Aligned, Region.lookup_update (howns x hx).1, Region.lookup_update (howns x hx).2]
    exact ⟨hI x hx vars v hvars.1, hvars.2.update x v⟩
  calls := hM

/-! ## Calls -/

theorem Function.mem_own {fn : Function} {x : String} :
    x ∈ fn.own ↔ x ∈ fn.params ∨ x ∈ Stmt.boundNames fn.body :=
  List.mem_append

/-- What the body of a function may do, with what it returns. -/
def Function.Meets (vis : String → Prop) (fn : Function) : Prop :=
  ∀ s ∈ Stmt.withinBlock fn.body, s.Meets vis (· ∈ fn.own) ∧
    ∀ e, s = .ret (some e) → ∀ e' ∈ e.parts, e'.Meets vis

/-- Functions, the entry function apart, that read only their own names. -/
def Closed (F : String → Option Function) : Prop :=
  ∀ name, name ≠ entryName → ∀ fn, F name = some fn → fn.Meets (· ∈ fn.own)

/-- Both routines return one value, in memories that `P` relates. -/
def Ending.alike (P : Memory V H → Memory V H → Prop) : Ending V H where
  rel o o' := ∃ v m m', o = (.ok (.returned v), m) ∧ o' = (.ok (.returned v), m') ∧ P m m'
  ends := by
    rintro _ _ ⟨v, m, m', rfl, rfl, -⟩
    constructor <;> (rintro flow h; cases h; rfl)

theorem mirrors_returned {P : Memory V H → Memory V H → Prop} (v : V) :
    Mirrors P (.alike P) (Pure.pure (.returned v)) (Pure.pure (.returned v)) := by
  intro m m' h
  exact .ended ⟨v, m, m', rfl, rfl, h⟩

/-- Once the variables from before are back, both results hold one value. -/
theorem Mirrors.inScope {P Q : Memory V H → Memory V H → Prop} {x y : Run V H (Flow V)}
    {start : String → Option V} {m m' : Memory V H} (h : Mirrors P (.alike P) x y)
    (hstart : P { m with vars := start } { m' with vars := start })
    (hback : ∀ m₁ m₁', P m₁ m₁' → Q { m₁ with vars := m.vars } { m₁' with vars := m'.vars }) :
    Accord Q (fun _ => True) (fun _ _ => False)
      ((inScope start x).on m) ((inScope start y).on m') := by
  have hxy := h hstart
  change Accord Q _ _ ((x.on { m with vars := start }).1, { (x.on _).2 with vars := m.vars })
    ((y.on { m' with vars := start }).1, { (y.on _).2 with vars := m'.vars })
  generalize x.on { m with vars := start } = o at hxy ⊢
  generalize y.on { m' with vars := start } = o' at hxy ⊢
  cases hxy with
  | unbound => exact .unbound ..
  | fault e h => exact .fault e (hback _ _ h)
  | value _ h => exact .value trivial (hback _ _ h)
  | ended h =>
    obtain ⟨v, m₁, m₁', rfl, rfl, h⟩ := h
    exact .value trivial (hback _ _ h)

section
variable {F : String → Option Function} {M : Machine V H} {fn : Function} {vis : String → Prop}
  {outer outer' : String → Option V}

theorem Coupling.body {W : (String → Option V) → (String → Option V) → Prop}
    (hc : Coupling F M (.call fn.own outer) (.call fn.own outer') W vis (· ∈ fn.own))
    (hfn : fn.Meets vis) :
    Mirrors (Linked F W) (.alike (Linked F W)) (M.block (.call fn.own outer) fn.body)
      (M.block (.call fn.own outer') fn.body) := by
  refine hc.block fn.body fun s hs => ⟨(hfn s hs).1, ?_⟩
  rintro value rfl
  have hvalue := hc.evalOption value fun e he => by
    cases value with
    | none => cases he
    | some e' => exact (hfn _ hs).2 e' rfl e he
  exact Accords.bind hvalue fun v? => mirrors_returned _

/-- A function does the same for two callers, if what its body sees of the module has the same
values. -/
theorem tracks_enter (hM : M.Handles F) (hfn : fn.Meets vis)
    (houter : ∀ x, vis x → x ∉ fn.own → ∀ v, outer x = some v → outer' x = some v) (args : List V)
    (vars vars' : String → Option V) :
    Tracks (Pinned F vars vars') (M.enter outer fn args) (M.enter outer' fn args) := by
  have hc : Coupling F M (.call fn.own outer) (.call fn.own outer')
      (Aligned (fun _ => True) vis (.call fn.own outer) (.call fn.own outer')) vis (· ∈ fn.own) :=
    coupling_aligned hM (fun _ _ _ _ h => h) fun _ hx => ⟨hx, hx⟩
  intro m m' hm
  refine (hc.body hfn).inScope ⟨hm.heap, hm.printed, hm.functions, hm.table, trivial, ?_⟩
    fun m₁ m₁' h => ⟨h.heap, h.printed, h.functions, h.table, hm.vars⟩
  intro x hx v hv
  by_cases hmem : x ∈ fn.own
  · rwa [Region.lookup, if_pos hmem] at hv ⊢
  · rw [Region.lookup, if_neg hmem] at hv ⊢
    exact houter x hx hmem v hv

theorem tracks_apply (hF : Closed F) (hM : M.Handles F) {name : String} (hname : name ≠ entryName)
    (args : List V) (vars vars' : String → Option V) :
    Tracks (Pinned F vars vars') (M.apply outer name args) (M.apply outer' name args) := by
  intro m m' hm
  rw [Machine.apply, Machine.apply, on_get_bind, on_get_bind]
  cases hfn : m.functions name with
  | none => exact .unbound ..
  | some fn =>
    have hfn' := hm.functions name fn hfn
    have henter : Tracks (Pinned F vars vars') (M.enter outer fn args) (M.enter outer' fn args) :=
      tracks_enter hM (hF name hname fn hfn') (fun x hx hmem => (hmem hx).elim) args vars vars'
    rw [hm.table, hfn']
    refine Accords.ite (Accords.bind henter fun flow => ?_) (.throw _) hm
    cases flow <;> exact .pure trivial

end

/-- Calls of closed functions do the same for all callers, however deep they go. -/
theorem handles_machine {F : String → Option Function} (hF : Closed F) (R : Runtime V H) (n : Nat) :
    (machine R n).Handles F := by
  induction n with
  | zero =>
    intro name _ outer outer' args vars vars'
    exact .throw .exhausted
  | succ n ih =>
    intro name hname outer outer' args vars vars'
    exact tracks_apply hF ih hname args vars vars'

end Braces
