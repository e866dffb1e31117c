import Braces.Emit.Stmt
import Braces.Proofs.Running.Coupling

/-!
# What a run leaves alone

A run gives new values only to the names that its statements assign, at any depth: `assigned` is an
upper bound for every run, however it ends. Calls give none, since a routine has variables of its
own. What an operation may do to the store is left open, as long as it may be done again and again.
-/

namespace Braces

open Attempt Run

variable {V H α β : Type}

/-- How a store may change: not at all, or by one change after another. -/
structure Growth (H : Type) where
  rel : H → H → Prop
  refl : ∀ h, rel h h
  trans : ∀ {h₁ h₂ h₃}, rel h₁ h₂ → rel h₂ h₃ → rel h₁ h₃

/-- Every change of the store. -/
def Growth.any : Growth H := ⟨fun _ _ => True, fun _ => trivial, fun _ _ => trivial⟩

/-- The operations change the store only in the given way. -/
structure Runtime.Grows (R : Runtime V H) (G : Growth H) : Prop where
  binary : ∀ {op v w h u h'}, R.binary op v w h = some (u, h') → G.rel h h'
  signed : ∀ {op v h u h'}, R.signed op v h = some (u, h') → G.rel h h'
  list : ∀ vs h, G.rel h (R.list vs h).2
  range : ∀ {a b c h u h'}, R.range a b c h = some (u, h') → G.rel h h'
  storeAt : ∀ {v i w h h'}, R.storeAt v i w h = some h' → G.rel h h'

theorem Runtime.grows_any (R : Runtime V H) : R.Grows .any :=
  ⟨fun _ => trivial, fun _ => trivial, fun _ _ => trivial, fun _ => trivial, fun _ => trivial⟩

/-- Between two memories only the given variables differ, and the store has changed in the given
way. -/
structure Memory.Kept (G : Growth H) (names : List String) (m m' : Memory V H) : Prop where
  vars : ∀ x, x ∉ names → m'.vars x = m.vars x
  heap : G.rel m.heap m'.heap

namespace Memory.Kept

variable {G : Growth H} {names names' : List String} {m m₁ m₂ : Memory V H}

theorem refl (m : Memory V H) : m.Kept G names m := ⟨fun _ _ => rfl, G.refl _⟩

theorem trans (h : m.Kept G names m₁) (h' : m₁.Kept G names m₂) : m.Kept G names m₂ :=
  ⟨fun x hx => (h'.vars x hx).trans (h.vars x hx), G.trans h.heap h'.heap⟩

theorem mono (h : m.Kept G names m₁) (hsub : names ⊆ names') : m.Kept G names' m₁ :=
  ⟨fun x hx => h.vars x fun hmem => hx (hsub hmem), h.heap⟩

theorem lookup (h : m.Kept G names m₁) (r : Region V) {x : String} (hx : x ∉ names) :
    r.lookup m₁.vars x = r.lookup m.vars x := by
  cases r with
  | module => exact h.vars x hx
  | call own outer => simp only [Region.lookup, h.vars x hx]

end Memory.Kept

/-! ## Steps -/

/-- However a run ends, it has changed only the given variables, and the store in the given way. -/
def Run.Touches (G : Growth H) (names : List String) (x : Run V H α) : Prop :=
  ∀ m : Memory V H, m.Kept G names (x.on m).2

namespace Run.Touches

variable {G : Growth H} {names names' : List String} {x : Run V H α}

theorem mono (h : Touches G names x) (hsub : names ⊆ names') : Touches G names' x :=
  fun m => (h m).mono hsub

theorem weaken (h : Touches G [] x) : Touches G names x := h.mono (List.nil_subset _)

theorem pure (a : α) : Touches G names (Pure.pure a : Run V H α) := fun m => .refl m

theorem throw (e : Fault) : Touches G names (MonadExcept.throw e : Run V H α) := fun m => .refl m

theorem bind {f : α → Run V H β} (hx : Touches G names x) (hf : ∀ a, Touches G names (f a)) :
    Touches G names (x >>= f) := by
  intro m
  have hfirst := hx m
  generalize ho : x.on m = o at hfirst
  obtain ⟨result, m₁⟩ := o
  cases result with
  | error e =>
    rw [on_bind_error ho]
    exact hfirst
  | ok a =>
    rw [on_bind_ok ho]
    exact hfirst.trans (hf a m₁)

theorem ite {c : Prop} [Decidable c] {y : Run V H α} (hx : Touches G names x)
    (hy : Touches G names y) :
    Touches G names (if c then x else y) := by
  split
  · exact hx
  · exact hy

/-- What a computation does with the memory that it starts from. -/
theorem get_bind {f : Memory V H → Run V H α} (hf : ∀ m, Touches G names (f m)) :
    Touches G names (get >>= f) :=
  fun m => hf m m

theorem operate {f : H → Option (α × H)} (hf : ∀ {h a h'}, f h = some (a, h') → G.rel h h') :
    Touches (V := V) G names (Run.operate f) := by
  intro m
  cases hm : f m.heap with
  | none =>
    rw [on_operate_none hm]
    exact .refl m
  | some result =>
    rw [on_operate_some hm]
    exact ⟨fun _ _ => rfl, hf hm⟩

/-- An operation that leaves the store as it is. -/
theorem inspect (f : H → Option α) :
    Touches (V := V) G names (Run.operate fun h => (f h).map (·, h)) := by
  refine operate fun {h a h'} heq => ?_
  obtain ⟨b, -, hb⟩ := Option.map_eq_some_iff.1 heq
  cases hb
  exact G.refl _

theorem observe (f : H → α) : Touches (V := V) G names (Run.observe f) :=
  inspect fun h => some (f h)

theorem read (r : Region V) (y : String) : Touches G names (Run.read (H := H) r y) := by
  refine get_bind fun m => ?_
  cases r.lookup m.vars y with
  | none => exact throw _
  | some v => exact pure v

theorem write (y : String) (v : V) : Touches G [y] (Run.write (H := H) y v) := by
  intro m
  exact ⟨fun z hz => update_of_ne (fun heq => hz (List.mem_singleton.2 heq)) m.vars v, G.refl _⟩

theorem print (line : String) : Touches G names (Run.print (V := V) (H := H) line) :=
  fun m => ⟨fun _ _ => rfl, G.refl m.heap⟩

theorem define (fn : Function) : Touches G names (Run.define (V := V) (H := H) fn) :=
  fun m => ⟨fun _ _ => rfl, G.refl m.heap⟩

/-- The variables from before come back, whatever was done to others meanwhile. -/
theorem inScope {vars : String → Option V} (hx : Touches G names x) :
    Touches G [] (Run.inScope vars x) :=
  fun m => ⟨fun _ _ => rfl, (hx { m with vars }).heap⟩

theorem andThen {x y : Run V H (Flow V)} (hx : Touches G names x) (hy : Touches G names y) :
    Touches G names (x.andThen y) := by
  refine hx.bind fun flow => ?_
  cases flow with
  | next => exact hy
  | broke | continued | returned => exact pure _

theorem cycle {enter : Nat → Run V H Bool} {body : Run V H (Flow V)}
    (henter : ∀ i, Touches G names (enter i)) (hbody : Touches G names body) :
    ∀ passes i, Touches G names (Run.cycle enter body passes i) := by
  intro passes
  induction passes with
  | zero =>
    intro i
    exact throw .exhausted
  | succ passes ih =>
    intro i
    refine (henter i).bind fun entered => ite (hbody.bind fun flow => ?_) (pure _)
    cases flow with
    | broke | returned => exact pure _
    | next | continued => exact ih (i + 1)

end Run.Touches

/-! ## Expressions and statements -/

/-- The machine's operations and its calls change the store only in the given way, and a call leaves
the caller's variables alone. -/
structure Machine.Contained (M : Machine V H) (G : Growth H) : Prop where
  runtime : M.runtime.Grows G
  call : ∀ outer name args, Touches G [] (M.call outer name args)

namespace Machine.Contained

variable {M : Machine V H} {G : Growth H} {names : List String}

theorem toText (vs : List V) : Touches G [] (M.toText vs) := by
  match vs with
  | [] => exact .pure _
  | [v] => exact .bind (.observe _) fun _ => .pure _
  | _ :: _ :: _ => exact .throw .raised

theorem callFrom (h : M.Contained G) (r : Region V) (name : String) (args : List V) :
    Touches G [] (M.callFrom r name args) :=
  .get_bind fun _ => h.call _ name args

mutual

/-- Evaluating an expression gives no variable a value. -/
theorem eval (h : M.Contained G) (r : Region V) : ∀ e : Expr, Touches G [] (M.eval r e)
  | .int _ | .float _ | .str _ | .bool _ => by
    rw [Machine.eval]
    exact .pure _
  | .var x => by
    rw [Machine.eval]
    exact .read r x
  | .binary op left right => by
    rw [Machine.eval]
    refine (h.eval r left).bind fun v => .ite ?_ ?_
    · exact .bind (.observe _) fun _ => .ite (.pure _) (h.eval r right)
    · exact (h.eval r right).bind fun w => .operate h.runtime.binary
  | .unary op operand => by
    rw [Machine.eval]
    refine (h.eval r operand).bind fun v => .ite ?_ (.operate h.runtime.signed)
    exact .bind (.observe _) fun _ => .pure _
  | .list elements => by
    rw [Machine.eval]
    refine (h.evalAll r elements).bind fun vs => .operate fun {heap list heap'} heq => ?_
    have hheap : (M.runtime.list vs heap).2 = heap' := congrArg Prod.snd (Option.some.inj heq)
    exact hheap ▸ h.runtime.list vs heap
  | .index target position => by
    rw [Machine.eval]
    exact (h.eval r target).bind fun _ => (h.eval r position).bind fun _ => .inspect _
  | .call name args => by
    rw [Machine.eval]
    exact (h.evalAll r args).bind fun vs => .ite (toText vs) (h.callFrom r name vs)
  | .len operand => by
    rw [Machine.eval]
    exact (h.eval r operand).bind fun _ => .inspect _
  | .range start stop step => by
    rw [Machine.eval]
    refine (h.eval r start).bind fun _ => (h.evalOption r stop).bind fun b? => ?_
    refine (h.evalOption r step).bind fun _ => ?_
    cases b? with
    | none => exact .operate h.runtime.range
    | some b => exact .operate h.runtime.range

theorem evalAll (h : M.Contained G) (r : Region V) : ∀ es : List Expr, Touches G [] (M.evalAll r es)
  | [] => by
    rw [Machine.evalAll]
    exact .pure _
  | e :: es => by
    rw [Machine.evalAll]
    exact (h.eval r e).bind fun _ => (h.evalAll r es).bind fun _ => .pure _

theorem evalOption (h : M.Contained G) (r : Region V) :
    ∀ e : Option Expr, Touches G [] (M.evalOption r e)
  | none => by
    rw [Machine.evalOption]
    exact .pure _
  | some e => by
    rw [Machine.evalOption]
    exact (h.eval r e).bind fun _ => .pure _

end

theorem takeNext (x : String) (v : V) (i : Nat) : Touches G [x] (M.takeNext x v i) := by
  refine .bind (.inspect _) fun item => ?_
  cases item with
  | none => exact .pure _
  | some w => exact (Touches.write x w).bind fun _ => .pure _

theorem ret (h : M.Contained G) (r : Region V) (value : Option Expr) :
    Touches G [] (M.ret r value) := by
  cases r with
  | module => exact .pure _
  | call own outer => exact (h.evalOption _ value).bind fun _ => .pure _

mutual

/-- A statement gives values only to the names that it assigns. -/
theorem exec (h : M.Contained G) (r : Region V) : ∀ s : Stmt, Touches G s.assigned (M.exec r s)
  | .assign x value => by
    rw [Machine.exec]
    exact (h.eval r value).weaken.bind fun v => (Touches.write x v).bind fun _ => .pure _
  | .assignAt target position value => by
    rw [Machine.exec]
    refine (h.eval r value).bind fun v => (h.eval r target).bind fun list => ?_
    refine (h.eval r position).bind fun i => .bind (.operate fun heq => ?_) fun _ => .pure _
    obtain ⟨h', hstore, heq⟩ := Option.map_eq_some_iff.1 heq
    cases heq
    exact h.runtime.storeAt hstore
  | .print args => by
    rw [Machine.exec]
    refine (h.evalAll r args).bind fun vs => .bind (.observe _) fun line => ?_
    exact (Touches.print line).bind fun _ => .pure _
  | .ifElse cond body orelse => by
    rw [Machine.exec]
    refine (h.eval r cond).weaken.bind fun v => .bind (.observe _) fun _ => .ite ?_ ?_
    · exact (h.block r body).mono (List.subset_append_left _ _)
    · exact (h.otherwise r orelse).mono (List.subset_append_right _ _)
  | .whileLoop cond body => by
    rw [Machine.exec]
    refine .cycle (fun _ => ?_) (h.block r body) _ _
    exact (h.eval r cond).weaken.bind fun _ => .observe _
  | .forLoop x iterable body => by
    rw [Machine.exec]
    refine (h.eval r iterable).weaken.bind fun v => .cycle (fun i => ?_) ?_ _ _
    · exact (takeNext x v i).mono (List.cons_subset_cons x (List.nil_subset _))
    · exact (h.block r body).mono (List.subset_cons_self x _)
  | .funcDef name params body => by
    rw [Machine.exec]
    exact (Touches.define _).bind fun _ => .pure _
  | .ret value => by
    rw [Machine.exec]
    exact h.ret r value
  | .eval e => by
    rw [Machine.exec]
    exact (h.eval r e).bind fun _ => .pure _
  | .pass | .break_ | .continue_ => by
    rw [Machine.exec]
    exact .pure _

theorem block (h : M.Contained G) (r : Region V) :
    ∀ ss : List Stmt, Touches G (Stmt.assignedIn ss) (M.block r ss)
  | [] => by
    rw [Machine.block]
    exact .pure _
  | s :: rest => by
    rw [Machine.block]
    refine Touches.andThen ?_ ?_
    · exact (h.exec r s).mono (List.subset_append_left _ _)
    · exact (h.block r rest).mono (List.subset_append_right _ _)

theorem otherwise (h : M.Contained G) (r : Region V) :
    ∀ orelse : Option (List Stmt), Touches G (Stmt.assignedInElse orelse) (M.otherwise r orelse)
  | none => by
    rw [Machine.otherwise]
    exact .pure _
  | some body => by
    rw [Machine.otherwise]
    exact h.block r body

end

theorem apply (h : M.Contained G) (outer : String → Option V) (name : String) (args : List V) :
    Touches G [] (M.apply outer name args) := by
  refine .get_bind fun m => ?_
  cases m.functions name with
  | none => exact .throw _
  | some fn =>
    refine .ite ?_ (.throw _)
    refine (Touches.inScope (h.block (.call fn.own outer) fn.body)).bind fun flow => ?_
    cases flow <;> exact .pure _

end Machine.Contained

/-- Calls leave the caller's variables alone, however deep they go. -/
theorem Runtime.Grows.contained {R : Runtime V H} {G : Growth H} (hR : R.Grows G) (n : Nat) :
    (machine R n).Contained G := by
  induction n with
  | zero => exact ⟨hR, fun _ _ _ => .throw .exhausted⟩
  | succ n ih =>
    have hinner : Machine.Contained ⟨R, callAt R n, n⟩ G := ih
    exact ⟨hR, hinner.apply⟩

end Braces
