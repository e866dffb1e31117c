import Braces.Proofs.Running.Footprint

/-!
# Recorded runs

Calls and stores to elements are recorded in the order in which they are made. The record only gets
longer, and evaluating an expression does nothing but add to the store unless it records something:
it gives no variable a value, defines no function and prints nothing.
-/

namespace Braces

open Attempt Run

variable {V H α β : Type}

/-- A call, or a store to an element of a list. -/
inductive Effect (V : Type) where
  | called (name : String) (args : List V)
  | stored (list position value : V)

/-- A store, and the effects so far. -/
abbrev Recorded (V H : Type) := H × List (Effect V)

/-- The same values and operations, with stores to elements recorded. -/
def Runtime.recorded (R : Runtime V H) : Runtime V (Recorded V H) where
  int := R.int
  float := R.float
  str := R.str
  bool := R.bool
  none := R.none
  truth v h := R.truth v h.1
  text v h := R.text v h.1
  binary op v w h := (R.binary op v w h.1).map fun r => (r.1, r.2, h.2)
  signed op v h := (R.signed op v h.1).map fun r => (r.1, r.2, h.2)
  list vs h := ((R.list vs h.1).1, (R.list vs h.1).2, h.2)
  range a b step h := (R.range a b step h.1).map fun r => (r.1, r.2, h.2)
  length v h := R.length v h.1
  element v i h := R.element v i h.1
  storeAt list i v h := (R.storeAt list i v h.1).map fun store => (store, h.2 ++ [.stored list i v])
  walked v i h := R.walked v i h.1
  truth_bool b h := R.truth_bool b h.1
  equal_str a b h := by rw [R.equal_str, Option.map_some]

/-- Adds to the record. -/
def Run.record (e : Effect V) : Run V (Recorded V H) Unit :=
  operate fun h => some ((), h.1, h.2 ++ [e])

/-- Calls that go at most so deep, each of them recorded. -/
def recordedAt (R : Runtime V (Recorded V H)) :
    Nat → (String → Option V) → String → List V → Run V (Recorded V H) V
  | 0, _, name, args => do
    record (.called name args)
    throw .exhausted
  | n + 1, outer, name, args => do
    record (.called name args)
    Machine.apply ⟨R, recordedAt R n, n⟩ outer name args

/-- The machine that records what it does. -/
def recorder (R : Runtime V H) (n : Nat) : Machine V (Recorded V H) :=
  ⟨R.recorded, recordedAt R.recorded n, n⟩

/-! ## The record gets longer -/

/-- Something may be added to the record. -/
def longer : Growth (Recorded V H) :=
  ⟨fun h h' => h.2 <+: h'.2, fun _ => List.prefix_rfl, fun h h' => h.trans h'⟩

theorem Runtime.grows_recorded (R : Runtime V H) : R.recorded.Grows longer := by
  constructor
  case binary =>
    intro op v w h u h' heq
    obtain ⟨r, -, hr⟩ := Option.map_eq_some_iff.1 heq
    cases hr
    exact List.prefix_rfl
  case signed =>
    intro op v h u h' heq
    obtain ⟨r, -, hr⟩ := Option.map_eq_some_iff.1 heq
    cases hr
    exact List.prefix_rfl
  case list => exact fun vs h => List.prefix_rfl
  case range =>
    intro a b step h u h' heq
    obtain ⟨r, -, hr⟩ := Option.map_eq_some_iff.1 heq
    cases hr
    exact List.prefix_rfl
  case storeAt =>
    intro v i w h h' heq
    obtain ⟨store, -, hr⟩ := Option.map_eq_some_iff.1 heq
    cases hr
    exact List.prefix_append _ _

theorem touches_record (e : Effect V) : Touches longer [] (record (H := H) e) := by
  refine .operate fun {h a h'} heq => ?_
  cases heq
  exact List.prefix_append _ _

theorem contained_recorder (R : Runtime V H) (n : Nat) : (recorder R n).Contained longer := by
  induction n with
  | zero =>
    exact ⟨R.grows_recorded, fun _ _ _ => (touches_record _).bind fun _ => .throw .exhausted⟩
  | succ n ih =>
    have hinner : Machine.Contained ⟨R.recorded, recordedAt R.recorded n, n⟩ longer := ih
    exact ⟨R.grows_recorded, fun _ _ _ => (touches_record _).bind fun _ => hinner.apply _ _ _⟩

/-- A call is recorded before anything else. -/
theorem called_isPrefix (R : Runtime V H) (n : Nat) (outer : String → Option V) (name : String)
    (args : List V) (m : Memory V (Recorded V H)) :
    m.heap.2 ++ [.called name args] <+: (((recorder R n).call outer name args).on m).2.heap.2 := by
  have hrecord : (record (.called name args)).on m =
      (.ok (), { m with heap := (m.heap.1, m.heap.2 ++ [.called name args]) }) :=
    on_operate_some rfl
  cases n with
  | zero =>
    change _ <+: (((record (.called name args) >>=
      fun _ => throw .exhausted : Run V (Recorded V H) V)).on
      m).2.heap.2
    rw [on_bind_ok hrecord]
    exact List.prefix_rfl
  | succ n =>
    change _ <+: ((record (.called name args) >>= fun _ =>
      Machine.apply (recorder R n) outer name args).on m).2.heap.2
    rw [on_bind_ok hrecord]
    have hkept := (contained_recorder R n).apply outer name args
      { m with heap := (m.heap.1, m.heap.2 ++ [.called name args]) }
    exact hkept.heap

/-! ## Evaluating without effects -/

/-- Operations other than stores to elements only add to the store, and what was added does not
disturb such stores. -/
structure Runtime.Adds (R : Runtime V H) (G : Growth H) : Prop where
  binary : ∀ {op v w h u h'}, R.binary op v w h = some (u, h') → G.rel h h'
  signed : ∀ {op v h u h'}, R.signed op v h = some (u, h') → G.rel h h'
  list : ∀ vs h, G.rel h (R.list vs h).2
  range : ∀ {a b c h u h'}, R.range a b c h = some (u, h') → G.rel h h'
  storeAt : ∀ {v i w h h' h₁}, G.rel h h' → R.storeAt v i w h = some h₁ →
    ∃ h₁', R.storeAt v i w h' = some h₁' ∧ G.rel h₁ h₁'

/-- Nothing but additions to the store makes a difference. -/
structure Memory.Extends (G : Growth H) (m m' : Memory V (Recorded V H)) : Prop where
  vars : m'.vars = m.vars
  functions : m'.functions = m.functions
  printed : m'.printed = m.printed
  effects : m'.heap.2 = m.heap.2
  store : G.rel m.heap.1 m'.heap.1

namespace Memory.Extends

variable {G : Growth H} {m m₁ m₂ : Memory V (Recorded V H)}

theorem refl (m : Memory V (Recorded V H)) : m.Extends G m := ⟨rfl, rfl, rfl, rfl, G.refl _⟩

theorem trans (h : m.Extends G m₁) (h' : m₁.Extends G m₂) : m.Extends G m₂ :=
  ⟨h'.vars.trans h.vars, h'.functions.trans h.functions, h'.printed.trans h.printed,
    h'.effects.trans h.effects, G.trans h.store h'.store⟩

end Memory.Extends

/-- The record gets longer, or nothing but additions to the store makes a difference. -/
def Run.Accounted (G : Growth H) (x : Run V (Recorded V H) α) : Prop :=
  ∀ m : Memory V (Recorded V H), m.heap.2 <+: (x.on m).2.heap.2 ∧
    ((x.on m).2.heap.2 = m.heap.2 → m.Extends G (x.on m).2)

namespace Run.Accounted

variable {G : Growth H} {x : Run V (Recorded V H) α}

theorem of_extends (h : ∀ m : Memory V (Recorded V H), m.Extends G (x.on m).2) : Accounted G x :=
  fun m => ⟨(h m).effects ▸ List.prefix_rfl, fun _ => h m⟩

theorem pure (a : α) : Accounted G (Pure.pure a : Run V (Recorded V H) α) :=
  of_extends fun m => .refl m

theorem throw (e : Fault) : Accounted G (MonadExcept.throw e : Run V (Recorded V H) α) :=
  of_extends fun m => .refl m

theorem bind {f : α → Run V (Recorded V H) β} (hx : Accounted G x) (hf : ∀ a, Accounted G (f a)) :
    Accounted G (x >>= f) := by
  intro m
  have hfirst := hx m
  generalize ho : x.on m = o at hfirst
  obtain ⟨result, m₁⟩ := o
  cases result with
  | error e =>
    rw [on_bind_error ho]
    exact hfirst
  | ok a =>
    rw [on_bind_ok ho]
    obtain ⟨hlonger, hextends⟩ := hf a m₁
    refine ⟨hfirst.1.trans hlonger, fun heq => ?_⟩
    -- The record in between is neither shorter nor longer.
    have hbetween : m₁.heap.2 = m.heap.2 := by
      rw [heq] at hlonger
      exact (hfirst.1.eq_of_length_le hlonger.length_le).symm
    exact (hfirst.2 hbetween).trans (hextends (heq.trans hbetween.symm))

theorem ite {c : Prop} [Decidable c] {y : Run V (Recorded V H) α} (hx : Accounted G x)
    (hy : Accounted G y) : Accounted G (if c then x else y) := by
  split
  · exact hx
  · exact hy

theorem operate {f : Recorded V H → Option (α × Recorded V H)}
    (hf : ∀ {h a h'}, f h = some (a, h') → h'.2 = h.2 ∧ G.rel h.1 h'.1) :
    Accounted G (Run.operate f) := by
  refine of_extends fun m => ?_
  cases hm : f m.heap with
  | none =>
    rw [on_operate_none hm]
    exact .refl m
  | some result =>
    rw [on_operate_some hm]
    exact ⟨rfl, rfl, rfl, (hf hm).1, (hf hm).2⟩

/-- An operation that leaves the store as it is. -/
theorem inspect (f : Recorded V H → Option α) :
    Accounted G (Run.operate fun h => (f h).map (·, h)) := by
  refine operate fun {h a h'} heq => ?_
  obtain ⟨b, -, hb⟩ := Option.map_eq_some_iff.1 heq
  cases hb
  exact ⟨rfl, G.refl _⟩

theorem observe (f : Recorded V H → α) : Accounted G (Run.observe f) := inspect fun h => some (f h)

/-- An operation that adds to the store. -/
theorem add {f : H → Option (α × H)} (hf : ∀ {h a h'}, f h = some (a, h') → G.rel h h') :
    Accounted (V := V) G (Run.operate fun h => (f h.1).map fun r => (r.1, r.2, h.2)) := by
  refine operate fun {h a h'} heq => ?_
  obtain ⟨r, hr, heq⟩ := Option.map_eq_some_iff.1 heq
  cases heq
  exact ⟨rfl, hf hr⟩

theorem read (r : Region V) (y : String) : Accounted G (Run.read (H := Recorded V H) r y) := by
  refine of_extends fun m => ?_
  cases hv : r.lookup m.vars y with
  | none =>
    rw [on_read_none hv]
    exact .refl m
  | some v =>
    rw [on_read_some hv]
    exact .refl m

theorem toText (R : Runtime V H) (n : Nat) (vs : List V) :
    Accounted G ((recorder R n).toText vs) := by
  match vs with
  | [] => exact .pure _
  | [v] => exact .bind (.observe _) fun _ => .pure _
  | _ :: _ :: _ => exact .throw .raised

/-- A call is recorded, so nothing is said of what it changes. -/
theorem callFrom (R : Runtime V H) (n : Nat) (r : Region V) (name : String) (args : List V) :
    Accounted G ((recorder R n).callFrom r name args) := by
  intro m
  have hcalled := called_isPrefix R n (r.globals m.vars) name args m
  refine ⟨(List.prefix_append _ _).trans hcalled, fun heq => ?_⟩
  change (((recorder R n).call (r.globals m.vars) name args).on m).2.heap.2 = _ at heq
  have hle := hcalled.length_le
  rw [heq, List.length_append, List.length_singleton] at hle
  omega

end Run.Accounted

namespace Runtime.Adds

variable {R : Runtime V H} {G : Growth H}

mutual

/-- Evaluating an expression makes no difference but to the store, unless it calls a function. -/
theorem eval (hR : R.Adds G) (n : Nat) (r : Region V) :
    ∀ e : Expr, Accounted G ((recorder R n).eval r e)
  | .int _ | .float _ | .str _ | .bool _ => by
    rw [Machine.eval]
    exact .pure _
  | .var x => by
    rw [Machine.eval]
    exact .read r x
  | .binary op left right => by
    rw [Machine.eval]
    refine (hR.eval n r left).bind fun v => .ite ?_ ?_
    · exact .bind (.observe _) fun _ => .ite (.pure _) (hR.eval n r right)
    · exact (hR.eval n r right).bind fun w => .add hR.binary
  | .unary op operand => by
    rw [Machine.eval]
    refine (hR.eval n r operand).bind fun v => .ite ?_ (.add hR.signed)
    exact .bind (.observe _) fun _ => .pure _
  | .list elements => by
    rw [Machine.eval]
    refine (hR.evalAll n r elements).bind fun vs => .operate fun {h a h'} heq => ?_
    cases heq
    exact ⟨rfl, hR.list vs h.1⟩
  | .index target position => by
    rw [Machine.eval]
    exact (hR.eval n r target).bind fun _ => (hR.eval n r position).bind fun _ => .inspect _
  | .call name args => by
    rw [Machine.eval]
    exact (hR.evalAll n r args).bind fun vs => .ite (.toText R n vs) (.callFrom R n r name vs)
  | .len operand => by
    rw [Machine.eval]
    exact (hR.eval n r operand).bind fun _ => .inspect _
  | .range start stop step => by
    rw [Machine.eval]
    refine (hR.eval n r start).bind fun _ => (hR.evalOption n r stop).bind fun b? => ?_
    refine (hR.evalOption n r step).bind fun _ => ?_
    cases b? with
    | none => exact .add hR.range
    | some b => exact .add hR.range

theorem evalAll (hR : R.Adds G) (n : Nat) (r : Region V) :
    ∀ es : List Expr, Accounted G ((recorder R n).evalAll r es)
  | [] => by
    rw [Machine.evalAll]
    exact .pure _
  | e :: es => by
    rw [Machine.evalAll]
    exact (hR.eval n r e).bind fun _ => (hR.evalAll n r es).bind fun _ => .pure _

theorem evalOption (hR : R.Adds G) (n : Nat) (r : Region V) :
    ∀ e : Option Expr, Accounted G ((recorder R n).evalOption r e)
  | Option.none => by
    rw [Machine.evalOption]
    exact .pure _
  | some e => by
    rw [Machine.evalOption]
    exact (hR.eval n r e).bind fun _ => .pure _

end

end Runtime.Adds

end Braces
