import Mathlib.Data.List.Forall2
import Braces.Proofs.Attempt
import Braces.Proofs.Unpacking.Reading

/-!
# Tuple assignments store at once

A tuple assignment that is taken apart does what it says: all values first, from left to right, and
then all stores, from left to right. Targets may repeat, occur in the values, or be the index of
another target. The variables in between do not disturb this, since no other statement of the
program knows them.
-/

namespace Braces

/-- How expressions are evaluated and elements are stored, for any values, faults, and world around
the variables. What an expression comes to depends on the variables that occur in it and on no
others. -/
structure Evaluator (V W F : Type) where
  eval : Expr → (String → Option V) → W → Except F V × W
  /-- Stores to the element of a list at a position. -/
  storeAt : V → V → V → W → Except F Unit × W
  eval_congr : ∀ e vars vars' w, (∀ x ∈ e.vars, vars x = vars' x) → eval e vars w = eval e vars' w
  eval_var : ∀ x v vars w, vars x = some v → eval (.var x) vars w = (.ok v, w)

/-- The variables and the world. -/
structure State (V W : Type) where
  vars : String → Option V
  world : W

/-- Gives a variable a value. -/
def State.set {V W : Type} (x : String) (v : V) (s : State V W) : State V W :=
  { s with vars := Function.update s.vars x (some v) }

abbrev Exec (V W F : Type) := Attempt F (State V W)

variable {V W F α β : Type}

theorem State.vars_set_self (s : State V W) (x : String) (v : V) : (s.set x v).vars x = some v :=
  Function.update_self ..

theorem State.vars_set_of_ne (s : State V W) {x y : String} (h : y ≠ x) (v : V) :
    (s.set x v).vars y = s.vars y :=
  Function.update_of_ne h ..

namespace Exec

/-- A computation on the world, which sees the variables. -/
def act (f : (String → Option V) → W → Except F α × W) : Exec V W F α :=
  ExceptT.mk fun s => ((f s.vars s.world).1, { s with world := (f s.vars s.world).2 })

end Exec

namespace Evaluator

open Attempt Exec

variable (E : Evaluator V W F)

def value (e : Expr) : Exec V W F V := act (E.eval e)

/-- Stores a value. The parts of an item are evaluated first, from left to right. -/
def store (v : V) : Place → Exec V W F Unit
  | .name x => modify (State.set x v)
  | .item list position => do
    let l ← E.value list
    let i ← E.value position
    act fun _ => E.storeAt l i v

/-- Runs an assignment. Other statements have no part in this. -/
def exec : Stmt → Exec V W F Unit
  | .assign x e => do E.store (← E.value e) (.name x)
  | .assignAt list position e => do E.store (← E.value e) (.item list position)
  | _ => return ()

def execAll : List Stmt → Exec V W F Unit
  | [] => return ()
  | s :: rest => do
    E.exec s
    execAll rest

/-- The values of expressions, from left to right. -/
def values : List Expr → Exec V W F (List V)
  | [] => return []
  | e :: es => do
    let v ← E.value e
    return v :: (← values es)

/-- Stores values to places, from left to right. -/
def stores : List Place → List V → Exec V W F Unit
  | place :: places, v :: vs => do
    E.store v place
    stores places vs
  | _, _ => return ()

/-- A tuple assignment: all values, then all stores. -/
def simultaneous (targets : List Place) (es : List Expr) : Exec V W F Unit := do
  E.stores targets (← E.values es)

theorem exec_store (place : Place) (e : Expr) :
    E.exec (place.store e) = (do E.store (← E.value e) place) := by
  cases place <;> rfl

theorem execAll_append (ss ss' : List Stmt) :
    E.execAll (ss ++ ss') = (do E.execAll ss; E.execAll ss') := by
  induction ss with
  | nil => rfl
  | cons s ss ih => rw [List.cons_append, execAll, execAll, ih, bind_assoc]

end Evaluator

/-! ## Runs that differ in some variables -/

/-- The states have the same world, and the same variables outside of some. -/
structure State.AgreesOutside (T : List String) (s s' : State V W) : Prop where
  world : s.world = s'.world
  vars : ∀ x, x ∉ T → s.vars x = s'.vars x

theorem State.AgreesOutside.set {T : List String} {s s' : State V W}
    (h : s.AgreesOutside T s') (x : String) (v : V) : (s.set x v).AgreesOutside T (s'.set x v) := by
  refine ⟨h.world, fun y hy => ?_⟩
  by_cases hyx : y = x
  · subst hyx
    rw [State.vars_set_self, State.vars_set_self]
  · rw [State.vars_set_of_ne s hyx, State.vars_set_of_ne s' hyx]
    exact h.vars y hy

/-- One of the variables in question may be set in one state only. -/
theorem State.AgreesOutside.set_left {T : List String} {s s' : State V W} (h : s.AgreesOutside T s')
    {x : String} (hx : x ∈ T) (v : V) : (s.set x v).AgreesOutside T s' := by
  refine ⟨h.world, fun y hy => ?_⟩
  have hne : y ≠ x := fun hyx => hy (hyx ▸ hx)
  rw [State.vars_set_of_ne s hne]
  exact h.vars y hy

/-- Both computations fail alike or come to values in a relation, in states that agree outside of
some variables. -/
inductive EndsAlike (T : List String) (Q : α → β → State V W → Prop) :
    Except F α × State V W → Except F β × State V W → Prop
  | fault {s s'} (e : F) : s.AgreesOutside T s' → EndsAlike T Q (.error e, s) (.error e, s')
  | value {s s'} {a b} : s.AgreesOutside T s' → Q a b s → EndsAlike T Q (.ok a, s) (.ok b, s')

namespace EndsAlike

open Attempt Exec

variable {T : List String} {s s' : State V W} {γ δ : Type}

theorem bind {Q : α → β → State V W → Prop} {Q' : γ → δ → State V W → Prop} {x : Exec V W F α}
    {y : Exec V W F β} {f : α → Exec V W F γ} {g : β → Exec V W F δ}
    (h : EndsAlike T Q (x.on s) (y.on s'))
    (hfg : ∀ a b s₁ s₁', s₁.AgreesOutside T s₁' → Q a b s₁ →
      EndsAlike T Q' ((f a).on s₁) ((g b).on s₁')) :
    EndsAlike T Q' ((x >>= f).on s) ((y >>= g).on s') := by
  generalize ho : x.on s = o at h
  generalize ho' : y.on s' = o' at h
  cases h with
  | fault e hagree =>
    rw [on_bind_error ho, on_bind_error ho']
    exact .fault e hagree
  | value hagree hq =>
    rw [on_bind_ok ho, on_bind_ok ho']
    exact hfg _ _ _ _ hagree hq

theorem pure {Q : α → β → State V W → Prop} {a : α} {b : β} (hagree : s.AgreesOutside T s')
    (hq : Q a b s) :
    EndsAlike T Q ((Pure.pure a : Exec V W F α).on s) ((Pure.pure b : Exec V W F β).on s') :=
  .value hagree hq

/-- A computation on the world that comes to the same in both states. -/
theorem act {f g : (String → Option V) → W → Except F α × W} (hagree : s.AgreesOutside T s')
    (hsame : f s.vars s.world = g s'.vars s'.world) :
    EndsAlike T (fun a b s₁ => a = b ∧ s₁.vars = s.vars) ((Exec.act f).on s)
      ((Exec.act g).on s') := by
  change EndsAlike T _ ((f s.vars s.world).1, { s with world := (f s.vars s.world).2 })
    ((g s'.vars s'.world).1, { s' with world := (g s'.vars s'.world).2 })
  rw [hsame]
  cases (g s'.vars s'.world).1 with
  | error e => exact .fault e ⟨rfl, hagree.vars⟩
  | ok a => exact .value ⟨rfl, hagree.vars⟩ ⟨rfl, rfl⟩

/-- An expression without the variables in question. -/
theorem valueOf (E : Evaluator V W F) {e : Expr} (hagree : s.AgreesOutside T s')
    (he : ∀ x ∈ e.vars, x ∉ T) :
    EndsAlike T (fun a b s₁ => a = b ∧ s₁.vars = s.vars) ((E.value e).on s)
      ((E.value e).on s') := by
  refine act hagree ?_
  rw [hagree.world]
  exact E.eval_congr e _ _ _ fun x hx => hagree.vars x (he x hx)

/-- A store to a place without the variables in question leaves them alone. -/
theorem store (E : Evaluator V W F) {place : Place} (v : V) (hagree : s.AgreesOutside T s')
    (hplace : ∀ x ∈ place.expr.vars, x ∉ T) :
    EndsAlike T (fun _ _ s₁ => ∀ x ∈ T, s₁.vars x = s.vars x) ((E.store v place).on s)
      ((E.store v place).on s') := by
  cases place with
  | name x =>
    refine .value (hagree.set x v) fun y hy => State.vars_set_of_ne s ?_ v
    rintro rfl
    exact hplace y List.mem_cons_self hy
  | item list position =>
    refine (valueOf E hagree fun x hx => hplace x (List.mem_append_left _ hx)).bind ?_
    rintro l _ s₁ s₁' hagree₁ ⟨rfl, hvars₁⟩
    refine (valueOf E hagree₁ fun x hx => hplace x (List.mem_append_right _ hx)).bind ?_
    rintro i _ s₂ s₂' hagree₂ ⟨rfl, hvars₂⟩
    have hstore := act (f := fun _ => E.storeAt l i v) (g := fun _ => E.storeAt l i v) hagree₂
      (by rw [hagree₂.world])
    generalize (Exec.act fun _ => E.storeAt l i v : Exec V W F Unit).on s₂ = o at hstore ⊢
    generalize (Exec.act fun _ => E.storeAt l i v : Exec V W F Unit).on s₂' = o' at hstore ⊢
    cases hstore with
    | fault e hagree₃ => exact .fault e hagree₃
    | value hagree₃ hvars₃ =>
      refine .value hagree₃ fun x _ => ?_
      rw [hvars₃.2, hvars₂, hvars₁]

end EndsAlike

/-! ## The two halves of a tuple assignment -/

namespace Row

open Attempt Exec

variable {T : List String}

/-- The variables in between hold the values. -/
def Hold (rows : List Row) (vs : List V) (s : State V W) : Prop :=
  List.Forall₂ (fun row v => s.vars row.temp = some v) rows vs

theorem Hold.congr {rows : List Row} {vs : List V} {s s₁ : State V W} (h : Hold rows vs s)
    (hvars : ∀ row ∈ rows, s₁.vars row.temp = s.vars row.temp) : Hold rows vs s₁ := by
  induction h with
  | nil => exact .nil
  | cons hv _ ih =>
    refine .cons ((hvars _ List.mem_cons_self).trans hv) (ih fun row hrow => ?_)
    exact hvars row (List.mem_cons_of_mem _ hrow)

/-- Assigning the values to the variables in between is evaluating them. -/
theorem endsAlike_values (E : Evaluator V W F) (rows : List Row) :
    (rows.map (·.temp)).Nodup → rows.map (·.temp) ⊆ T →
      (∀ row ∈ rows, ∀ x ∈ row.value.vars, x ∉ T) →
    ∀ s s' : State V W, s.AgreesOutside T s' →
      EndsAlike T (fun _ vs s₁ => Hold rows vs s₁ ∧ ∀ x, x ∉ rows.map (·.temp) →
        s₁.vars x = s.vars x)
        ((E.execAll (rows.map fun row => .assign row.temp row.value)).on s)
        ((E.values (rows.map (·.value))).on s') := by
  induction rows with
  | nil =>
    intro _ _ _ s s' hagree
    exact .value hagree ⟨.nil, fun _ _ => rfl⟩
  | cons row rows ih =>
    intro hnodup hT hvalues s s' hagree
    obtain ⟨hfirst, hnodup⟩ := List.nodup_cons.1 hnodup
    obtain ⟨htemp, hT⟩ := List.cons_subset.1 hT
    simp only [List.map_cons]
    rw [Evaluator.execAll, Evaluator.values, Evaluator.exec, bind_assoc]
    refine (EndsAlike.valueOf E hagree (hvalues row List.mem_cons_self)).bind ?_
    rintro v _ s₁ s₁' hagree₁ ⟨rfl, hvars₁⟩
    rw [on_bind_ok (rfl : (E.store v (.name row.temp)).on s₁ = (.ok (), s₁.set row.temp v))]
    have hrest := ih hnodup hT (fun row hrow => hvalues row (List.mem_cons_of_mem _ hrow)) _ s₁'
      (hagree₁.set_left htemp v)
    rw [← bind_pure (E.execAll _)]
    refine hrest.bind fun _ vs s₂ s₂' hagree₂ hheld => .pure hagree₂
      ⟨.cons ?_ hheld.1, fun x hx => ?_⟩
    · rw [hheld.2 _ hfirst]
      exact State.vars_set_self ..
    · obtain ⟨hne, hx⟩ := not_or.1 (List.mem_cons.not.1 hx)
      rw [hheld.2 x hx, ← hvars₁]
      exact State.vars_set_of_ne s₁ hne v

/-- Storing the variables in between is storing the values that they hold. -/
theorem endsAlike_stores (E : Evaluator V W F) {rows : List Row} {vs : List V} {s s' : State V W}
    (hT : rows.map (·.temp) ⊆ T) (htargets : ∀ row ∈ rows, ∀ x ∈ row.target.expr.vars, x ∉ T)
    (hagree : s.AgreesOutside T s') (hheld : Hold rows vs s) :
    EndsAlike T (fun _ _ _ => True)
      ((E.execAll (rows.map fun row => row.target.store (.var row.temp))).on s)
      ((E.stores (rows.map (·.target)) vs).on s') := by
  induction rows generalizing vs s s' with
  | nil =>
    cases hheld
    exact .value hagree trivial
  | cons row rows ih =>
    obtain ⟨v, vs, hv, hrest, rfl⟩ := List.forall₂_cons_left_iff.1 hheld
    obtain ⟨-, hT⟩ := List.cons_subset.1 hT
    have hvalue : (E.value (.var row.temp)).on s = (.ok v, s) := by
      change ((E.eval _ s.vars s.world).1, { s with world := (E.eval _ s.vars s.world).2 }) = _
      rw [E.eval_var row.temp v s.vars s.world hv]
    simp only [List.map_cons]
    rw [Evaluator.execAll, Evaluator.stores, Evaluator.exec_store, bind_assoc, on_bind_ok hvalue]
    refine (EndsAlike.store E v hagree (htargets row List.mem_cons_self)).bind ?_
    intro _ _ s₁ s₁' hagree₁ hvars
    refine ih hT (fun row hrow => htargets row (List.mem_cons_of_mem _ hrow)) hagree₁ ?_
    exact Hold.congr hrest fun row hrow => hvars _ (hT (List.mem_map_of_mem hrow))

/-- A tuple assignment that is taken apart stores at once. -/
theorem endsAlike_apart (E : Evaluator V W F) {rows : List Row} (hnodup : (rows.map (·.temp)).Nodup)
    (hnames : ∀ row ∈ rows, ∀ x ∈ row.names, x ∉ rows.map (·.temp)) (s : State V W) :
    EndsAlike (rows.map (·.temp)) (fun _ _ _ => True) ((E.execAll (apart rows)).on s)
      ((E.simultaneous (rows.map (·.target)) (rows.map (·.value))).on s) := by
  rw [apart, Evaluator.execAll_append, Evaluator.simultaneous]
  have hvalues := endsAlike_values E rows hnodup (List.Subset.refl _)
    (fun row hrow x hx => hnames row hrow x (List.mem_append_right _ hx)) s s ⟨rfl, fun _ _ => rfl⟩
  refine hvalues.bind fun _ vs s₁ s₁' hagree hheld => ?_
  exact endsAlike_stores E (List.Subset.refl _)
    (fun row hrow x hx => hnames row hrow x (List.mem_append_left _ hx)) hagree hheld.1

end Row

theorem EndsAlike.same {T : List String} {o o' : Except F Unit × State V W}
    (h : EndsAlike T (fun _ _ _ => True) o o') : o.1 = o'.1 ∧ o.2.AgreesOutside T o'.2 := by
  cases h with
  | fault e hagree => exact ⟨rfl, hagree⟩
  | value hagree _ => exact ⟨rfl, hagree⟩

theorem mem_identifiers {ts : List Token} {x : String} (h : Kind.ident x ∈ kinds (beforeEnd ts)) :
    x ∈ identifiers ts := by
  obtain ⟨t, ht, hkind⟩ := List.mem_map.1 h
  refine List.mem_filterMap.2 ⟨t, (List.takeWhile_sublist _).subset ht, ?_⟩
  rw [hkind]

/-- Whatever is parsed is spelled by sentences, with their tuple assignments taken apart. The
variables in between are different from each other throughout the program, and from every identifier
in the tokens. The program assigns no others that are not in the tokens. For every evaluator and
every state, a tuple assignment that is taken apart ends like evaluating all values first and then
storing them, with the same world and the same variables but for those in between. -/
theorem parsed_tuples_simultaneous {ts : List Token} {p : Program} (h : parse ts = .ok p) :
    ∃ ss : List Sentence, Sentence.Text (kinds (beforeEnd ts)) ss ∧ p = Sentence.lowerAll ss ∧
      (Sentence.temps ss).Nodup ∧ (∀ x ∈ Sentence.temps ss, x ∉ identifiers ts) ∧
      (∀ x ∈ Stmt.assignedIn p, x ∈ identifiers ts ∨ x ∈ Sentence.temps ss) ∧
      ∀ rows ∈ Sentence.unpackingsIn ss, ∀ {V W F : Type} (E : Evaluator V W F) (s : State V W),
        ((E.execAll (Row.apart rows)).on s).1 =
            ((E.simultaneous (rows.map (·.target)) (rows.map (·.value))).on s).1 ∧
          ((E.execAll (Row.apart rows)).on s).2.AgreesOutside (rows.map (·.temp))
            ((E.simultaneous (rows.map (·.target)) (rows.map (·.value))).on s).2 := by
  obtain ⟨ss, m, htext, hapart⟩ :=
    Sentence.text_of_readProgram 0 (beforeEnd ts) (beforeEnd ts) List.suffix_rfl h
  have hfree := hapart.temps.free
  refine ⟨ss, htext, hapart.stmts, hapart.temps.nodup, hfree,
    fun x hx => (hapart.assigned x hx).imp_left mem_identifiers, ?_⟩
  intro rows hrows V W F E s
  have hsub : (rows.map (·.temp)).Sublist (Sentence.temps ss) :=
    (List.sublist_flatten_of_mem hrows).map _
  refine (Row.endsAlike_apart E (hsub.nodup hapart.temps.nodup) ?_ s).same
  intro row hrow x hx htemp
  exact hfree x (hsub.subset htemp) (mem_identifiers (hapart.words rows hrows row hrow x hx))

/-! ## Lists of numbers -/

/-- A number, or a list of numbers by the place where it is kept. -/
inductive Item where
  | number (n : Int)
  | list (place : Nat)
  deriving DecidableEq

namespace Item

/-- The list that is kept at a place, and the position in it that a number means. Negative numbers
count from the end. -/
def locate? (lists : List (List Int)) : Item → Item → Option (Nat × Nat × List Int)
  | .list place, .number i => do
    let xs ← lists[place]?
    let i := if i < 0 then i + xs.length else i
    if 0 ≤ i ∧ i < xs.length then some (place, i.toNat, xs) else none
  | _, _ => none

def combine? : BinOp → Item → Item → Option Item
  | .add, .number m, .number n => some (.number (m + n))
  | .sub, .number m, .number n => some (.number (m - n))
  | .mul, .number m, .number n => some (.number (m * n))
  | _, _, _ => none

/-- The value of an expression that is made of numbers, variables and elements by sums, differences
and products. -/
def eval? (vars : String → Option Item) (lists : List (List Int)) : Expr → Option Item
  | .int n => some (.number n)
  | .var x => vars x
  | .binary op l r => do combine? op (← eval? vars lists l) (← eval? vars lists r)
  | .index target position => do
    let (_, i, xs) ← locate? lists (← eval? vars lists target) (← eval? vars lists position)
    return .number (xs.getD i 0)
  | _ => none

theorem eval?_congr {vars vars' : String → Option Item} (lists : List (List Int)) :
    ∀ e : Expr, (∀ x ∈ e.vars, vars x = vars' x) → eval? vars lists e = eval? vars' lists e
  | .var x, h => h x List.mem_cons_self
  | .binary op l r, h => by
    rw [eval?, eval?, eval?_congr lists l fun x hx => h x (List.mem_append_left _ hx),
      eval?_congr lists r fun x hx => h x (List.mem_append_right _ hx)]
  | .index target position, h => by
    rw [eval?, eval?, eval?_congr lists target fun x hx => h x (List.mem_append_left _ hx),
      eval?_congr lists position fun x hx => h x (List.mem_append_right _ hx)]
  | .int _, _ | .float _, _ | .str _, _ | .bool _, _ | .unary _ _, _ | .list _, _ | .call _ _, _
  | .len _, _ | .range _ _ _, _ => rfl

end Item

/-- Evaluates over numbers and lists of numbers, with a single fault. -/
def Evaluator.lists : Evaluator Item (List (List Int)) Unit where
  eval e vars lists := ((Item.eval? vars lists e).elim (.error ()) .ok, lists)
  storeAt list position value lists :=
    match Item.locate? lists list position, value with
    | some (place, i, xs), .number n => (.ok (), lists.set place (xs.set i n))
    | _, _ => (.error (), lists)
  eval_congr e _ _ lists h := by rw [Item.eval?_congr lists e h]
  eval_var x v vars lists h := by rw [Item.eval?, h, Option.elim_some]

/-- Whether a statement is an assignment. -/
def Stmt.isAssignment : Stmt → Bool
  | .assign _ _ | .assignAt _ _ _ => true
  | _ => false

/-- In a program of assignments, what a tuple assignment is taken apart into stands together. -/
theorem Sentence.apart_infix {ss : List Sentence} {rows : List Row}
    (h : ∀ s ∈ lowerAll ss, s.isAssignment = true) (hrows : rows ∈ unpackingsIn ss) :
    Row.apart rows <:+: lowerAll ss := by
  induction ss with
  | nil => cases hrows
  | cons s ss ih =>
    rw [lowerAll] at h ⊢
    obtain ⟨hs, hss⟩ := List.forall_mem_append.1 h
    rcases List.mem_append.1 hrows with hrows | hrows
    · cases s with
      | plain s => cases hrows
      | unpack rows' =>
        obtain rfl := List.mem_singleton.1 hrows
        exact (List.prefix_append _ _).isInfix
      | ifElse | whileLoop | forLoop | funcDef => cases hs _ List.mem_cons_self
    · exact (ih hss hrows).trans (List.suffix_append _ _).isInfix

/-- The tokens of `py2cpp_tmp_0[i], i = i, 0`. -/
def rotation : List Token :=
  [.ident "py2cpp_tmp_0", .symbol .openSquare, .ident "i", .symbol .closeSquare, .symbol .comma,
    .ident "i", .symbol .equal, .ident "i", .symbol .comma, .int 0, .newline].map (⟨·, .start⟩)

namespace Rotation

/-- A target is the index of another one, and the first name for a variable in between is taken. -/
def rows : List Row :=
  [⟨.item (.var "py2cpp_tmp_0") (.var "i"), .var "i", "py2cpp_tmp_1"⟩,
    ⟨.name "i", .int 0, "py2cpp_tmp_2"⟩]

def isApart : Program → Bool
  | [.assign "py2cpp_tmp_1" (.var "i"), .assign "py2cpp_tmp_2" (.int 0),
      .assignAt (.var "py2cpp_tmp_0") (.var "i") (.var "py2cpp_tmp_1"),
      .assign "i" (.var "py2cpp_tmp_2")] => true
  | _ => false

theorem parse_rotation : parse rotation = .ok (Row.apart rows) := by
  have hshape : (parse rotation).toOption.map isApart = some true := by decide +kernel
  obtain ⟨p, hp, hsame⟩ := exists_of_toOption_map hshape
  unfold isApart at hsame
  split at hsame
  · exact hp
  · cases hsame

/-- There is one way to read the assignments as a tuple assignment with the first variable. -/
theorem rows_of_infix {rows' : List Row} (h : Row.apart rows' <:+: Row.apart rows)
    (htemp : "py2cpp_tmp_1" ∈ rows'.map (·.temp)) : rows' = rows := by
  obtain ⟨before, after, heq⟩ := h
  have hlength := congrArg List.length heq
  simp only [List.length_append, Row.apart, List.length_map, rows, List.length_cons,
    List.length_nil] at hlength
  rcases rows' with _ | ⟨⟨target, value, temp⟩, _ | ⟨⟨target', value', temp'⟩, _ | ⟨row, more⟩⟩⟩
  · cases htemp
  · -- Only the first assignment is to the variable, and no store of it follows.
    obtain rfl : "py2cpp_tmp_1" = temp := List.mem_singleton.1 htemp
    rcases before with _ | ⟨_, _ | ⟨_, _ | ⟨_, _⟩⟩⟩
    · cases target <;> simp [Row.apart, rows, Place.store] at heq
    · simp [Row.apart, rows] at heq
    · simp [Row.apart, rows, Place.store] at heq
    · simp only [List.length_cons, List.length_nil] at hlength
      omega
  · obtain rfl : before = [] := by
      simp only [List.length_cons, List.length_nil] at hlength
      exact List.length_eq_zero_iff.1 (by omega)
    cases target <;> cases target' <;> simp_all [Row.apart, rows, Place.store]
  · simp only [List.length_cons] at hlength
    omega

/-- `py2cpp_tmp_0` is a list with three elements, and `i` the position of the second one. -/
def start : State Item (List (List Int)) where
  vars x :=
    if x = "py2cpp_tmp_0" then some (.list 0) else if x = "i" then some (.number 1) else none
  world := [[5, 6, 7]]

end Rotation

open Rotation in
theorem parsed_tuples_simultaneous_rotation :
    ∃ ss, parse rotation = .ok (Sentence.lowerAll ss) ∧ Sentence.Text (kinds rotation) ss ∧
      (Sentence.temps ss).Nodup ∧ "py2cpp_tmp_0" ∉ Sentence.temps ss ∧
      rows ∈ Sentence.unpackingsIn ss ∧
      ((Evaluator.lists.execAll (Row.apart rows)).on start).1 = .ok () ∧
      ((Evaluator.lists.execAll (Row.apart rows)).on start).2.world = [[5, 1, 7]] ∧
      ((Evaluator.lists.execAll (Row.apart rows)).on start).2.vars "i" = some (.number 0) := by
  obtain ⟨ss, htext, hss, hnodup, hfree, hassigned, hrun⟩ :=
    parsed_tuples_simultaneous parse_rotation
  have htemp : "py2cpp_tmp_1" ∈ Sentence.temps ss :=
    (hassigned "py2cpp_tmp_1" List.mem_cons_self).resolve_left (by decide)
  have hrows : rows ∈ Sentence.unpackingsIn ss := by
    obtain ⟨row, hrow, hname⟩ := List.mem_map.1 htemp
    obtain ⟨rows', hrows', hrow⟩ := List.mem_flatten.1 hrow
    have hinfix := Sentence.apart_infix (hss ▸ by decide) hrows'
    rw [← hss] at hinfix
    rwa [← rows_of_infix hinfix (List.mem_map.2 ⟨row, hrow, hname⟩)]
  obtain ⟨hresult, hworld, hvars⟩ := hrun rows hrows Evaluator.lists start
  refine ⟨ss, hss ▸ parse_rotation, htext, hnodup, fun hmem => hfree _ hmem (by decide),
    hrows, ?_, ?_, ?_⟩
  · rw [hresult]
    rfl
  · rw [hworld]
    rfl
  · rw [hvars "i" (by decide)]
    rfl

end Braces
