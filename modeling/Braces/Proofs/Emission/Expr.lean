import Braces.Emit.Expr

/-!
# What emitting an expression gives

The relation `Emits` says of every form of expression under which conditions it is emitted and as
what. Emission succeeds with exactly the results of the relation, so later proofs go by the cases of
`Emits` and not through the checks in the order in which they are made.
-/

namespace Braces

theorem exists_of_bind_eq_ok {ε α β : Type} {x : Except ε α} {f : α → Except ε β} {b : β}
    (h : (x >>= f) = .ok b) : ∃ a, x = .ok a ∧ f a = .ok b := by
  cases x with
  | error e => cases h
  | ok a => exact ⟨a, rfl, h⟩

theorem exists_of_toBool {ε α : Type} {x : Except ε α} (h : x.toBool = true) : ∃ a, x = .ok a := by
  cases x with
  | error e => cases h
  | ok a => exact ⟨a, rfl⟩

theorem exists_of_toOption_map {ε α β : Type} {x : Except ε α} {f : α → β} {b : β}
    (h : x.toOption.map f = some b) : ∃ a, x = .ok a ∧ f a = b := by
  cases x with
  | error e => cases h
  | ok a => exact ⟨a, rfl, Option.some.inj h⟩

theorem eq_ok_of_mapError {ε ε' α : Type} {x : Except ε α} {f : ε → ε'} {a : α}
    (h : x.mapError f = .ok a) : x = .ok a := by
  cases x with
  | error e => cases h
  | ok b =>
    cases h
    rfl

namespace Frame

/-- An operator node of a given shape, from its operands and what they are emitted as. -/
def combined (f : Frame) (op : BinOp) (l r : Expr) (cl cr : Cpp.Expr) : Shape → Cpp.Expr
  | .logical =>
    .binary op (f.condition op.precedence false l cl) (f.condition op.precedence true r cr)
  | .plain => f.infixed op l r cl cr
  | .concat => .helper .concat [cl, cr]
  | .repeatLeft => .helper .repeated [cl, cr]
  | .repeatRight => .helper .repeated [cr, cl]
  | .quotient => .binary .div (.cast .float cl) (f.operand op.precedence true r cr)
  | .floatFloor =>
    .helper .floor [.binary .div (f.operand op.precedence false l cl)
      (f.operand op.precedence true r cr)]
  | .floor => .helper .floorDiv [cl, cr]
  | .floatMod => .helper .fmod [cl, cr]
  | .mod => .helper .mod [cl, cr]

mutual

inductive Emits (f : Frame) : Expr → Cpp.Expr → Prop
  | int (n : Int) : Emits f (.int n) (.int n)
  | float (x : Double) : Emits f (.float x) (.float x)
  | str (s : String) : Emits f (.str s) (.str s)
  | bool (b : Bool) : Emits f (.bool b) (.bool b)
  | var {name} : f.isVariable name → Emits f (.var name) (.var (.source name))
  | binary {op l r cl cr sh} : shape? op (f.typeOf l) (f.typeOf r) = some sh →
      Emits f l cl → Emits f r cr → Emits f (.binary op l r) (f.combined op l r cl cr sh)
  | not {e c} : Emits f e c →
      Emits f (.unary .not e)
        (.unary .not (if (f.typeOf e).isSequence then .helper .truthy [c] else atom e c))
  | sign {op e c} : op ≠ .not → (f.typeOf e).isNumeric → Emits f e c →
      Emits f (.unary op e) (.unary op (atom e c))
  | list {es cs} : f.checkElements es = .ok () → EmitsAll f es cs → Emits f (.list es) (.vector cs)
  | index {target position ct ci} : f.checkSubscript target position = .ok () →
      Emits f target ct → Emits f position ci →
      Emits f (.index target position)
        (if f.typeOf target = .str then .construct .str [.int 1, element target ct ci]
          else element target ct ci)
  | emptyText : Emits f (.call Expr.strName []) (.construct .str [])
  | text {arg c} : Emits f arg c → Emits f (.call Expr.strName [arg]) (.helper .str [c])
  | call {name args ps cs} : name ≠ Expr.strName → f.calleeParams name args.length = .ok ps →
      EmitsArgs f name ps args cs → Emits f (.call name args) (.call name cs)
  | len {e c} : (f.typeOf e).isIterable → Emits f e c →
      Emits f (.len e) (.cast .int (.size (sequence e c)))
  | range {start stop step cstart cstop cstep} : Emits f start cstart → EmitsOption f stop cstop →
      EmitsOption f step cstep →
      Emits f (.range start stop step)
        (match cstop with
          | some c => .helper .range [cstart, c, cstep.getD (.int 1)]
          | none => .helper .range [.int 0, cstart, cstep.getD (.int 1)])

inductive EmitsAll (f : Frame) : List Expr → List Cpp.Expr → Prop
  | nil : EmitsAll f [] []
  | cons {e es c cs} : Emits f e c → EmitsAll f es cs → EmitsAll f (e :: es) (c :: cs)

inductive EmitsOption (f : Frame) : Option Expr → Option Cpp.Expr → Prop
  | absent : EmitsOption f none none
  | present {e c} : Emits f e c → EmitsOption f (some e) (some c)

/-- Arguments, each fitting its parameter. -/
inductive EmitsArgs (f : Frame) : String → List Param → List Expr → List Cpp.Expr → Prop
  | done {name ps} : EmitsArgs f name ps [] []
  | surplus {name args} : EmitsArgs f name [] args []
  | next {name p ps arg args c cs} :
      checkSlot (.argument p.name name) p.ty (f.typeOf arg) = .ok () →
      Emits f arg c → EmitsArgs f name ps args cs →
      EmitsArgs f name (p :: ps) (arg :: args) (argument p arg c :: cs)

end

variable {f : Frame}

theorem expr_text {args : List Expr} {c : Cpp.Expr} (h : f.expr (.call Expr.strName args) = .ok c) :
    args = [] ∧ c = .construct .str [] ∨ ∃ c', f.exprs args = .ok [c'] ∧ c = .helper .str [c'] := by
  unfold expr at h
  rw [if_pos rfl] at h
  split at h
  · cases h
    exact .inl ⟨rfl, rfl⟩
  · next arg =>
    obtain ⟨c', he, h⟩ := exists_of_bind_eq_ok h
    cases h
    refine .inr ⟨c', ?_, rfl⟩
    rw [exprs, he]
    rfl
  · cases h

theorem EmitsAll.text {args : List Expr} {c : Cpp.Expr} (h : f.EmitsAll args [c]) :
    f.Emits (.call Expr.strName args) (.helper .str [c]) := by
  cases h with
  | cons he hes =>
    cases hes
    exact .text he

mutual

theorem emits_of_expr : ∀ {e : Expr} {c : Cpp.Expr}, f.expr e = .ok c → f.Emits e c
  | .int n, _, h => by cases h; exact .int n
  | .float x, _, h => by cases h; exact .float x
  | .str s, _, h => by cases h; exact .str s
  | .bool b, _, h => by cases h; exact .bool b
  | .var name, c, h => by
    rw [expr] at h
    split at h
    · next hv => cases h; exact .var hv
    · cases h
  | .binary op l r, c, h => by
    rw [expr] at h
    -- Every shape emits both operands and puts them together; only the order differs.
    cases hs : shape? op (f.typeOf l) (f.typeOf r) with
    | none => rw [hs] at h; cases h
    | some sh =>
      rw [hs] at h
      cases sh with
      | repeatRight =>
        obtain ⟨cr, hr, h⟩ := exists_of_bind_eq_ok h
        obtain ⟨cl, hl, h⟩ := exists_of_bind_eq_ok h
        cases h
        exact .binary hs (emits_of_expr hl) (emits_of_expr hr)
      | _ =>
        obtain ⟨cl, hl, h⟩ := exists_of_bind_eq_ok h
        obtain ⟨cr, hr, h⟩ := exists_of_bind_eq_ok h
        cases h
        exact .binary hs (emits_of_expr hl) (emits_of_expr hr)
  | .unary op e, c, h => by
    rw [expr] at h
    split at h
    · next hop =>
      subst hop
      obtain ⟨c', he, h⟩ := exists_of_bind_eq_ok h
      cases h
      exact .not (emits_of_expr he)
    · next hop =>
      split at h
      · next hn =>
        obtain ⟨c', he, h⟩ := exists_of_bind_eq_ok h
        cases h
        exact .sign hop hn (emits_of_expr he)
      · cases h
  | .list es, c, h => by
    rw [expr] at h
    obtain ⟨_, hc, h⟩ := exists_of_bind_eq_ok h
    obtain ⟨cs, hes, h⟩ := exists_of_bind_eq_ok h
    cases h
    exact .list hc (emits_of_exprs hes)
  | .index target position, c, h => by
    rw [expr] at h
    obtain ⟨_, hc, h⟩ := exists_of_bind_eq_ok h
    obtain ⟨ct, ht, h⟩ := exists_of_bind_eq_ok h
    obtain ⟨ci, hi, h⟩ := exists_of_bind_eq_ok h
    cases h
    exact .index hc (emits_of_expr ht) (emits_of_expr hi)
  | .call name args, c, h => by
    by_cases hname : name = Expr.strName
    · subst hname
      obtain ⟨rfl, rfl⟩ | ⟨c', hargs, rfl⟩ := expr_text h
      · exact .emptyText
      · exact (emits_of_exprs hargs).text
    · unfold expr at h
      rw [if_neg hname] at h
      obtain ⟨ps, hps, h⟩ := exists_of_bind_eq_ok h
      obtain ⟨cs, hargs, h⟩ := exists_of_bind_eq_ok h
      cases h
      exact .call hname hps (emits_of_arguments hargs)
  | .len e, c, h => by
    rw [expr] at h
    split at h
    · next hty =>
      obtain ⟨c', he, h⟩ := exists_of_bind_eq_ok h
      cases h
      exact .len hty (emits_of_expr he)
    · cases h
  | .range start stop step, c, h => by
    rw [expr] at h
    obtain ⟨cstep, hstep, h⟩ := exists_of_bind_eq_ok h
    obtain ⟨cstart, hstart, h⟩ := exists_of_bind_eq_ok h
    obtain ⟨cstop, hstop, h⟩ := exists_of_bind_eq_ok h
    cases h
    exact .range (emits_of_expr hstart) (emits_of_option hstop) (emits_of_option hstep)

theorem emits_of_exprs : ∀ {es : List Expr} {cs : List Cpp.Expr},
    f.exprs es = .ok cs → f.EmitsAll es cs
  | [], _, h => by cases h; exact .nil
  | e :: es, _, h => by
    rw [exprs] at h
    obtain ⟨c, he, h⟩ := exists_of_bind_eq_ok h
    obtain ⟨cs, hes, h⟩ := exists_of_bind_eq_ok h
    cases h
    exact .cons (emits_of_expr he) (emits_of_exprs hes)

theorem emits_of_option : ∀ {e : Option Expr} {c : Option Cpp.Expr},
    f.option e = .ok c → f.EmitsOption e c
  | none, _, h => by cases h; exact .absent
  | some e, _, h => by
    rw [option] at h
    obtain ⟨c, he, h⟩ := exists_of_bind_eq_ok h
    cases h
    exact .present (emits_of_expr he)

theorem emits_of_arguments : ∀ {name : String} {ps : List Param} {args : List Expr}
    {cs : List Cpp.Expr}, f.arguments name ps args = .ok cs → f.EmitsArgs name ps args cs
  | _, [], _, _, h => by
    unfold arguments at h
    cases h
    exact .surplus
  | _, _ :: _, [], _, h => by cases h; exact .done
  | _, p :: ps, arg :: args, _, h => by
    rw [arguments] at h
    obtain ⟨_, hslot, h⟩ := exists_of_bind_eq_ok h
    obtain ⟨c, he, h⟩ := exists_of_bind_eq_ok h
    obtain ⟨cs, hargs, h⟩ := exists_of_bind_eq_ok h
    cases h
    exact .next hslot (emits_of_expr he) (emits_of_arguments hargs)

end

end Frame

end Braces
