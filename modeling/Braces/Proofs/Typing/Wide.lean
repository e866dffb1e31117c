import Braces.Proofs.Typing.Widths

/-!
# Wide arithmetic in the target

The types of variables along the statements of a routine: a declaration gives its variable the type
that it spells, or with `auto` the type of its value, until the block ends. A routine is wide if
every integer variable of the source is declared `long long` and every sum, difference or product of
integers is computed in `long long`.
-/

namespace Braces

namespace Cpp

namespace Expr

/-- The expression is an integer, of either width. -/
def IsInt (Γ : Declarations) (e : Expr) : Prop := (e.type? Γ).bind ExprTy.ty? = some .int

/-- An operator on integers computes a `long long`. -/
def WideNode (Γ : Declarations) (op : BinOp) (l r : Expr) : Prop :=
  op.isRing = true → l.IsInt Γ → r.IsInt Γ → (Expr.binary op l r).type? Γ = some .longLong

/-- All arithmetic on integers within an expression is wide. -/
def Wide (Γ : Declarations) (e : Expr) : Prop :=
  ∀ op l r, Expr.binary op l r ∈ e.parts → WideNode Γ op l r

def AllWide (Γ : Declarations) (es : List Expr) : Prop :=
  ∀ op l r, Expr.binary op l r ∈ partsOf es → WideNode Γ op l r

section
variable {Γ : Declarations} {e : Expr} {es : List Expr}

/-- An expression that is not an operator itself is wide if what is within it is. -/
theorem wide_cons {rest : List Expr} (hparts : e.parts = e :: rest)
    (h : ∀ op l r, e ≠ binary op l r) :
    e.Wide Γ ↔ ∀ op l r, binary op l r ∈ rest → WideNode Γ op l r := by
  rw [Wide, hparts]
  simp only [List.mem_cons, or_imp, forall_and, and_iff_right_iff_imp]
  intro _ op l r heq
  exact absurd heq.symm (h op l r)

theorem wide_leaf (hparts : e.parts = [e]) (h : ∀ op l r, e ≠ binary op l r) : e.Wide Γ :=
  (wide_cons hparts h).2 nofun

@[simp] theorem wide_int (n : Int) : (int n).Wide Γ := wide_leaf rfl nofun

@[simp] theorem wide_float (x : Double) : (float x).Wide Γ := wide_leaf rfl nofun

@[simp] theorem wide_str (s : String) : (str s).Wide Γ := wide_leaf rfl nofun

@[simp] theorem wide_bool (b : Bool) : (bool b).Wide Γ := wide_leaf rfl nofun

@[simp] theorem wide_var (name : Name) : (var name).Wide Γ := wide_leaf rfl nofun

@[simp] theorem allWide_nil : AllWide Γ [] := nofun

@[simp] theorem allWide_cons : AllWide Γ (e :: es) ↔ e.Wide Γ ∧ AllWide Γ es := by
  simp only [AllWide, Wide, partsOf, List.mem_append, or_imp, forall_and]

theorem wide_binary {op : BinOp} {l r : Expr} :
    (binary op l r).Wide Γ ↔ WideNode Γ op l r ∧ l.Wide Γ ∧ r.Wide Γ := by
  simp only [Wide, parts, List.mem_cons, List.mem_append, or_imp, forall_and, binary.injEq]
  constructor
  · rintro ⟨hnode, hparts⟩
    exact ⟨hnode op l r ⟨rfl, rfl, rfl⟩, hparts⟩
  · rintro ⟨hnode, hparts⟩
    refine ⟨?_, hparts⟩
    rintro op l r ⟨rfl, rfl, rfl⟩
    exact hnode

@[simp] theorem wide_unary {op : UnOp} : (unary op e).Wide Γ ↔ e.Wide Γ := wide_cons rfl nofun

@[simp] theorem wide_group : (group e).Wide Γ ↔ e.Wide Γ := wide_cons rfl nofun

@[simp] theorem wide_helper {h : Helper} : (helper h es).Wide Γ ↔ AllWide Γ es :=
  wide_cons rfl nofun

@[simp] theorem wide_call {function : String} : (call function es).Wide Γ ↔ AllWide Γ es :=
  wide_cons rfl nofun

@[simp] theorem wide_construct {ty : Ty} : (construct ty es).Wide Γ ↔ AllWide Γ es :=
  wide_cons rfl nofun

@[simp] theorem wide_cast {ty : Ty} : (cast ty e).Wide Γ ↔ e.Wide Γ := wide_cons rfl nofun

@[simp] theorem wide_size : (size e).Wide Γ ↔ e.Wide Γ := wide_cons rfl nofun

@[simp] theorem wide_vector : (vector es).Wide Γ ↔ AllWide Γ es := wide_cons rfl nofun

@[simp] theorem wide_braces : (braces es).Wide Γ ↔ AllWide Γ es := wide_cons rfl nofun

@[simp] theorem wide_choose {cond yes no : Expr} :
    (choose cond yes no).Wide Γ ↔ cond.Wide Γ ∧ yes.Wide Γ ∧ no.Wide Γ := by
  have hparts : (choose cond yes no).parts =
      choose cond yes no :: (cond.parts ++ (yes.parts ++ no.parts)) := rfl
  rw [wide_cons hparts nofun]
  simp only [Wide, List.mem_append, or_imp, forall_and]

/-- Operators other than sums, differences and products are not asked for a width. -/
theorem wide_binary_of_not_isRing {op : BinOp} {l r : Expr} (h : op.isRing = false) :
    (binary op l r).Wide Γ ↔ l.Wide Γ ∧ r.Wide Γ := by
  rw [wide_binary, and_iff_right]
  intro hring
  rw [h] at hring
  cases hring

end

end Expr

/-! ## Statements -/

/-- The type of a variable that is declared with a spelled type. -/
def ExprTy.declared (t : Ty) : ExprTy := (ofTy? t).getD .longLong

/-- The type of the elements of a sequence. -/
def ExprTy.element? : ExprTy → Option ExprTy
  | .vector => some .longLong
  | .text => some .char
  | _ => none

namespace Declarations

def declare (Γ : Declarations) (name : Name) (τ : Option ExprTy) : Declarations :=
  { Γ with varTy := fun n => if n = name then τ else Γ.varTy n }

/-- Counters are integers. -/
def count (Γ : Declarations) (counters : List (Name × Expr)) : Declarations :=
  counters.foldl (fun Γ c => Γ.declare c.1 (some .longLong)) Γ

end Declarations

/-- The type of a variable that is declared with a value. -/
def DeclType.type? (Γ : Declarations) (value : Expr) : DeclType → Option ExprTy
  | .auto => value.type? Γ
  | .ty t => some (.declared t)

/-- The type of a variable that walks a sequence. -/
def DeclType.element? (Γ : Declarations) (sequence : Expr) : DeclType → Option ExprTy
  | .auto => (sequence.type? Γ).bind ExprTy.element?
  | .ty t => some (.declared t)

/-- The declarations that hold after a statement, in its block. -/
def Stmt.scope (Γ : Declarations) : Stmt → Declarations
  | .declare ty name value => Γ.declare name (ty.type? Γ value)
  | .reserve ty name => Γ.declare name (some (.declared ty))
  | _ => Γ

def scopeOf (Γ : Declarations) (cs : List Stmt) : Declarations := cs.foldl Stmt.scope Γ

/-- A variable of the source that holds integers is declared `long long`. -/
def WideDeclared (isInt : String → Prop) : Name → Option ExprTy → Prop
  | .source x, τ => isInt x → τ = some .longLong
  | .hidden _ _, _ => True

def Advance.Wide (Γ : Declarations) : Advance → Prop
  | .increment _ => True
  | .add _ stride => stride.Wide Γ

def WideCounters (Γ : Declarations) : List (Name × Expr) → Prop
  | [] => True
  | (name, value) :: rest => value.Wide Γ ∧ WideCounters (Γ.declare name (some .longLong)) rest

mutual

/-- Integer variables are declared `long long`, and integer arithmetic is wide. -/
def Stmt.Wide (isInt : String → Prop) (Γ : Declarations) : Stmt → Prop
  | .declare ty name value => value.Wide Γ ∧ WideDeclared isInt name (ty.type? Γ value)
  | .reserve ty name => WideDeclared isInt name (some (.declared ty))
  | .store target value => target.Wide Γ ∧ value.Wide Γ
  | .output items => Expr.AllWide Γ items
  | .eval e => e.Wide Γ
  | .ifElse cond body orelse => cond.Wide Γ ∧ WideBlock isInt Γ body ∧ orelse.Wide isInt Γ
  | .whileLoop cond body => cond.Wide Γ ∧ WideBlock isInt Γ body
  | .forCount counters cond advance body =>
    WideCounters Γ counters ∧ cond.Wide (Γ.count counters) ∧ advance.Wide (Γ.count counters) ∧
      WideBlock isInt (Γ.count counters) body
  | .forEach ty name sequence body =>
    sequence.Wide Γ ∧ WideDeclared isInt name (ty.element? Γ sequence) ∧
      WideBlock isInt (Γ.declare name (ty.element? Γ sequence)) body
  | .ret value => Expr.AllWide Γ value.toList
  | .retDefault | .jump _ => True

def WideBlock (isInt : String → Prop) (Γ : Declarations) : List Stmt → Prop
  | [] => True
  | s :: rest => s.Wide isInt Γ ∧ WideBlock isInt (s.scope Γ) rest

def Else.Wide (isInt : String → Prop) (Γ : Declarations) : Else → Prop
  | .nothing => True
  | .elseIf cond body orelse => cond.Wide Γ ∧ WideBlock isInt Γ body ∧ orelse.Wide isInt Γ
  | .block body => WideBlock isInt Γ body

end

theorem wideBlock_append {isInt : String → Prop} {Γ : Declarations} {cs later : List Stmt} :
    WideBlock isInt Γ (cs ++ later) ↔
      WideBlock isInt Γ cs ∧ WideBlock isInt (scopeOf Γ cs) later := by
  induction cs generalizing Γ with
  | nil => simp [WideBlock, scopeOf]
  | cons c cs ih => simp [WideBlock, ih, scopeOf, and_assoc]

theorem wideBlock_singleton {isInt : String → Prop} {Γ : Declarations} {c : Stmt} :
    WideBlock isInt Γ [c] ↔ c.Wide isInt Γ := by
  simp [WideBlock]

mutual

/-- The declarations that leave their type to the value. -/
def Stmt.autos : Stmt → List (Name × Expr)
  | .declare .auto name value => [(name, value)]
  | .ifElse _ body orelse => autosOf body ++ orelse.autos
  | .whileLoop _ body | .forCount _ _ _ body | .forEach _ _ _ body => autosOf body
  | _ => []

def autosOf : List Stmt → List (Name × Expr)
  | [] => []
  | s :: rest => s.autos ++ autosOf rest

def Else.autos : Else → List (Name × Expr)
  | .nothing => []
  | .elseIf _ body orelse => autosOf body ++ orelse.autos
  | .block body => autosOf body

end

theorem autosOf_append (cs later : List Stmt) :
    autosOf (cs ++ later) = autosOf cs ++ autosOf later := by
  induction cs with
  | nil => rfl
  | cons c cs ih => simp [autosOf, ih]

end Cpp

/-! ## Expressions -/

def Expr.isBinary : Expr → Bool
  | .binary _ _ _ => true
  | _ => false

namespace Frame

open Cpp (ExprTy Declarations)

/-- An operator on integers has an operand that is not narrow. -/
def WideNode (f : Frame) (op : BinOp) (l r : Expr) : Prop :=
  op.isRing = true → f.typeOf l = .int → f.typeOf r = .int →
    ¬(f.narrow l = true ∧ f.narrow r = true)

/-- No sum, difference or product among some expressions has two narrow integers as operands. -/
def KeepsWide (f : Frame) (es : List Expr) : Prop :=
  ∀ op l r, Expr.binary op l r ∈ es → f.WideNode op l r

variable {Γ : Declarations} {f : Frame} {e : Expr} {c : Cpp.Expr}

section
variable {es es' : List Expr}

@[simp] theorem keepsWide_nil : f.KeepsWide [] := by simp [KeepsWide]

@[simp] theorem keepsWide_append : f.KeepsWide (es ++ es') ↔ f.KeepsWide es ∧ f.KeepsWide es' := by
  simp only [KeepsWide, List.mem_append, or_imp, forall_and]

theorem keepsWide_binary {op : BinOp} {l r : Expr} :
    f.KeepsWide (.binary op l r :: es) ↔ f.WideNode op l r ∧ f.KeepsWide es := by
  simp only [KeepsWide, List.mem_cons, or_imp, forall_and, Expr.binary.injEq]
  constructor
  · rintro ⟨hnode, hes⟩
    exact ⟨hnode op l r ⟨rfl, rfl, rfl⟩, hes⟩
  · rintro ⟨hnode, hes⟩
    refine ⟨?_, hes⟩
    rintro op l r ⟨rfl, rfl, rfl⟩
    exact hnode

/-- Only operators on two operands matter. -/
theorem keepsWide_cons (h : e.isBinary = false) : f.KeepsWide (e :: es) ↔ f.KeepsWide es := by
  simp only [KeepsWide, List.mem_cons, or_imp, forall_and, and_iff_right_iff_imp]
  rintro - op l r rfl
  cases h

end

@[simp] theorem wide_operand {parent : Nat} {right : Bool} :
    (f.operand parent right e c).Wide Γ ↔ c.Wide Γ := by
  unfold operand
  split <;> simp

@[simp] theorem wide_atom : (atom e c).Wide Γ ↔ c.Wide Γ := by
  unfold atom
  split <;> simp

@[simp] theorem wide_sequence : (sequence e c).Wide Γ ↔ c.Wide Γ := by
  unfold sequence
  split <;> simp

@[simp] theorem wide_truth : (f.truth e c).Wide Γ ↔ c.Wide Γ := by
  unfold truth
  split <;> simp

@[simp] theorem wide_condition {parent : Nat} {right : Bool} :
    (f.condition parent right e c).Wide Γ ↔ c.Wide Γ := by
  unfold condition
  split <;> simp

@[simp] theorem wide_element {ct ci : Cpp.Expr} :
    (element e ct ci).Wide Γ ↔ ct.Wide Γ ∧ ci.Wide Γ := by
  simp [element]

@[simp] theorem wide_argument {q : Param} : (argument q e c).Wide Γ ↔ c.Wide Γ := by
  unfold argument
  split <;> simp

/-- Two integers are added in `long long` unless both are narrow. -/
theorem wideNode_iff_of_fits {σ τ : ExprTy} {t t' : Ty} {m n : Bool} (hσ : σ.Fits t m)
    (hτ : τ.Fits t' n) (ht : t.isNumeric = true) (ht' : t'.isNumeric = true) :
    (σ.ty? = some .int → τ.ty? = some .int → σ.promote τ = .longLong) ↔
      (t = .int → t' = .int → ¬(m = true ∧ n = true)) := by
  obtain ⟨rfl, rfl, rfl⟩ | ⟨rfl, rfl, rfl⟩ | ⟨rfl, rfl, rfl⟩ | ⟨rfl, rfl, rfl⟩ | ⟨rfl, rfl, rfl⟩ :=
    hσ.of_isNumeric ht <;>
  obtain ⟨rfl, rfl, rfl⟩ | ⟨rfl, rfl, rfl⟩ | ⟨rfl, rfl, rfl⟩ | ⟨rfl, rfl, rfl⟩ | ⟨rfl, rfl, rfl⟩ :=
    hτ.of_isNumeric ht' <;>
  decide

@[simp] theorem wide_leftOperand {op : BinOp} : (f.leftOperand op e c).Wide Γ ↔ c.Wide Γ := by
  unfold leftOperand
  split <;> simp

/-- An operator that is emitted as it stands computes a `long long` exactly if its source keeps
wide. -/
theorem wideNode_infixed_iff {op : BinOp} {l r : Expr} {cl cr : Cpp.Expr}
    (hl : f.sized.Gives Γ l cl) (hr : f.sized.Gives Γ r cr)
    (hs : Shape.plain.Allows op (f.typeOf l) (f.typeOf r)) :
    Cpp.Expr.WideNode Γ op (f.leftOperand op l cl) (f.operand op.precedence true r cr) ↔
      f.WideNode op l r := by
  unfold Cpp.Expr.WideNode WideNode
  refine imp_congr_right fun hring => ?_
  obtain ⟨σ, hσ, hσfits⟩ := hl
  obtain ⟨τ, hτ, hτfits⟩ := hr
  have hright := (type?_operand (f := f) (e := r) op.precedence true).trans hτ.type
  have hint : (f.leftOperand op l cl).IsInt Γ ↔ σ.value.ty? = some .int := by
    rw [Cpp.Expr.IsInt, hσ.type?_leftOperand, Option.bind_some]
  have hint' : (f.operand op.precedence true r cr).IsInt Γ ↔ τ.ty? = some .int := by
    rw [Cpp.Expr.IsInt, hright, Option.bind_some]
  have hcomparison := (BinOp.of_isRing hring).2.1
  rw [hint, hint', Cpp.Expr.type?_binary (hσ.type?_leftOperand op) hright,
    operator?_of_plain hs hσ.holds hτ.holds, Option.some.injEq, Shape.result, hcomparison]
  by_cases hnum : (f.typeOf l).isNumeric = true ∧ (f.typeOf r).isNumeric = true
  · have hσnum := hσ.holds.isArithmetic_iff.2 hnum.1
    have htext : ¬σ.isTextual = true := by
      cases σ <;> first | decide | cases hσnum
    rw [if_neg Bool.false_ne_true, if_neg htext, ExprTy.value_of_isArithmetic hσnum]
    exact wideNode_iff_of_fits hσfits hτfits hnum.1 hnum.2
  · -- Text is no integer, on either side.
    obtain ⟨-, hop⟩ := hs.2.resolve_left hnum
    have hstr := (hop.resolve_left (by simp [hcomparison])).2
    rw [ExprTy.value_of_isTextual (hσ.holds.isTextual_iff.2 hstr)]
    refine iff_of_true (fun htext => ?_) fun hlint => ?_
    · cases htext
    · rw [hstr] at hlint
      cases hlint

/-- An operator node is wide exactly if its source and its operands are. -/
theorem wide_combined_iff {op : BinOp} {l r : Expr} {cl cr : Cpp.Expr} {sh : Shape}
    (hl : f.sized.Gives Γ l cl) (hr : f.sized.Gives Γ r cr)
    (hs : shape? op (f.typeOf l) (f.typeOf r) = some sh) :
    (f.combined op l r cl cr sh).Wide Γ ↔ f.WideNode op l r ∧ cl.Wide Γ ∧ cr.Wide Γ := by
  have hallows := allows_of_shape? hs
  -- All shapes but one leave integers alone: their operator or their operands are others.
  have hnode : sh ≠ .plain → f.WideNode op l r := by
    intro hplain hring hlint hrint
    rw [hlint, hrint] at hs
    cases op <;> first | (cases hring; done) | (cases hs; exact absurd rfl hplain)
  cases sh with
  | plain =>
    rw [combined, infixed_eq, Cpp.Expr.wide_binary, wideNode_infixed_iff hl hr hallows,
      wide_leftOperand, wide_operand]
  | logical =>
    rw [and_iff_right (hnode (by decide)), combined, Cpp.Expr.wide_binary_of_not_isRing
      (BinOp.isRing_of_isLogical hallows), wide_condition, wide_condition]
  | quotient =>
    rw [and_iff_right (hnode (by decide)), combined, Cpp.Expr.wide_binary_of_not_isRing rfl,
      Cpp.Expr.wide_cast, wide_operand]
  | floatFloor =>
    rw [and_iff_right (hnode (by decide)), combined, Cpp.Expr.wide_helper, Cpp.Expr.allWide_cons,
      Cpp.Expr.wide_binary_of_not_isRing rfl, wide_operand, wide_operand]
    simp
  | repeatRight =>
    rw [and_iff_right (hnode (by decide)), combined, and_comm]
    simp
  | _ =>
    rw [and_iff_right (hnode (by decide)), combined]
    simp

theorem AllTyped.of_tail {es : List Expr} (h : f.AllTyped es) : f.AllTyped es.tail :=
  fun e he => h e (List.mem_of_mem_tail he)

mutual

/-- Emitted arithmetic is wide exactly if its source keeps wide. Whether the expression itself has a
value does not matter. -/
theorem Emits.wide_iff (hΓ : Γ.Allow f) : ∀ {e : Expr} {c : Cpp.Expr}, f.Emits e c →
    f.AllTyped e.parts.tail → (c.Wide Γ ↔ f.KeepsWide e.parts)
  | _, _, .int _, _ | _, _, .float _, _ | _, _, .str _, _ | _, _, .bool _, _
  | _, _, .var _, _ => by
    simp [KeepsWide, Expr.parts]
  | _, _, @Emits.binary _ op l r _ _ _ hs hl hr, hv => by
    obtain ⟨hvl, hvr⟩ : f.AllTyped l.parts ∧ f.AllTyped r.parts := AllTyped.append hv
    have hdeclared := declared_sized hΓ
    rw [wide_combined_iff (hl.gives hdeclared hvl) (hr.gives hdeclared hvr) hs,
      hl.wide_iff hΓ hvl.of_tail, hr.wide_iff hΓ hvr.of_tail, Expr.parts, keepsWide_binary,
      keepsWide_append]
  | _, _, @Emits.not _ e c h, hv => by
    rw [Expr.parts, keepsWide_cons rfl, ← h.wide_iff hΓ (AllTyped.of_tail hv)]
    split <;> simp
  | _, _, @Emits.sign _ op e c _ _ h, hv => by
    rw [Expr.parts, keepsWide_cons rfl, ← h.wide_iff hΓ (AllTyped.of_tail hv)]
    simp
  | _, _, .list _ h, hv => by
    rw [Expr.parts, keepsWide_cons rfl, Cpp.Expr.wide_vector]
    exact h.wide_iff hΓ hv
  | _, _, @Emits.index _ target position _ _ _ ht hi, hv => by
    obtain ⟨hvt, hvi⟩ : f.AllTyped target.parts ∧ f.AllTyped position.parts := AllTyped.append hv
    rw [Expr.parts, keepsWide_cons rfl, keepsWide_append, ← ht.wide_iff hΓ hvt.of_tail,
      ← hi.wide_iff hΓ hvi.of_tail]
    split <;> simp
  | _, _, .emptyText, _ => by simp [KeepsWide, Expr.parts, Expr.partsOf]
  | _, _, @Emits.text _ arg _ h, hv => by
    obtain ⟨hv, -⟩ : f.AllTyped arg.parts ∧ f.AllTyped [] := AllTyped.append hv
    rw [Expr.parts, keepsWide_cons rfl, Expr.partsOf, Expr.partsOf, List.append_nil,
      ← h.wide_iff hΓ hv.of_tail]
    simp
  | _, _, .call _ hps hargs, hv => by
    obtain ⟨-, -, -, hlen⟩ := length_of_calleeParams hps
    rw [Expr.parts, keepsWide_cons rfl, Cpp.Expr.wide_call]
    exact hargs.wide_iff hΓ (Nat.le_of_eq hlen.symm) hv
  | _, _, .len _ h, hv => by
    rw [Expr.parts, keepsWide_cons rfl, ← h.wide_iff hΓ (AllTyped.of_tail hv)]
    simp
  | _, _, @Emits.range _ start stop step cstart cstop cstep hstart hstop hstep, hv => by
    obtain ⟨hvstart, hv⟩ : f.AllTyped start.parts ∧
        f.AllTyped (Expr.partsOfOption stop ++ Expr.partsOfOption step) := AllTyped.append hv
    obtain ⟨hvstop, hvstep⟩ := hv.append
    have hstride : (cstep.getD (.int 1)).Wide Γ ↔ f.KeepsWide (Expr.partsOfOption step) := by
      rw [← hstep.wide_iff hΓ hvstep]
      cases cstep <;> simp
    rw [Expr.parts, keepsWide_cons rfl, keepsWide_append, keepsWide_append,
      ← hstart.wide_iff hΓ hvstart.of_tail, ← hstop.wide_iff hΓ hvstop, ← hstride]
    cases cstop <;> simp

theorem EmitsAll.wide_iff (hΓ : Γ.Allow f) : ∀ {es : List Expr} {cs : List Cpp.Expr},
    f.EmitsAll es cs → f.AllTyped (Expr.partsOf es) →
    (Cpp.Expr.AllWide Γ cs ↔ f.KeepsWide (Expr.partsOf es))
  | _, _, .nil, _ => by simp [Expr.partsOf]
  | _, _, .cons he hes, hv => by
    obtain ⟨hve, hves⟩ := hv.append
    rw [Cpp.Expr.allWide_cons, he.wide_iff hΓ hve.of_tail, hes.wide_iff hΓ hves, Expr.partsOf,
      keepsWide_append]

theorem EmitsOption.wide_iff (hΓ : Γ.Allow f) : ∀ {e : Option Expr} {c : Option Cpp.Expr},
    f.EmitsOption e c → f.AllTyped (Expr.partsOfOption e) →
    ((∀ c' ∈ c, c'.Wide Γ) ↔ f.KeepsWide (Expr.partsOfOption e))
  | _, _, .absent, _ => by simp [Expr.partsOfOption]
  | _, _, .present he, hv => by
    rw [Expr.partsOfOption, ← he.wide_iff hΓ (AllTyped.of_tail hv)]
    simp

theorem EmitsArgs.wide_iff (hΓ : Γ.Allow f) : ∀ {args : List Expr} {name : String}
    {ps : List Param} {cs : List Cpp.Expr}, f.EmitsArgs name ps args cs → args.length ≤ ps.length →
    f.AllTyped (Expr.partsOf args) →
    (Cpp.Expr.AllWide Γ cs ↔ f.KeepsWide (Expr.partsOf args))
  | _, _, _, _, .done, _, _ => by simp [Expr.partsOf]
  | [], _, _, _, .surplus, _, _ => by simp [Expr.partsOf]
  | _ :: _, _, _, _, .surplus, hlen, _ => by simp at hlen
  | _, _, _, _, .next _ h hargs, hlen, hv => by
    obtain ⟨hvarg, hvargs⟩ := hv.append
    rw [Cpp.Expr.allWide_cons, wide_argument, h.wide_iff hΓ hvarg.of_tail,
      hargs.wide_iff hΓ (by simpa using hlen) hvargs, Expr.partsOf, keepsWide_append]

end

end Frame

end Braces
