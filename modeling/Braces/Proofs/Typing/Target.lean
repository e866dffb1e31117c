import Braces.Proofs.Grouping.Written

/-!
# Types of target expressions

The rules of the target language for the expressions that are emitted. A literal in quotes is a
pointer to characters, and only a `string` is text with operators of its own: two such pointers can
be compared, but not for what they point at, and they cannot be added. Arithmetic on truth values
and characters gives integers. Functions have the types they are declared with, and take what
converts to the types of their parameters; where there are several of one name, the types of the
arguments choose. A number that is not finite is spelled by a name that is not declared, and has no
type.
-/

namespace Braces

namespace Ty

/-- The types of values. -/
def isValue : Ty → Bool
  | bool | int | float | str | list => true
  | void | unknown => false

variable {t t' : Ty}

theorem arithmetic_of_float (ht : t.isNumeric = true) (ht' : t'.isNumeric = true)
    (hfloat : t = float ∨ t' = float) : arithmetic t t' = float := by
  obtain rfl | rfl := hfloat
  · cases t' <;> first | rfl | cases ht'
  · cases t <;> first | rfl | cases ht

theorem arithmetic_of_not_float (ht : t.isNumeric = true) (ht' : t'.isNumeric = true)
    (hvalue : t.isValue = true) (hvalue' : t'.isValue = true) (hfloat : ¬(t = float ∨ t' = float)) :
    arithmetic t t' = int := by
  cases t <;> cases t' <;> simp_all [isNumeric, isValue, arithmetic]

/-- Repeating a sequence gives one of its kind, on whichever side it stands. -/
theorem arithmetic_of_sequence (ht : t.isSequence = true) (ht' : t'.isCount = true) :
    arithmetic t t' = t ∧ arithmetic t' t = t := by
  cases t <;> cases t' <;> first | exact ⟨rfl, rfl⟩ | (cases ht; done) | cases ht'

end Ty

namespace Cpp

inductive ExprTy where
  | bool | int | longLong | double | char
  /-- A pointer to characters, as literals are. -/
  | chars
  /-- `string`. -/
  | text
  /-- `vector<long long>`. -/
  | vector
  deriving DecidableEq, Repr

namespace ExprTy

def isIntegral : ExprTy → Bool
  | bool | int | longLong | char => true
  | _ => false

def isArithmetic : ExprTy → Bool
  | double => true
  | τ => τ.isIntegral

/-- Types that convert to a truth value where one is asked for. -/
def isScalar : ExprTy → Bool
  | chars => true
  | τ => τ.isArithmetic

def isTextual : ExprTy → Bool
  | chars | text => true
  | _ => false

/-- The type of arithmetic on two operands. -/
def promote (σ τ : ExprTy) : ExprTy :=
  if σ = double ∨ τ = double then double
  else if σ = longLong ∨ τ = longLong then longLong
  else int

/-- The source type of a value. -/
def ty? : ExprTy → Option Ty
  | bool => some .bool
  | int | longLong => some .int
  | double => some .float
  | chars | text => some .str
  | vector => some .list
  | char => none

/-- The type that a value of a source type is declared with. -/
def ofTy? : Ty → Option ExprTy
  | .bool => some bool
  | .int => some longLong
  | .float => some double
  | .str => some text
  | .list => some vector
  | .void | .unknown => none

/-- The type of an operator on operands of these types. -/
def operator? (op : BinOp) (σ τ : ExprTy) : Option ExprTy :=
  match op with
  | .or | .and => if σ.isScalar ∧ τ.isScalar then some bool else none
  | .equal | .notEqual | .lessThan | .lessEqual | .greaterThan | .greaterEqual =>
    if σ.isArithmetic ∧ τ.isArithmetic ∨ σ.isTextual ∧ τ.isTextual ∨ σ = vector ∧ τ = vector then
      some bool
    else none
  | .add =>
    if σ.isArithmetic ∧ τ.isArithmetic then some (σ.promote τ)
    else if σ = text ∧ (τ.isTextual ∨ τ = char) ∨ τ = text ∧ (σ.isTextual ∨ σ = char) then some text
    else none
  | .sub | .mul | .div | .floorDiv =>
    if σ.isArithmetic ∧ τ.isArithmetic then some (σ.promote τ) else none
  | .mod => if σ.isIntegral ∧ τ.isIntegral then some (σ.promote τ) else none

def sign? (op : UnOp) (τ : ExprTy) : Option ExprTy :=
  match op with
  | .not => if τ.isScalar then some bool else none
  | .plus | .neg => if τ.isArithmetic then some (τ.promote τ) else none

end ExprTy

/-- The type of a call of the prelude or the library. Numbers of all types convert to one
another. -/
def Helper.result? : Helper → List ExprTy → Option ExprTy
  | .str, [_] => some .text
  | .floorDiv, [σ, τ] | .mod, [σ, τ] =>
    if σ.isArithmetic ∧ τ.isArithmetic then some .longLong else none
  | .fmod, [σ, τ] => if σ.isArithmetic ∧ τ.isArithmetic then some .double else none
  | .floor, [τ] => if τ.isArithmetic then some .double else none
  | .truthy, [τ] => if τ.isTextual ∨ τ = .vector then some .bool else none
  | .concat, [σ, τ] => if σ = .vector ∧ τ = .vector then some .vector else none
  | .repeated, [σ, τ] =>
    if τ.isArithmetic then
      if σ.isTextual then some .text else if σ = .vector then some .vector else none
    else none
  | .index, [σ, τ] =>
    if τ.isArithmetic then
      if σ = .text then some .char else if σ = .vector then some .longLong else none
    else none
  | .step, [τ] => if τ.isArithmetic then some .longLong else none
  | .lvalue, [τ] => some τ
  | .range, [ρ, σ, τ] =>
    if ρ.isArithmetic ∧ σ.isArithmetic ∧ τ.isArithmetic then some .vector else none
  | _, _ => none

/-- The type of a value that is made from others. -/
def constructed? : Ty → List ExprTy → Option ExprTy
  | .str, [] => some .text
  | .str, [τ] => if τ.isTextual then some .text else none
  | .str, [σ, τ] => if σ.isArithmetic ∧ τ = .char then some .text else none
  | _, _ => none

def cast? : Ty → ExprTy → Option ExprTy
  | .int, τ => if τ.isArithmetic then some .longLong else none
  | .float, τ => if τ.isArithmetic then some .double else none
  | _, _ => none

/-- The declared types of variables and of the results of functions. -/
structure Declarations where
  varTy : Name → Option ExprTy
  resultTy : String → Option ExprTy

namespace Expr

mutual

/-- The type of an expression, if it has one. Elements in braces have none by themselves. -/
def type? (Γ : Declarations) : Expr → Option ExprTy
  | .int n => some (if -2147483648 ≤ n ∧ n ≤ 2147483647 then .int else .longLong)
  | .float x => if x.isFinite then some .double else none
  | .str _ => some .chars
  | .bool _ => some .bool
  | .var name => Γ.varTy name
  | .binary op l r => do ExprTy.operator? op (← type? Γ l) (← type? Γ r)
  | .unary op e => do ExprTy.sign? op (← type? Γ e)
  | .group e => type? Γ e
  | .helper h args => do h.result? (← types? Γ args)
  | .call function args => do
    let _ ← types? Γ args
    Γ.resultTy function
  | .construct ty args => do constructed? ty (← types? Γ args)
  | .cast ty e => do cast? ty (← type? Γ e)
  | .size e => do
    let τ ← type? Γ e
    if τ = .text ∨ τ = .vector then some .longLong else none
  | .vector elements => do
    let τs ← types? Γ elements
    if τs.all (·.isIntegral) then some .vector else none
  | .braces _ => none
  | .choose cond yes no => do
    let γ ← type? Γ cond
    let σ ← type? Γ yes
    let τ ← type? Γ no
    if γ.isScalar ∧ σ = τ then some σ else none

def types? (Γ : Declarations) : List Expr → Option (List ExprTy)
  | [] => some []
  | e :: es => do
    let τ ← type? Γ e
    return τ :: (← types? Γ es)

end

mutual

/-- An expression and all those within it. -/
def parts : Expr → List Expr
  | .binary op l r => .binary op l r :: (l.parts ++ r.parts)
  | .unary op e => .unary op e :: e.parts
  | .group e => .group e :: e.parts
  | .helper h args => .helper h args :: partsOf args
  | .call function args => .call function args :: partsOf args
  | .construct ty args => .construct ty args :: partsOf args
  | .cast ty e => .cast ty e :: e.parts
  | .size e => .size e :: e.parts
  | .vector elements => .vector elements :: partsOf elements
  | .braces elements => .braces elements :: partsOf elements
  | .choose cond yes no => .choose cond yes no :: (cond.parts ++ (yes.parts ++ no.parts))
  | .int n => [.int n]
  | .float x => [.float x]
  | .str s => [.str s]
  | .bool b => [.bool b]
  | .var name => [.var name]

def partsOf : List Expr → List Expr
  | [] => []
  | e :: es => e.parts ++ partsOf es

end

end Expr

namespace ExprTy

/-- Whether what holds values of a source type may be declared with a target type. -/
def Declares (τ : ExprTy) (t : Ty) : Prop := τ.ty? = some t ∧ τ ≠ .chars

/-- A target type has room for the values of a source type. Integers may have either width, and what
holds fractions may be a counter. -/
def Holds (τ : ExprTy) : Ty → Prop
  | .bool => τ = bool
  | .int => τ = int ∨ τ = longLong
  | .float => τ = double ∨ τ = longLong
  | .str => τ.isTextual = true
  | .list => τ = vector
  | .void | .unknown => False

variable {σ τ : ExprTy} {t t' : Ty}

theorem isArithmetic_of_isIntegral (h : τ.isIntegral = true) : τ.isArithmetic = true := by
  cases τ <;> first | rfl | cases h

theorem holds_of_ty? (h : τ.ty? = some t) : τ.Holds t := by
  cases τ <;> cases h <;> first | rfl | exact .inl rfl | exact .inr rfl

namespace Holds

theorem isValue (h : τ.Holds t) : t.isValue = true := by
  cases t <;> first | rfl | cases h

/-- Numbers, and nothing else, are held as numbers. -/
theorem isArithmetic_iff (h : τ.Holds t) : τ.isArithmetic = true ↔ t.isNumeric = true := by
  cases t with
  | bool | list => cases h; decide
  | int | float => obtain rfl | rfl := h <;> decide
  | str =>
    have htext : τ.isTextual = true := h
    cases τ <;> first | decide | cases htext
  | void | unknown => cases h

theorem isIntegral (h : τ.Holds t) (ht : t.isCount = true) : τ.isIntegral = true := by
  cases t with
  | bool => cases h; rfl
  | int => obtain rfl | rfl := h <;> rfl
  | _ => first | (cases ht; done) | cases h

theorem isTextual_iff (h : τ.Holds t) : τ.isTextual = true ↔ t = .str := by
  cases t with
  | bool | list => cases h; decide
  | int | float => obtain rfl | rfl := h <;> decide
  | str => exact iff_of_true h rfl
  | void | unknown => cases h

theorem eq_vector (h : τ.Holds .list) : τ = vector := h

theorem eq_text (h : τ.Holds .str) (hne : τ ≠ .chars) : τ = text := by
  have htext : τ.isTextual = true := h
  cases τ <;> first | rfl | exact absurd rfl hne | cases htext

/-- What is no sequence is a number. -/
theorem isArithmetic_of_not_isSequence (h : τ.Holds t) (ht : t.isSequence = false) :
    τ.isArithmetic = true := by
  have hvalue := h.isValue
  rw [h.isArithmetic_iff]
  cases t <;> first | rfl | (cases ht; done) | cases hvalue

end Holds

theorem promote_ne_chars : σ.promote τ ≠ .chars := by
  rw [promote]
  split_ifs <;> decide

theorem isArithmetic_promote : (σ.promote τ).isArithmetic = true := by
  rw [promote]
  split_ifs <;> rfl

/-- Arithmetic on numbers has the type that inference gives it. -/
theorem ty?_promote (hσ : σ.ty? = some t) (hτ : τ.ty? = some t') (ht : t.isNumeric = true)
    (ht' : t'.isNumeric = true) : (σ.promote τ).ty? = some (.arithmetic t t') := by
  cases σ <;> cases hσ <;> cases τ <;> cases hτ <;> first | rfl | (cases ht; done) | cases ht'

/-- Operators on equal types compare, and those on text also join. -/
theorem operator?_of_textual {op : BinOp} (hop : op.isComparison = true ∨ op = .add)
    (hτ : τ.isTextual = true) :
    operator? op .text τ = some (if op = .add then .text else .bool) := by
  obtain hop | rfl := hop
  · cases op <;> first | (cases hop; done) | (cases τ <;> first | rfl | cases hτ)
  · cases τ <;> first | rfl | cases hτ

theorem operator?_of_logical {op : BinOp} (hop : op.isLogical = true) (hσ : σ.isArithmetic = true)
    (hτ : τ.isArithmetic = true) : operator? op σ τ = some .bool := by
  have hscalar : ∀ {ρ : ExprTy}, ρ.isArithmetic = true → ρ.isScalar = true := by
    intro ρ hρ
    cases ρ <;> first | rfl | cases hρ
  cases op <;> first | (cases hop; done) | simp [operator?, hscalar hσ, hscalar hτ]

theorem operator?_vector {op : BinOp} (hop : op.isComparison = true) :
    operator? op .vector .vector = some .bool := by
  cases op <;> first | rfl | cases hop

theorem operator?_of_arithmetic (op : BinOp) (hop : op.isLogical = false) (hmod : op ≠ .mod)
    (hσ : σ.isArithmetic = true) (hτ : τ.isArithmetic = true) :
    operator? op σ τ = some (if op.isComparison then .bool else σ.promote τ) := by
  cases op <;>
    first
      | (cases hop; done)
      | exact absurd rfl hmod
      | simp [operator?, hσ, hτ, BinOp.isComparison]

end ExprTy

namespace Expr

/-- An operator on text finds a `string` on its left. -/
def TextOnLeft (Γ : Declarations) : Expr → Prop
  | .binary op l r => op = .add ∨ op.isComparison = true →
      (l.type? Γ).any (·.isTextual) = true ∨ (r.type? Γ).any (·.isTextual) = true →
      l.type? Γ = some .text
  | _ => True

/-- The operands of logical operators are numbers or truth values. -/
def DecidesNumbers (Γ : Declarations) : Expr → Prop
  | .binary op l r => op.isLogical = true →
      (l.type? Γ).any (·.isArithmetic) = true ∧ (r.type? Γ).any (·.isArithmetic) = true
  | .unary op e => op = .not → (e.type? Γ).any (·.isArithmetic) = true
  | _ => True

/-- The expression has a type. -/
def Typable (Γ : Declarations) (e : Expr) : Prop := (e.type? Γ).isSome = true

/-- In whatever has a type, text and conditions are what operators ask for. -/
def Sound (Γ : Declarations) (e : Expr) : Prop :=
  ∀ e' ∈ e.parts, e'.Typable Γ → e'.TextOnLeft Γ ∧ e'.DecidesNumbers Γ

def AllSound (Γ : Declarations) (es : List Expr) : Prop :=
  ∀ e' ∈ partsOf es, e'.Typable Γ → e'.TextOnLeft Γ ∧ e'.DecidesNumbers Γ

section
variable {Γ : Declarations} {e : Expr} {es : List Expr}

theorem type?_binary {op : BinOp} {l r : Expr} {σ τ : ExprTy} (hl : l.type? Γ = some σ)
    (hr : r.type? Γ = some τ) : (binary op l r).type? Γ = ExprTy.operator? op σ τ := by
  change (do ExprTy.operator? op (← l.type? Γ) (← r.type? Γ)) = _
  rw [hl, hr]
  rfl

theorem type?_unary {op : UnOp} {τ : ExprTy} (h : e.type? Γ = some τ) :
    (unary op e).type? Γ = ExprTy.sign? op τ := by
  change (do ExprTy.sign? op (← e.type? Γ)) = _
  rw [h]
  rfl

theorem types?_cons {τ : ExprTy} {τs : List ExprTy} (h : e.type? Γ = some τ)
    (hs : types? Γ es = some τs) : types? Γ (e :: es) = some (τ :: τs) := by
  change (do return (← e.type? Γ) :: (← types? Γ es)) = _
  rw [h, hs]
  rfl

theorem type?_helper {helper : Helper} {τs : List ExprTy} (h : types? Γ es = some τs) :
    (Expr.helper helper es).type? Γ = helper.result? τs := by
  change (do helper.result? (← types? Γ es)) = _
  rw [h]
  rfl

theorem type?_helper_one {helper : Helper} {τ : ExprTy} (h : e.type? Γ = some τ) :
    (Expr.helper helper [e]).type? Γ = helper.result? [τ] :=
  type?_helper (types?_cons h rfl)

theorem type?_helper_two {helper : Helper} {l r : Expr} {σ τ : ExprTy} (hl : l.type? Γ = some σ)
    (hr : r.type? Γ = some τ) : (Expr.helper helper [l, r]).type? Γ = helper.result? [σ, τ] :=
  type?_helper (types?_cons hl (types?_cons hr rfl))

theorem type?_cast {ty : Ty} {τ : ExprTy} (h : e.type? Γ = some τ) :
    (cast ty e).type? Γ = cast? ty τ := by
  change (do cast? ty (← e.type? Γ)) = _
  rw [h]
  rfl

/-- Text made from a literal. -/
theorem type?_construct_str {τ : ExprTy} (h : e.type? Γ = some τ) (hτ : τ.isTextual = true) :
    (construct .str [e]).type? Γ = some .text := by
  simp [type?, types?, h, constructed?, hτ]

/-! ### Parts that have a type -/

theorem Typable.exists (h : e.Typable Γ) : ∃ τ, e.type? Γ = some τ := Option.isSome_iff_exists.1 h

theorem typable_of_type? {τ : ExprTy} (h : e.type? Γ = some τ) : e.Typable Γ :=
  Option.isSome_iff_exists.2 ⟨τ, h⟩

theorem Typable.of_bind {α β : Type} {x : Option α} {f : α → Option β}
    (h : (x >>= f).isSome = true) :
    x.isSome = true := by
  cases x with
  | none => cases h
  | some a => rfl

theorem typable_of_types? : ∀ {es : List Expr}, (types? Γ es).isSome = true → ∀ e ∈ es, e.Typable Γ
  | [], _ => nofun
  | e :: es, h => by
    refine List.forall_mem_cons.2 ⟨Typable.of_bind h, typable_of_types? ?_⟩
    obtain ⟨τ, hτ⟩ := Option.isSome_iff_exists.1 (Typable.of_bind h)
    rw [types?, hτ] at h
    exact Typable.of_bind h

/-- The operands of what has a type have types. -/
theorem Typable.binary {op : BinOp} {l r : Expr} (h : (binary op l r).Typable Γ) :
    l.Typable Γ ∧ r.Typable Γ := by
  have hl : l.Typable Γ := Typable.of_bind h
  obtain ⟨σ, hσ⟩ := hl.exists
  rw [Typable, type?, hσ] at h
  exact ⟨hl, Typable.of_bind h⟩

theorem Typable.unary {op : UnOp} (h : (unary op e).Typable Γ) : e.Typable Γ := of_bind h

theorem Typable.cast {ty : Ty} (h : (cast ty e).Typable Γ) : e.Typable Γ := of_bind h

theorem Typable.size (h : (size e).Typable Γ) : e.Typable Γ := of_bind h

theorem Typable.helper {helper : Helper} (h : (Expr.helper helper es).Typable Γ) :
    ∀ e ∈ es, e.Typable Γ :=
  typable_of_types? (of_bind h)

theorem Typable.call {function : String} (h : (call function es).Typable Γ) :
    ∀ e ∈ es, e.Typable Γ :=
  typable_of_types? (of_bind h)

theorem Typable.construct {ty : Ty} (h : (construct ty es).Typable Γ) : ∀ e ∈ es, e.Typable Γ :=
  typable_of_types? (of_bind h)

theorem Typable.vector (h : (vector es).Typable Γ) : ∀ e ∈ es, e.Typable Γ :=
  typable_of_types? (of_bind h)

theorem Typable.choose {cond yes no : Expr} (h : (choose cond yes no).Typable Γ) :
    cond.Typable Γ ∧ yes.Typable Γ ∧ no.Typable Γ := by
  have hcond : cond.Typable Γ := of_bind h
  obtain ⟨γ, hγ⟩ := hcond.exists
  rw [Typable, type?, hγ] at h
  have hyes : yes.Typable Γ := of_bind h
  obtain ⟨σ, hσ⟩ := hyes.exists
  rw [hσ] at h
  exact ⟨hcond, hyes, of_bind h⟩

mutual

/-- Within what has a type, everything has one. -/
theorem Typable.of_mem_parts : ∀ {e : Expr}, e.Typable Γ → ∀ e' ∈ e.parts, e'.Typable Γ
  | .int _, h | .float _, h | .str _, h | .bool _, h | .var _, h => List.forall_mem_singleton.2 h
  | .binary _ _ _, h =>
    List.forall_mem_cons.2 ⟨h, List.forall_mem_append.2
      ⟨Typable.of_mem_parts h.binary.1, Typable.of_mem_parts h.binary.2⟩⟩
  | .unary _ _, h => List.forall_mem_cons.2 ⟨h, Typable.of_mem_parts h.unary⟩
  | .group e, h => List.forall_mem_cons.2 ⟨h, Typable.of_mem_parts (show e.Typable Γ from h)⟩
  | .helper _ _, h => List.forall_mem_cons.2 ⟨h, typable_of_mem_partsOf h.helper⟩
  | .call _ _, h => List.forall_mem_cons.2 ⟨h, typable_of_mem_partsOf h.call⟩
  | .construct _ _, h => List.forall_mem_cons.2 ⟨h, typable_of_mem_partsOf h.construct⟩
  | .cast _ _, h => List.forall_mem_cons.2 ⟨h, Typable.of_mem_parts h.cast⟩
  | .size _, h => List.forall_mem_cons.2 ⟨h, Typable.of_mem_parts h.size⟩
  | .vector _, h => List.forall_mem_cons.2 ⟨h, typable_of_mem_partsOf h.vector⟩
  | .braces _, h => by cases h
  | .choose _ _ _, h =>
    List.forall_mem_cons.2 ⟨h, List.forall_mem_append.2 ⟨Typable.of_mem_parts h.choose.1,
      List.forall_mem_append.2
        ⟨Typable.of_mem_parts h.choose.2.1, Typable.of_mem_parts h.choose.2.2⟩⟩⟩

theorem typable_of_mem_partsOf : ∀ {es : List Expr}, (∀ e ∈ es, e.Typable Γ) →
    ∀ e' ∈ partsOf es, e'.Typable Γ
  | [], _ => nofun
  | _ :: _, h =>
    List.forall_mem_append.2 ⟨Typable.of_mem_parts (List.forall_mem_cons.1 h).1,
      typable_of_mem_partsOf (List.forall_mem_cons.1 h).2⟩

end

/-! ### Soundness -/

theorem AllSound.nil : AllSound Γ [] := nofun

theorem AllSound.cons (he : e.Sound Γ) (hes : AllSound Γ es) : AllSound Γ (e :: es) := by
  intro e' h
  obtain h | h := List.mem_append.mp h
  · exact he e' h
  · exact hes e' h

theorem AllSound.pair {l r : Expr} (hl : l.Sound Γ) (hr : r.Sound Γ) : AllSound Γ [l, r] :=
  .cons hl (.cons hr .nil)

theorem sound_binary {op : BinOp} {l r : Expr}
    (hnode : (binary op l r).Typable Γ →
      (binary op l r).TextOnLeft Γ ∧ (binary op l r).DecidesNumbers Γ)
    (hl : l.Sound Γ) (hr : r.Sound Γ) : (binary op l r).Sound Γ := by
  refine List.forall_mem_cons.mpr ⟨hnode, fun e' h => ?_⟩
  obtain h | h := List.mem_append.mp h
  · exact hl e' h
  · exact hr e' h

theorem sound_unary {op : UnOp} (hnode : (unary op e).Typable Γ → (unary op e).DecidesNumbers Γ)
    (h : e.Sound Γ) : (unary op e).Sound Γ :=
  List.forall_mem_cons.mpr ⟨fun htypable => ⟨trivial, hnode htypable⟩, h⟩

theorem sound_leaf (hparts : e.parts = [e]) (hnode : e.TextOnLeft Γ ∧ e.DecidesNumbers Γ) :
    e.Sound Γ := by
  rw [Sound, hparts]
  exact List.forall_mem_singleton.mpr fun _ => hnode

theorem sound_cast {ty : Ty} (h : e.Sound Γ) : (cast ty e).Sound Γ :=
  List.forall_mem_cons.mpr ⟨fun _ => ⟨trivial, trivial⟩, h⟩

theorem sound_size (h : e.Sound Γ) : (size e).Sound Γ :=
  List.forall_mem_cons.mpr ⟨fun _ => ⟨trivial, trivial⟩, h⟩

theorem sound_group (h : e.Sound Γ) : (group e).Sound Γ :=
  List.forall_mem_cons.mpr ⟨fun _ => ⟨trivial, trivial⟩, h⟩

theorem sound_helper {helper : Helper} (h : AllSound Γ es) : (Expr.helper helper es).Sound Γ :=
  List.forall_mem_cons.mpr ⟨fun _ => ⟨trivial, trivial⟩, h⟩

theorem sound_call {function : String} (h : AllSound Γ es) : (call function es).Sound Γ :=
  List.forall_mem_cons.mpr ⟨fun _ => ⟨trivial, trivial⟩, h⟩

theorem sound_construct {ty : Ty} (h : AllSound Γ es) : (construct ty es).Sound Γ :=
  List.forall_mem_cons.mpr ⟨fun _ => ⟨trivial, trivial⟩, h⟩

theorem sound_vector (h : AllSound Γ es) : (vector es).Sound Γ :=
  List.forall_mem_cons.mpr ⟨fun _ => ⟨trivial, trivial⟩, h⟩

end

end Expr

end Cpp

end Braces
