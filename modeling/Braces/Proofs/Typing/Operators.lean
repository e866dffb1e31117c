import Braces.Proofs.Emission.Expr
import Braces.Proofs.Typing.Target

/-!
# The types of emitted operators

Each shape in which an operator node is emitted has, by the rules of the target language, a type
that follows from the types of the operands. Only a literal is a pointer, and where it stands to the
left of an operator it is made a value first.
-/

namespace Braces

/-- Sums, differences and products. -/
def BinOp.isRing : BinOp → Bool
  | .add | .sub | .mul => true
  | _ => false

namespace BinOp

variable {op : BinOp}

theorem isRing_of_isLogical (h : op.isLogical = true) : op.isRing = false := by
  cases op <;> first | rfl | cases h

theorem isRing_of_isComparison (h : op.isComparison = true) : op.isRing = false := by
  cases op <;> first | rfl | cases h

theorem of_isRing (h : op.isRing = true) :
    op.isLogical = false ∧ op.isComparison = false ∧ op ≠ .mod ∧ op ≠ .div := by
  cases op <;> first | (cases h; done) | exact ⟨rfl, rfl, by decide, by decide⟩

/-- Comparisons, sums, differences and products are operators of the target as they stand. -/
theorem of_isComparison_or_isRing (h : op.isComparison = true ∨ op.isRing = true) :
    op.isLogical = false ∧ op ≠ .mod := by
  cases op <;> simp_all [isComparison, isRing, isLogical]

end BinOp

/-- The value of a pointer to characters is text. -/
def Cpp.ExprTy.value (τ : ExprTy) : ExprTy := if τ = .chars then .text else τ

namespace Cpp.ExprTy

variable {τ : ExprTy} {t : Ty}

theorem value_ne_chars : τ.value ≠ .chars := by
  cases τ <;> decide

theorem value_of_ne (h : τ ≠ .chars) : τ.value = τ := if_neg h

theorem value_of_isTextual (h : τ.isTextual = true) : τ.value = .text := by
  cases τ <;> first | rfl | cases h

theorem value_of_isArithmetic (h : τ.isArithmetic = true) : τ.value = τ := by
  cases τ <;> first | rfl | cases h

theorem Holds.value (h : τ.Holds t) : τ.value.Holds t := by
  by_cases hchars : τ = .chars
  · subst hchars
    obtain rfl := h.isTextual_iff.1 rfl
    rfl
  · rwa [value_of_ne hchars]

end Cpp.ExprTy

namespace Frame

open Cpp (ExprTy Declarations)

variable {Γ : Declarations} {f : Frame} {e : Expr} {c : Cpp.Expr}

/-! ## What was checked -/

theorem of_checkSubscript {target position : Expr}
    (h : f.checkSubscript target position = .ok ()) :
    (f.typeOf target).isIterable = true ∧ (f.typeOf position).isCount = true := by
  unfold checkSubscript at h
  dsimp only at h
  split at h
  · next hiter =>
    refine ⟨hiter, ?_⟩
    unfold checkCount at h
    split at h
    · next hcount => exact hcount
    · cases h
  · cases h

theorem isCount_of_checkElements {es : List Expr} (h : f.checkElements es = .ok ()) :
    ∀ e ∈ es, (f.typeOf e).isCount = true := by
  induction es with
  | nil => exact nofun
  | cons e es ih =>
    obtain ⟨_, he, hes⟩ := exists_of_bind_eq_ok h
    refine List.forall_mem_cons.mpr ⟨?_, ih hes⟩
    replace he : checkElement (f.typeOf e) = .ok _ := he
    unfold checkElement at he
    split at he
    · next hcount => exact hcount
    · cases he

theorem exists_of_calleeParams {name : String} {given : Nat} {ps : List Param}
    (h : f.calleeParams name given = .ok ps) : ∃ s, f.table.signature? name = some s := by
  unfold calleeParams at h
  split at h
  · cases h
  · next s hs => exact ⟨s, hs⟩

/-! ## Operands -/

@[simp] theorem type?_operand (parent : Nat) (right : Bool) :
    (f.operand parent right e c).type? Γ = c.type? Γ := by
  unfold operand
  split <;> rfl

@[simp] theorem type?_atom : (atom e c).type? Γ = c.type? Γ := by
  unfold atom
  split <;> rfl

theorem sound_operand {parent : Nat} {right : Bool} (h : c.Sound Γ) :
    (f.operand parent right e c).Sound Γ := by
  unfold operand
  split
  · exact Cpp.Expr.sound_group h
  · exact h

theorem sound_atom (h : c.Sound Γ) : (atom e c).Sound Γ := by
  unfold atom
  split
  · exact Cpp.Expr.sound_group h
  · exact Cpp.Expr.sound_group h
  · exact h

/-- The left operand of an operator that is emitted as it stands. -/
def leftOperand (f : Frame) (op : BinOp) (l : Expr) (cl : Cpp.Expr) : Cpp.Expr :=
  match l with
  | .str _ => .construct .str [f.operand op.precedence false l cl]
  | _ => f.operand op.precedence false l cl

theorem infixed_eq (op : BinOp) (l r : Expr) (cl cr : Cpp.Expr) :
    f.infixed op l r cl cr =
      .binary op (f.leftOperand op l cl) (f.operand op.precedence true r cr) :=
  rfl

/-- What is emitted for an expression has a type that holds its values, and is a pointer only if it
is a literal. -/
structure HasTy (Γ : Declarations) (f : Frame) (e : Expr) (c : Cpp.Expr) (τ : ExprTy) : Prop where
  type : c.type? Γ = some τ
  holds : τ.Holds (f.typeOf e)
  literal : τ = .chars → ∃ s, e = .str s

namespace HasTy

variable {τ : ExprTy}

/-- A literal becomes text, and all else is a value already. -/
theorem type?_sequence (h : HasTy Γ f e c τ) : (Frame.sequence e c).type? Γ = some τ.value := by
  unfold Frame.sequence
  split
  · next s =>
    have htext : τ.isTextual = true := h.holds
    rw [Cpp.Expr.type?_construct_str h.type htext, ExprTy.value_of_isTextual htext]
  · next hne =>
    rw [type?_atom, h.type, ExprTy.value_of_ne]
    intro hchars
    obtain ⟨s, hs⟩ := h.literal hchars
    exact hne s hs

theorem type?_leftOperand (h : HasTy Γ f e c τ) (op : BinOp) :
    (f.leftOperand op e c).type? Γ = some τ.value := by
  unfold leftOperand
  split
  · next s =>
    have htext : τ.isTextual = true := h.holds
    rw [Cpp.Expr.type?_construct_str ((type?_operand _ _).trans h.type) htext,
      ExprTy.value_of_isTextual htext]
  · next hne =>
    rw [type?_operand, h.type, ExprTy.value_of_ne]
    intro hchars
    obtain ⟨s, hs⟩ := h.literal hchars
    exact hne s hs

/-- A value as a condition is a number. -/
theorem exists_truthy (h : HasTy Γ f e c τ) {c' : Cpp.Expr} (hc' : c'.type? Γ = c.type? Γ) :
    ∃ ρ, (if (f.typeOf e).isSequence then .helper .truthy [c] else c' : Cpp.Expr).type? Γ = some ρ ∧
      ρ.isArithmetic = true := by
  split
  · next hseq =>
    refine ⟨.bool, ?_, rfl⟩
    have hholds := h.holds
    have hmembers : τ.isTextual = true ∨ τ = .vector := by
      cases hte : f.typeOf e <;> rw [hte] at hseq hholds <;> try (cases hseq; done)
      · exact .inl hholds
      · exact .inr hholds
    rw [Cpp.Expr.type?_helper_one h.type, Cpp.Helper.result?, if_pos hmembers]
  · next hseq =>
    rw [Bool.not_eq_true] at hseq
    exact ⟨τ, hc'.trans h.type, h.holds.isArithmetic_of_not_isSequence hseq⟩

end HasTy

/-! ## Operators -/

/-- The type of an operator node. -/
theorem typeOf_binary (op : BinOp) (l r : Expr) :
    f.typeOf (.binary op l r) =
      if op.isComparison || op.isLogical then .bool
      else if op = .div then .float
      else .arithmetic (f.typeOf l) (f.typeOf r) := by
  rw [typeOf, Table.typeOf]
  rfl

theorem typeOf_logical {op : BinOp} (h : op.isLogical = true) (l r : Expr) :
    f.typeOf (.binary op l r) = .bool := by
  rw [typeOf_binary, h, Bool.or_true, if_pos rfl]

theorem typeOf_comparison {op : BinOp} (h : op.isComparison = true) (l r : Expr) :
    f.typeOf (.binary op l r) = .bool := by
  rw [typeOf_binary, h, Bool.true_or, if_pos rfl]

theorem typeOf_ring {op : BinOp} (h : op.isRing = true) (l r : Expr) :
    f.typeOf (.binary op l r) = .arithmetic (f.typeOf l) (f.typeOf r) := by
  obtain ⟨hlogical, hcomparison, -, hdiv⟩ := BinOp.of_isRing h
  rw [typeOf_binary, hlogical, hcomparison, Bool.or_false, if_neg (by simp), if_neg hdiv]

/-- The operators and operand types that have a shape. -/
def Shape.Allows : Shape → BinOp → Ty → Ty → Prop
  | .logical, op, _, _ => op.isLogical = true
  | .plain, op, t, t' =>
    (op.isComparison = true ∨ op.isRing = true) ∧
      (t.isNumeric = true ∧ t'.isNumeric = true ∨
        t' = t ∧ (op.isComparison = true ∨ op = .add ∧ t = .str))
  | .concat, op, t, t' => op = .add ∧ t = .list ∧ t' = .list
  | .repeatLeft, op, t, t' => op = .mul ∧ t.isSequence = true ∧ t'.isCount = true
  | .repeatRight, op, t, t' => op = .mul ∧ t'.isSequence = true ∧ t.isCount = true
  | .quotient, op, t, t' => op = .div ∧ t.isNumeric = true ∧ t'.isNumeric = true
  | .floatFloor, op, t, t' =>
    op = .floorDiv ∧ t.isNumeric = true ∧ t'.isNumeric = true ∧ (t = .float ∨ t' = .float)
  | .floor, op, t, t' =>
    op = .floorDiv ∧ t.isNumeric = true ∧ t'.isNumeric = true ∧ ¬(t = .float ∨ t' = .float)
  | .floatMod, op, t, t' =>
    op = .mod ∧ t.isNumeric = true ∧ t'.isNumeric = true ∧ (t = .float ∨ t' = .float)
  | .mod, op, t, t' =>
    op = .mod ∧ t.isNumeric = true ∧ t'.isNumeric = true ∧ ¬(t = .float ∨ t' = .float)

theorem allows_of_shape? {op : BinOp} {t t' : Ty} {sh : Shape} (h : shape? op t t' = some sh) :
    sh.Allows op t t' := by
  cases op <;> simp only [shape?] at h <;>
    grind [Shape.Allows, BinOp.isLogical, BinOp.isComparison, BinOp.isRing]

/-- The target type of an operator node of a shape, on operands of target types. -/
def Shape.result (sh : Shape) (op : BinOp) (σ τ : ExprTy) : ExprTy :=
  match sh with
  | .logical => .bool
  | .plain =>
    if op.isComparison then .bool else if σ.isTextual then .text else σ.promote τ
  | .concat => .vector
  | .repeatLeft => if σ.isTextual then .text else .vector
  | .repeatRight => if τ.isTextual then .text else .vector
  | .quotient | .floatFloor | .floatMod => .double
  | .floor | .mod => .longLong

theorem Shape.result_ne_chars {sh : Shape} {op : BinOp} {σ τ : ExprTy} :
    sh.result op σ τ ≠ .chars := by
  cases sh <;> simp only [result] <;> try split_ifs
  all_goals first | decide | exact ExprTy.promote_ne_chars

/-- Operators that are emitted as they stand, on types that the source allows them on. -/
theorem operator?_of_plain {op : BinOp} {t t' : Ty} {σ τ : ExprTy} (hs : Shape.plain.Allows op t t')
    (hσ : σ.Holds t) (hτ : τ.Holds t') :
    ExprTy.operator? op σ.value τ = some (Shape.plain.result op σ τ) := by
  obtain ⟨hop, htypes⟩ := hs
  obtain ⟨hlogical, hmod⟩ := BinOp.of_isComparison_or_isRing hop
  rw [Shape.result]
  by_cases hnum : t.isNumeric = true ∧ t'.isNumeric = true
  · have hσnum := hσ.isArithmetic_iff.2 hnum.1
    have htext : σ.isTextual = false := by
      cases σ <;> first | rfl | cases hσnum
    rw [ExprTy.value_of_isArithmetic hσnum,
      ExprTy.operator?_of_arithmetic op hlogical hmod hσnum (hτ.isArithmetic_iff.2 hnum.2), htext]
    rfl
  · obtain ⟨rfl, hop'⟩ := htypes.resolve_left hnum
    have hvalue := hσ.isValue
    obtain rfl | rfl : t' = .str ∨ t' = .list := by
      cases t' <;>
        first
          | exact .inl rfl
          | exact .inr rfl
          | (cases hvalue; done)
          | exact absurd ⟨rfl, rfl⟩ hnum
    · have hσtext : σ.isTextual = true := hσ
      rw [ExprTy.value_of_isTextual hσtext, hσtext,
        ExprTy.operator?_of_textual (hop'.imp_right And.left) hτ]
      obtain hcomparison | ⟨rfl, -⟩ := hop'
      · rw [if_neg (by rintro rfl; cases hcomparison), if_pos hcomparison]
      · rfl
    · obtain rfl := hσ.eq_vector
      obtain rfl := hτ.eq_vector
      obtain hcomparison | ⟨-, hstr⟩ := hop'
      · rw [if_pos hcomparison]
        exact ExprTy.operator?_vector hcomparison
      · cases hstr

/-- Handed a sequence and a count, the helper that repeats gives a sequence of the same kind. -/
theorem result?_repeated {t t' : Ty} {σ τ : ExprTy} (hσ : σ.Holds t) (hτ : τ.Holds t')
    (ht : t.isSequence = true) (ht' : t'.isCount = true) :
    Cpp.Helper.repeated.result? [σ, τ] = some (if σ.isTextual then .text else .vector) := by
  have hnum := ExprTy.isArithmetic_of_isIntegral (hτ.isIntegral ht')
  rw [Cpp.Helper.result?, if_pos hnum]
  cases t <;> try (cases ht; done)
  · have htext : σ.isTextual = true := hσ
    rw [if_pos htext, if_pos htext]
  · cases hσ.eq_vector
    rfl

/-- An operator node has the type of its shape. -/
theorem HasTy.type?_combined {op : BinOp} {l r : Expr} {cl cr : Cpp.Expr}
    {σ τ : ExprTy} {sh : Shape}
    (hl : HasTy Γ f l cl σ) (hr : HasTy Γ f r cr τ) (hs : sh.Allows op (f.typeOf l) (f.typeOf r)) :
    (f.combined op l r cl cr sh).type? Γ = some (sh.result op σ τ) := by
  have hright := fun parent => (type?_operand (f := f) (e := r) parent true).trans hr.type
  have hleft := fun parent => (type?_operand (f := f) (e := l) parent false).trans hl.type
  cases sh with
  | logical =>
    obtain ⟨σ', hσ', hσnum⟩ := hl.exists_truthy (type?_operand op.precedence false)
    obtain ⟨τ', hτ', hτnum⟩ := hr.exists_truthy (type?_operand op.precedence true)
    exact (Cpp.Expr.type?_binary hσ' hτ').trans (ExprTy.operator?_of_logical hs hσnum hτnum)
  | plain =>
    rw [combined, infixed_eq, Cpp.Expr.type?_binary (hl.type?_leftOperand op) (hright _)]
    exact operator?_of_plain hs hl.holds hr.holds
  | concat =>
    obtain ⟨-, hlist, hlist'⟩ := hs
    have hσ : σ = .vector := (hlist ▸ hl.holds : σ.Holds .list).eq_vector
    have hτ : τ = .vector := (hlist' ▸ hr.holds : τ.Holds .list).eq_vector
    rw [combined, Cpp.Expr.type?_helper_two hl.type hr.type, hσ, hτ]
    rfl
  | repeatLeft =>
    rw [combined, Cpp.Expr.type?_helper_two hl.type hr.type]
    exact result?_repeated hl.holds hr.holds hs.2.1 hs.2.2
  | repeatRight =>
    rw [combined, Cpp.Expr.type?_helper_two hr.type hl.type]
    exact result?_repeated hr.holds hl.holds hs.2.1 hs.2.2
  | quotient =>
    obtain ⟨-, hlnum, hrnum⟩ := hs
    have hcast : (Cpp.Expr.cast .float cl).type? Γ = some .double := by
      rw [Cpp.Expr.type?_cast hl.type, Cpp.cast?, if_pos (hl.holds.isArithmetic_iff.2 hlnum)]
    rw [combined, Cpp.Expr.type?_binary hcast (hright _),
      ExprTy.operator?_of_arithmetic .div rfl (by decide) rfl (hr.holds.isArithmetic_iff.2 hrnum)]
    rfl
  | floatFloor =>
    obtain ⟨-, hlnum, hrnum, -⟩ := hs
    have hdiv := @Cpp.Expr.type?_binary _ .div _ _ _ _ (hleft op.precedence) (hright op.precedence)
    rw [ExprTy.operator?_of_arithmetic .div rfl (by decide) (hl.holds.isArithmetic_iff.2 hlnum)
      (hr.holds.isArithmetic_iff.2 hrnum), if_neg (by decide)] at hdiv
    rw [combined, Cpp.Expr.type?_helper_one hdiv, Cpp.Helper.result?,
      if_pos ExprTy.isArithmetic_promote]
    rfl
  | floor | floatMod | mod =>
    obtain ⟨-, hlnum, hrnum, -⟩ := hs
    rw [combined, Cpp.Expr.type?_helper_two hl.type hr.type, Cpp.Helper.result?,
      if_pos ⟨hl.holds.isArithmetic_iff.2 hlnum, hr.holds.isArithmetic_iff.2 hrnum⟩]
    rfl

end Frame

end Braces
