import Braces.Proofs.Agreement

/-!
# How wide emitted integers are

An integer literal that fits 32 bits is an `int`, and so are signs, sums, differences and products
of such literals and of truth values. Everything else that inference takes for an integer is a `long
long`. A value that is narrow in this sense is told by the source alone.
-/

namespace Braces

/-- Whether an expression is made of literals that fit 32 bits and of truth values, by signs, sums,
differences and products. -/
def Frame.narrow (f : Frame) : Expr → Bool
  | .int n => -2147483648 ≤ n ∧ n ≤ 2147483647
  | .unary op e => op = .not || f.narrow e
  | .binary op l r =>
    if op.isRing then f.narrow l && f.narrow r else f.typeOf (.binary op l r) = .bool
  | e => f.typeOf e = .bool

namespace Cpp

/-- A target type is that of a value of a source type. Integers have the width that is told, and
what holds fractions may be a counter. -/
def ExprTy.Fits (τ : ExprTy) (t : Ty) (narrow : Bool) : Prop :=
  match t with
  | .bool => τ = .bool ∧ narrow = true
  | .int => τ = if narrow then .int else .longLong
  | .float => (τ = .double ∨ τ = .longLong) ∧ narrow = false
  | .str => τ.isTextual = true ∧ narrow = false
  | .list => τ = .vector ∧ narrow = false
  | .void | .unknown => False

/-- Variables are declared with the type of their values, or as a counter in place of a fraction. -/
structure Declarations.Allow (Γ : Declarations) (f : Frame) : Prop where
  varTy : ∀ name, (f.varTy name).isValue = true →
    ∃ τ, Γ.varTy (.source name) = some τ ∧ τ ≠ .chars ∧ τ.Fits (f.varTy name) (f.varTy name = .bool)
  resultTy : ∀ name s, f.table.signature? name = some s → s.result.isValue = true →
    Γ.resultTy name = ExprTy.ofTy? s.result

namespace ExprTy.Fits

variable {σ τ : ExprTy} {t t' : Ty} {m n : Bool}

theorem holds (h : τ.Fits t n) : τ.Holds t := by
  cases t with
  | int =>
    cases n with
    | false => exact .inr h
    | true => exact .inl h
  | bool | float | str | list => exact h.1
  | void | unknown => exact h

/-- The target types of numbers. -/
theorem of_isNumeric (h : τ.Fits t n) (ht : t.isNumeric = true) :
    t = .bool ∧ τ = .bool ∧ n = true ∨ t = .int ∧ τ = .int ∧ n = true ∨
      t = .int ∧ τ = .longLong ∧ n = false ∨ t = .float ∧ τ = .double ∧ n = false ∨
      t = .float ∧ τ = .longLong ∧ n = false := by
  cases t <;> cases ht <;> cases n <;> simp_all [Fits]

/-- A sum, difference or product is narrow exactly if both operands are. -/
theorem promote (hσ : σ.Fits t m) (hτ : τ.Fits t' n) (ht : t.isNumeric = true)
    (ht' : t'.isNumeric = true) : (σ.promote τ).Fits (.arithmetic t t') (m && n) := by
  obtain ⟨rfl, rfl, rfl⟩ | ⟨rfl, rfl, rfl⟩ | ⟨rfl, rfl, rfl⟩ | ⟨rfl, rfl, rfl⟩ | ⟨rfl, rfl, rfl⟩ :=
    hσ.of_isNumeric ht <;>
  obtain ⟨rfl, rfl, rfl⟩ | ⟨rfl, rfl, rfl⟩ | ⟨rfl, rfl, rfl⟩ | ⟨rfl, rfl, rfl⟩ | ⟨rfl, rfl, rfl⟩ :=
    hτ.of_isNumeric ht' <;>
  simp [Fits, ExprTy.promote, Ty.arithmetic]

/-- A sequence that is repeated stays one of its kind. -/
theorem repeated (h : τ.Fits t n) (ht : t.isSequence = true) :
    (if τ.isTextual then ExprTy.text else .vector).Fits t false ∧ n = false := by
  cases t <;> first | (cases ht; done) | skip
  · obtain ⟨htext, hn⟩ := h
    rw [if_pos htext]
    exact ⟨⟨rfl, rfl⟩, hn⟩
  · obtain ⟨rfl, hn⟩ := h
    exact ⟨⟨rfl, rfl⟩, hn⟩

/-- A value that is no narrow integer has the type of a declared variable. -/
theorem of_wide (h : τ.Fits t n) (hint : t = .int → n = false) : τ.Fits t (t = .bool) := by
  cases t <;> simp_all [Fits]

end ExprTy.Fits

theorem ExprTy.fits_ofTy? {t : Ty} {τ : ExprTy} (h : ExprTy.ofTy? t = some τ) :
    τ ≠ .chars ∧ τ.Fits t (t = .bool) := by
  cases t <;> cases h <;> simp [ExprTy.Fits, ExprTy.isTextual]

end Cpp

namespace Frame

open Cpp (ExprTy Declarations)

variable {Γ : Declarations} {f : Frame} {op : BinOp} {l r : Expr}

theorem narrow_ring (h : op.isRing = true) (l r : Expr) :
    f.narrow (.binary op l r) = (f.narrow l && f.narrow r) := by
  rw [narrow, if_pos h]

theorem narrow_of_not_isRing (h : op.isRing = false) (l r : Expr) :
    f.narrow (.binary op l r) = decide (f.typeOf (.binary op l r) = .bool) := by
  rw [narrow, if_neg (by simp [h])]

/-- Operators that are emitted as they stand. Truth values come from comparisons, and text from
text. -/
theorem fits_plain {σ τ : ExprTy} (hs : Shape.plain.Allows op (f.typeOf l) (f.typeOf r))
    (hσ : σ.Fits (f.typeOf l) (f.narrow l)) (hτ : τ.Fits (f.typeOf r) (f.narrow r)) :
    (Shape.plain.result op σ τ).Fits (f.typeOf (.binary op l r)) (f.narrow (.binary op l r)) := by
  obtain ⟨hop, htypes⟩ := hs
  rw [Shape.result]
  by_cases hcomparison : op.isComparison = true
  · rw [if_pos hcomparison, narrow_of_not_isRing (BinOp.isRing_of_isComparison hcomparison),
      typeOf_comparison hcomparison]
    exact ⟨rfl, rfl⟩
  have hring := hop.resolve_left hcomparison
  rw [if_neg hcomparison, typeOf_ring hring, narrow_ring hring]
  obtain ⟨hnum, hnum'⟩ | ⟨heq, hop'⟩ := htypes
  · have htext : ¬σ.isTextual = true := by
      intro htext
      rw [hσ.holds.isTextual_iff.1 htext] at hnum
      cases hnum
    rw [if_neg htext]
    exact hσ.promote hτ hnum hnum'
  · have hstr := (hop'.resolve_left hcomparison).2
    rw [hstr] at hσ
    rw [if_pos hσ.1, heq, hstr, hσ.2]
    exact ⟨rfl, rfl⟩

/-- An operator node has its type and width, whatever its shape. -/
theorem fits_result {σ τ : ExprTy} {sh : Shape} (hs : sh.Allows op (f.typeOf l) (f.typeOf r))
    (hσ : σ.Fits (f.typeOf l) (f.narrow l)) (hτ : τ.Fits (f.typeOf r) (f.narrow r)) :
    (sh.result op σ τ).Fits (f.typeOf (.binary op l r)) (f.narrow (.binary op l r)) := by
  cases sh with
  | logical =>
    rw [narrow_of_not_isRing (BinOp.isRing_of_isLogical hs), typeOf_logical hs]
    exact ⟨rfl, rfl⟩
  | plain => exact fits_plain hs hσ hτ
  | concat =>
    obtain ⟨rfl, hlist, hlist'⟩ := hs
    rw [hlist] at hσ
    rw [typeOf_ring rfl, narrow_ring rfl, hlist, hlist', hσ.2]
    exact ⟨rfl, rfl⟩
  | repeatLeft =>
    obtain ⟨rfl, hseq, hcount⟩ := hs
    obtain ⟨hfits, hnarrow⟩ := hσ.repeated hseq
    rw [typeOf_ring rfl, (Ty.arithmetic_of_sequence hseq hcount).1, narrow_ring rfl, hnarrow,
      Bool.false_and]
    exact hfits
  | repeatRight =>
    obtain ⟨rfl, hseq, hcount⟩ := hs
    obtain ⟨hfits, hnarrow⟩ := hτ.repeated hseq
    rw [typeOf_ring rfl, (Ty.arithmetic_of_sequence hseq hcount).2, narrow_ring rfl, hnarrow,
      Bool.and_false]
    exact hfits
  | quotient =>
    obtain ⟨rfl, -⟩ := hs
    exact ⟨.inl rfl, rfl⟩
  | floatFloor | floatMod =>
    obtain ⟨rfl, hnum, hnum', hfloat⟩ := hs
    rw [narrow_of_not_isRing rfl, typeOf_binary]
    change ExprTy.double.Fits (.arithmetic _ _) (decide (Ty.arithmetic _ _ = .bool))
    rw [Ty.arithmetic_of_float hnum hnum' hfloat]
    exact ⟨.inl rfl, rfl⟩
  | floor | mod =>
    obtain ⟨rfl, hnum, hnum', hfloat⟩ := hs
    rw [narrow_of_not_isRing rfl, typeOf_binary]
    change ExprTy.longLong.Fits (.arithmetic _ _) (decide (Ty.arithmetic _ _ = .bool))
    rw [Ty.arithmetic_of_not_float hnum hnum' hσ.holds.isValue hτ.holds.isValue hfloat]
    rfl

/-- Expressions have the types and widths of their sources. -/
def sized (f : Frame) : f.Typing where
  fits e τ := τ.Fits (f.typeOf e) (f.narrow e)
  holds := ExprTy.Fits.holds
  int n := by simp [narrow, ExprTy.Fits, typeOf, Table.typeOf]
  float _ := ⟨.inl rfl, rfl⟩
  str _ := ⟨rfl, rfl⟩
  bool _ := ⟨rfl, rfl⟩
  binary := fits_result
  not _ := ⟨rfl, rfl⟩
  sign := by
    intro op e τ hop hnum hfits
    have hnarrow : f.narrow (.unary op e) = f.narrow e := by
      simp [narrow, hop]
    rw [typeOf_sign hop, hnarrow]
    obtain ⟨hty, rfl, hn⟩ | ⟨hty, rfl, hn⟩ | ⟨hty, rfl, hn⟩ | ⟨hty, rfl, hn⟩ | ⟨hty, rfl, hn⟩ :=
      hfits.of_isNumeric hnum <;> simp [hty, hn, ExprTy.Fits, ExprTy.promote]
  list _ := ⟨rfl, rfl⟩
  index target position := by
    rw [narrow, typeOf_index]
    · split
      · exact ⟨rfl, rfl⟩
      · rfl
    all_goals nofun
  text _ := ⟨rfl, rfl⟩
  len _ := rfl
  range _ _ _ := ⟨rfl, rfl⟩

theorem declared_sized (hΓ : Γ.Allow f) : f.sized.Declared Γ where
  var := hΓ.varTy
  call name s args hname hs hvalue := by
    obtain ⟨τ, hτ, -⟩ := declares_ofTy? hvalue
    obtain ⟨hne, hfits⟩ := ExprTy.fits_ofTy? hτ
    refine ⟨τ, (hΓ.resultTy name s hs hvalue).trans hτ, hne, ?_⟩
    change τ.Fits (f.typeOf (.call name args)) (decide (f.typeOf (.call name args) = .bool))
    rw [typeOf_call hname hs]
    exact hfits

end Frame

end Braces
