import Braces.Proofs.Emission.Expr
import Braces.Proofs.Grouping.Printing

/-!
# Expressions that can be written

The literals and names of an expression that was read from text have a written form: integers and
floating-point numbers are not negative, each backslash of a string keeps a character, and names are
identifiers. What is emitted for such an expression is cut into the lexemes of its tree, as long as
its floating-point numbers are finite.
-/

namespace Braces

/-- Whether a number is neither negative nor undefined. -/
def Double.isWritten : Double → Bool
  | .finite negative _ _ | .infinite negative => !negative
  | .nan => false

def Double.isFinite : Double → Bool
  | .finite _ _ _ => true
  | _ => false

namespace Expr

/-- Whether the literal or name at the root of an expression has a written form. -/
def isWritten : Expr → Bool
  | .int n => 0 ≤ n
  | .float x => x.isWritten
  | .str s => Cpp.isClosed s.toList
  | .var name | .call name _ => Cpp.isName name
  | _ => true

mutual

/-- An expression and all those within it. -/
def parts : Expr → List Expr
  | .binary op l r => .binary op l r :: (l.parts ++ r.parts)
  | .unary op e => .unary op e :: e.parts
  | .list elements => .list elements :: partsOf elements
  | .index target position => .index target position :: (target.parts ++ position.parts)
  | .call name args => .call name args :: partsOf args
  | .len e => .len e :: e.parts
  | .range start stop step =>
    .range start stop step :: (start.parts ++ (partsOfOption stop ++ partsOfOption step))
  | .int n => [.int n]
  | .float x => [.float x]
  | .str s => [.str s]
  | .bool b => [.bool b]
  | .var name => [.var name]

def partsOf : List Expr → List Expr
  | [] => []
  | e :: es => e.parts ++ partsOf es

def partsOfOption : Option Expr → List Expr
  | none => []
  | some e => e.parts

end

theorem mem_parts_self (e : Expr) : e ∈ e.parts := by
  cases e <;> simp [parts]

mutual

/-- The parts of a part are parts. -/
theorem parts_trans : ∀ {e e' e'' : Expr}, e' ∈ e.parts → e'' ∈ e'.parts → e'' ∈ e.parts
  | .int _, _, _, h, h' | .float _, _, _, h, h' | .str _, _, _, h, h' | .bool _, _, _, h, h'
  | .var _, _, _, h, h' => by
    obtain rfl := List.mem_singleton.mp h
    exact h'
  | .binary op l r, e', e'', h, h' => by
    obtain rfl | h := List.mem_cons.mp h
    · exact h'
    · refine List.mem_cons_of_mem _ (List.mem_append.mpr ?_)
      exact (List.mem_append.mp h).imp (parts_trans · h') (parts_trans · h')
  | .unary op e, e', e'', h, h' => by
    obtain rfl | h := List.mem_cons.mp h
    · exact h'
    · exact List.mem_cons_of_mem _ (parts_trans h h')
  | .list es, e', e'', h, h' => by
    obtain rfl | h := List.mem_cons.mp h
    · exact h'
    · exact List.mem_cons_of_mem _ (partsOf_trans h h')
  | .index target position, e', e'', h, h' => by
    obtain rfl | h := List.mem_cons.mp h
    · exact h'
    · refine List.mem_cons_of_mem _ (List.mem_append.mpr ?_)
      exact (List.mem_append.mp h).imp (parts_trans · h') (parts_trans · h')
  | .call name args, e', e'', h, h' => by
    obtain rfl | h := List.mem_cons.mp h
    · exact h'
    · exact List.mem_cons_of_mem _ (partsOf_trans h h')
  | .len e, e', e'', h, h' => by
    obtain rfl | h := List.mem_cons.mp h
    · exact h'
    · exact List.mem_cons_of_mem _ (parts_trans h h')
  | .range start stop step, e', e'', h, h' => by
    obtain rfl | h := List.mem_cons.mp h
    · exact h'
    · refine List.mem_cons_of_mem _ (List.mem_append.mpr ?_)
      refine (List.mem_append.mp h).imp (parts_trans · h') fun h => ?_
      refine List.mem_append.mpr ?_
      exact (List.mem_append.mp h).imp (partsOfOption_trans · h') (partsOfOption_trans · h')

theorem partsOf_trans : ∀ {es : List Expr} {e' e'' : Expr}, e' ∈ partsOf es → e'' ∈ e'.parts →
    e'' ∈ partsOf es
  | e :: es, _, _, h, h' => by
    refine List.mem_append.mpr ?_
    exact (List.mem_append.mp h).imp (parts_trans · h') (partsOf_trans · h')

theorem partsOfOption_trans : ∀ {o : Option Expr} {e' e'' : Expr}, e' ∈ partsOfOption o →
    e'' ∈ e'.parts → e'' ∈ partsOfOption o
  | some _, _, _, h, h' => parts_trans h h'

end

end Expr

/-- Among some expressions, literals and names have a written form, and numbers are finite. -/
structure Printable (es : List Expr) : Prop where
  written : ∀ e ∈ es, e.isWritten = true
  finite : ∀ x, .float x ∈ es → x.isFinite = true

theorem Printable.mono {es es' : List Expr} (h : Printable es) (hsub : ∀ e ∈ es', e ∈ es) :
    Printable es' :=
  ⟨fun e he => h.written e (hsub e he), fun x hx => h.finite x (hsub _ hx)⟩

namespace Frame

variable {f : Frame}

/-- What a sign stands before starts with no operator. -/
theorem Emits.isPrimary_atom {e : Expr} {c : Cpp.Expr} (h : f.Emits e c) :
    (atom e c).isPrimary = true := by
  cases h with
  | index => dsimp only [atom]; split <;> rfl
  | range => dsimp only [atom]; split <;> rfl
  | _ => rfl

theorem Emits.isObject_sequence {e : Expr} {c : Cpp.Expr} (h : f.Emits e c)
    (hty : (f.typeOf e).isIterable = true) : (sequence e c).isObject = true := by
  cases h with
  | int | float => cases hty
  | index => dsimp only [sequence, atom]; split <;> rfl
  | range => dsimp only [sequence, atom]; split <;> rfl
  | _ => rfl

section Lexical
open Cpp (Lexical LexicalAll)

theorem lexical_operand {parent : Nat} {right : Bool} {e : Expr} {c : Cpp.Expr} (h : Lexical c) :
    Lexical (f.operand parent right e c) := by
  unfold operand
  split
  · exact .group h
  · exact h

theorem lexical_atom {e : Expr} {c : Cpp.Expr} (h : Lexical c) : Lexical (atom e c) := by
  unfold atom
  split
  · exact .group h
  · exact .group h
  · exact h

theorem lexical_one {h : Cpp.Helper} {c : Cpp.Expr} (hc : Lexical c) : Lexical (.helper h [c]) :=
  .helper (.cons hc .nil)

theorem lexical_two {h : Cpp.Helper} {c d : Cpp.Expr} (hc : Lexical c) (hd : Lexical d) :
    Lexical (.helper h [c, d]) :=
  .helper (.cons hc (.cons hd .nil))

theorem lexical_sequence {e : Expr} {c : Cpp.Expr} (h : Lexical c) : Lexical (sequence e c) := by
  unfold sequence
  split
  · exact .construct (.cons h .nil)
  · exact lexical_atom h

theorem lexical_condition {parent : Nat} {right : Bool} {e : Expr} {c : Cpp.Expr} (h : Lexical c) :
    Lexical (f.condition parent right e c) := by
  unfold condition
  split
  · exact lexical_one h
  · exact lexical_operand h

theorem lexical_infixed {op : BinOp} {l r : Expr} {cl cr : Cpp.Expr} (hl : Lexical cl)
    (hr : Lexical cr) : Lexical (f.infixed op l r cl cr) := by
  unfold infixed
  refine .binary ?_ (lexical_operand hr)
  split
  · exact .construct (.cons (lexical_operand hl) .nil)
  · exact lexical_operand hl

theorem lexical_combined {op : BinOp} {l r : Expr} {cl cr : Cpp.Expr} (hl : Lexical cl)
    (hr : Lexical cr) (sh : Shape) : Lexical (f.combined op l r cl cr sh) := by
  cases sh with
  | logical => exact .binary (lexical_condition hl) (lexical_condition hr)
  | plain => exact lexical_infixed hl hr
  | quotient => exact .binary (.cast (.inr rfl) hl) (lexical_operand hr)
  | floatFloor => exact lexical_one (.binary (lexical_operand hl) (lexical_operand hr))
  | repeatRight => exact lexical_two hr hl
  | _ => exact lexical_two hl hr

theorem lexical_argument {p : Param} {arg : Expr} {c : Cpp.Expr} (h : Lexical c) :
    Lexical (argument p arg c) := by
  unfold argument
  split
  · exact h
  · exact lexical_one h
  · exact h

mutual

theorem Emits.lexical : ∀ {e : Expr} {c : Cpp.Expr}, f.Emits e c → Printable e.parts → Lexical c
  | _, _, .int n, h => .int (by simpa [Expr.isWritten] using h.written _ (Expr.mem_parts_self _))
  | _, _, .float x, h => by
    have hwritten := h.written _ (Expr.mem_parts_self _)
    have hfinite := h.finite x (Expr.mem_parts_self _)
    cases x with
    | finite negative m e =>
      cases negative with
      | false => exact .float m e
      | true => cases hwritten
    | infinite _ => cases hfinite
    | nan => cases hfinite
  | _, _, .str s, h => .str (h.written _ (Expr.mem_parts_self _))
  | _, _, .bool b, _ => .bool b
  | _, _, .var _, h => .var (Cpp.isWord_spell (h.written _ (Expr.mem_parts_self _)))
  | _, _, .binary _ hl hr, h =>
    lexical_combined (hl.lexical (h.mono (by simp +contextual [Expr.parts])))
      (hr.lexical (h.mono (by simp +contextual [Expr.parts]))) _
  | _, _, .not he, h => by
    have hc := he.lexical (h.mono (by simp +contextual [Expr.parts]))
    refine .unary ?_ ?_
    · split
      · exact lexical_one hc
      · exact lexical_atom hc
    · split
      · rfl
      · exact he.isPrimary_atom
  | _, _, .sign _ _ he, h =>
    .unary (lexical_atom (he.lexical (h.mono (by simp +contextual [Expr.parts]))))
      he.isPrimary_atom
  | _, _, .list _ hes, h => .vector (hes.lexical (h.mono (by simp +contextual [Expr.parts])))
  | _, _, @Emits.index _ target position ct ci _ ht hp, h => by
    have hct := ht.lexical (h.mono (by simp +contextual [Expr.parts]))
    have hci := hp.lexical (h.mono (by simp +contextual [Expr.parts]))
    have helement : Lexical (element target ct ci) := lexical_two (lexical_sequence hct) hci
    split
    · exact .construct (.cons (.int (by decide)) (.cons helement .nil))
    · exact helement
  | _, _, .emptyText, _ => .construct .nil
  | _, _, .text he, h =>
    lexical_one (he.lexical (h.mono (by simp +contextual [Expr.parts, Expr.partsOf])))
  | _, _, .call _ _ hargs, h =>
    .call (h.written _ (Expr.mem_parts_self _))
      (hargs.lexical (h.mono (by simp +contextual [Expr.parts])))
  | _, _, .len hty he, h =>
    .cast (.inl rfl) (.size
      (lexical_sequence (he.lexical (h.mono (by simp +contextual [Expr.parts]))))
      (he.isObject_sequence hty))
  | _, _, .range hstart hstop hstep, h => by
    have hcstart := hstart.lexical (h.mono (by simp +contextual [Expr.parts]))
    have hstride := hstep.lexical (h.mono (by simp +contextual [Expr.parts]))
    cases hstop with
    | absent => exact .helper (.cons (.int (by decide)) (.cons hcstart (.cons hstride .nil)))
    | present he =>
      have hc := he.lexical (h.mono (by simp +contextual [Expr.parts, Expr.partsOfOption]))
      exact .helper (.cons hcstart (.cons hc (.cons hstride .nil)))

theorem EmitsAll.lexical : ∀ {es : List Expr} {cs : List Cpp.Expr}, f.EmitsAll es cs →
    Printable (Expr.partsOf es) → LexicalAll cs
  | _, _, .nil, _ => .nil
  | _, _, .cons he hes, h =>
    .cons (he.lexical (h.mono (by simp +contextual [Expr.partsOf])))
      (hes.lexical (h.mono (by simp +contextual [Expr.partsOf])))

theorem EmitsOption.lexical : ∀ {e : Option Expr} {c : Option Cpp.Expr}, f.EmitsOption e c →
    Printable (Expr.partsOfOption e) → Lexical (c.getD (.int 1))
  | _, _, .absent, _ => .int (by decide)
  | _, _, .present he, h => he.lexical h

theorem EmitsArgs.lexical : ∀ {name : String} {ps : List Param} {args : List Expr}
    {cs : List Cpp.Expr}, f.EmitsArgs name ps args cs → Printable (Expr.partsOf args) →
    LexicalAll cs
  | _, _, _, _, .done, _ => .nil
  | _, _, _, _, .surplus, _ => .nil
  | _, _, _, _, .next _ he hargs, h =>
    .cons (lexical_argument (he.lexical (h.mono (by simp +contextual [Expr.partsOf]))))
      (hargs.lexical (h.mono (by simp +contextual [Expr.partsOf])))

end

end Lexical

end Frame

end Braces
