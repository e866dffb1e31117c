import Braces.Proofs.Printing.Text
import Braces.Proofs.Syntax.Soundness

/-!
# What is written spells the expression

The tokens written down for an expression are a phrase for it. Every operand is written as tight as
a subscript takes it, so the grades of the operators do not matter.
-/

namespace Braces

open Piece

theorem Piece.lexemes_between (left right : Symbol) (ps : List Piece) :
    lexemes (between left right ps) =
      .symbol left :: (lexemes ps ++ [.symbol right]) := by
  simp [lexemes, between, Piece.symbol, Piece.kind?]

namespace Expr

variable {style : Style}

/-- The grades at which an expression is written. -/
structure Spelled (style : Style) (e : Expr) : Prop where
  whole : Phrase 1 (lexemes (e.pieces style)) e
  tight : e.isOperator = false → Phrase 8 (lexemes (e.pieces style)) e

namespace Spelled

variable {e : Expr}

/-- An expression that needs no parentheses. -/
theorem of_tight {n : Nat} (h : Phrase n (lexemes (e.pieces style)) e) (hle : 8 ≤ n) (hn : n ≤ 9) :
    Spelled style e :=
  ⟨h.looser (by omega) hn, fun _ => h.looser hle hn⟩

/-- An operator expression. -/
theorem of_operator {n : Nat} (h : Phrase n (lexemes (e.pieces style)) e) (hle : 1 ≤ n)
    (hn : n ≤ 9) (hoperator : e.isOperator = true) : Spelled style e := by
  refine ⟨h.looser hle hn, fun hoperator' => ?_⟩
  rw [hoperator] at hoperator'
  cases hoperator'

theorem operand (h : Spelled style e) :
    Phrase 8 (lexemes (grouped e.isOperator (e.pieces style))) e := by
  cases hoperator : e.isOperator with
  | false => exact h.tight hoperator
  | true =>
    rw [grouped, if_pos rfl, lexemes_between]
    exact (Phrase.group h.whole).looser (by decide) (by decide)

theorem nested (h : Spelled style e) (group : Bool) :
    Phrase 1 (lexemes (grouped group (e.pieces style))) e := by
  cases group with
  | false => exact h.whole
  | true =>
    rw [grouped, if_pos rfl, lexemes_between]
    exact (Phrase.group h.whole).looser (by decide) (by decide)

end Spelled

/-- A sum of text and something else is the only one that is not kept. -/
theorem combine_eq_binary {op : BinOp} {l r : Expr}
    (h : op ≠ .add ∨ l.isTextual = r.isTextual) : combine op l r = .binary op l r := by
  unfold combine
  split
  · next hadd =>
    obtain ⟨rfl, htext⟩ := hadd
    obtain h | h := h
    · exact absurd rfl h
    · rw [h, Bool.or_self] at htext
      rw [toText, toText, h, htext, if_pos rfl, if_pos rfl]
  · rfl

theorem spelled_binary {op : BinOp} {l r : Expr} (h : op ≠ .add ∨ l.isTextual = r.isTextual)
    (hl : Spelled style l) (hr : Spelled style r) : Spelled style (.binary op l r) := by
  have hle := op.grade_le
  have hpos : 1 ≤ op.grade := by cases op <;> decide
  have hphrase := Phrase.binary (hl.operand.looser (by omega) (by decide))
    (hr.operand.looser (m := op.grade + 1) (by omega) (by decide))
  rw [combine_eq_binary h] at hphrase
  refine .of_operator (n := op.grade) ?_ hpos (by omega) rfl
  rw [pieces, lexemes_append]
  exact hphrase

theorem spelled_unary {op : UnOp} {e : Expr} (h : Spelled style e) :
    Spelled style (.unary op e) := by
  cases op with
  | plus =>
    exact .of_operator (.plus (h.operand.looser (by decide) (by decide))) (by decide)
      (by decide) rfl
  | neg =>
    exact .of_operator (.minus (h.operand.looser (by decide) (by decide))) (by decide)
      (by decide) rfl
  | not =>
    exact .of_operator (.not (h.operand.looser (by decide) (by decide))) (by decide) (by decide) rfl

theorem spelled_index {target position : Expr} (ht : Spelled style target)
    (hp : Spelled style position) : Spelled style (.index target position) := by
  refine .of_tight (n := 8) ?_ (by decide) (by decide)
  rw [pieces, lexemes_append, lexemes_between]
  exact .index ht.operand (hp.nested _)

/-- A function's name before its arguments. -/
theorem lexemes_called (name : String) (ps : List Piece) :
    lexemes (.name name :: between .openParen .closeParen ps) =
      .ident name :: .symbol .openParen :: (lexemes ps ++ [.symbol .closeParen]) :=
  congrArg (Kind.ident name :: ·) (lexemes_between .openParen .closeParen ps)

theorem lexemes_option_some (e : Expr) : lexemes (option style (some e)) =
    .symbol .comma :: lexemes (grouped (e.isOperator && style.grouped e) (e.pieces style)) := rfl

theorem spelled_range {start stop : Expr} {step : Option Expr} (hstart : Spelled style start)
    (hstop : Spelled style stop) (hstep : ∀ e ∈ step, Spelled style e) :
    Spelled style (.range start (some stop) step) := by
  refine .of_tight (n := 9) ?_ (by decide) (by decide)
  rw [pieces, lexemes_called, lexemes_append, lexemes_append, lexemes_option_some]
  cases step with
  | none =>
    rw [option, lexemes_nil, List.append_nil]
    exact .rangeFrom (.more (hstart.nested _) (.last (hstop.nested _)))
  | some e =>
    rw [lexemes_option_some, List.cons_append]
    exact .rangeBy (.more (hstart.nested _)
      (.more (hstop.nested _) (.last ((hstep e rfl).nested _))))

mutual

theorem spelled (style : Style) : ∀ {e : Expr}, e.isSource = true → Spelled style e
  | .int n, _ => .of_tight (.int n) (by decide) (by decide)
  | .str s, _ => .of_tight (.str s) (by decide) (by decide)
  | .bool b, _ => .of_tight (.bool b) (by decide) (by decide)
  | .var name, _ => .of_tight (.var name) (by decide) (by decide)
  | .binary _ _ _, h => by
    simp only [isSource, Bool.and_eq_true, Bool.or_eq_true, decide_eq_true_eq] at h
    exact spelled_binary h.1.1 (spelled style h.1.2) (spelled style h.2)
  | .unary _ _, h => spelled_unary (spelled style h)
  | .list _, h => by
    refine .of_tight (n := 9) ?_ (by decide) (by decide)
    rw [pieces, lexemes_between]
    exact .list (phrases_items style h)
  | .index _ _, h => by
    simp only [isSource, Bool.and_eq_true] at h
    exact spelled_index (spelled style h.1) (spelled style h.2)
  | .call _ _, h => by
    simp only [isSource, Bool.and_eq_true, decide_eq_true_eq] at h
    refine .of_tight (n := 9) ?_ (by decide) (by decide)
    rw [pieces, lexemes_called]
    exact .call h.1.1.2 h.1.2 (phrases_items style h.2)
  | .len e, h => by
    refine .of_tight (n := 9) ?_ (by decide) (by decide)
    rw [pieces, lexemes_called]
    exact .len (.last ((spelled style (e := e) h).nested _))
  | .range _ (some _) none, h => by
    simp only [isSource, Bool.and_eq_true] at h
    exact spelled_range (spelled style h.1.1.1) (spelled style h.1.2) nofun
  | .range _ (some _) (some _), h => by
    simp only [isSource, Bool.and_eq_true] at h
    refine spelled_range (spelled style h.1.1.1) (spelled style h.1.2) ?_
    rintro _ ⟨⟩
    exact spelled style h.2
  | .range _ none _, h => by
    simp [isSource] at h

theorem phrases_items (style : Style) : ∀ {es : List Expr}, allSource es = true →
    Phrases (lexemes (items style es)) es
  | [], _ => .none
  | _ :: _, h => by
    simp only [allSource, Bool.and_eq_true] at h
    rw [items, lexemes_append]
    exact phrases_moreItems style h.2 ((spelled style h.1).nested _)

theorem phrases_moreItems (style : Style) :
    ∀ {es : List Expr} {ks : List Kind} {e : Expr}, allSource es = true →
    Phrase 1 ks e → Phrases (ks ++ lexemes (moreItems style es)) (e :: es)
  | [], ks, _, _, he => by
    rw [moreItems, lexemes_nil, List.append_nil]
    exact .last he
  | e' :: es, ks, _, h, he => by
    simp only [allSource, Bool.and_eq_true] at h
    have he' := (spelled style h.1).nested (e'.isOperator && style.grouped e')
    have hmore := phrases_moreItems style h.2 he'
    rw [← lexemes_append] at hmore
    exact .more he hmore

end

end Expr

end Braces
