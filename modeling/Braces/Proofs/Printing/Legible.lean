import Braces.Proofs.Printing.Scanning

/-!
# Expressions that can be read piece by piece

What is written down for an expression can be read, piece after piece, before anything that ends a
word, and closes all brackets that it opens. So does the first line of every statement.
-/

namespace Braces

namespace Piece

/-- Pieces that can be read before anything that ends a word, and that close the brackets they
open. -/
structure Legible (ps : List Piece) : Prop where
  readable : ∀ rest : List Char, rest.head?.all separates = true → Readable ps rest
  balanced : ∀ n, (lexemes ps).foldl Scanner.nestingAfter n = n

/-- A piece that is no bracket. -/
def IsFlat (p : Piece) : Prop := ∀ n, p.kind?.toList.foldl Scanner.nestingAfter n = n

theorem Proper.endsBefore {p : Piece} (hp : p.Proper) {c : Char} (hc : separates c = true) :
    p.endsBefore c = true := by
  cases hp with
  | space | str => rfl
  | symbol s =>
    have hequal : c ≠ '=' := ne_of_apply hc (by decide)
    have hslash : c ≠ '/' := ne_of_apply hc (by decide)
    simp [Piece.symbol, Piece.endsBefore, hequal, hslash]
  | keyword | name | bool | int => exact hc

theorem head?_texts_symbol (s : Symbol) (ps : List Piece) :
    (texts (symbol s :: ps)).head? = s.spelling.toList.head? := by
  rw [texts_cons]
  exact List.head?_append_of_ne_nil _ s.spelling_ne_nil

theorem all_head?_append {p : Char → Bool} {cs cs' : List Char} (h : cs.head?.all p = true)
    (h' : cs'.head?.all p = true) : (cs ++ cs').head?.all p = true := by
  cases cs with
  | nil => exact h'
  | cons c cs => exact h

namespace Legible

variable {p : Piece} {ps qs : List Piece}

theorem nil : Legible [] := ⟨fun _ _ => trivial, fun _ => rfl⟩

theorem append (h : Legible ps) (h' : Legible qs) (hqs : (texts qs).head?.all separates = true) :
    Legible (ps ++ qs) := by
  constructor
  · intro rest hrest
    exact readable_append.mpr ⟨h.readable _ (all_head?_append hqs hrest), h'.readable rest hrest⟩
  · intro n
    rw [lexemes_append, List.foldl_append, h.balanced, h'.balanced]

/-- A piece in front, if it ends there. -/
theorem cons (hp : p.Proper) (hflat : p.IsFlat) (h : Legible ps)
    (hends : ∀ rest : List Char, rest.head?.all separates = true →
      (texts ps ++ rest).head?.all (p.endsBefore ·) = true) : Legible (p :: ps) := by
  constructor
  · intro rest hrest
    exact ⟨hp, hends rest hrest, h.readable rest hrest⟩
  · intro n
    rw [lexemes_cons, List.foldl_append, hflat, h.balanced]

theorem single (hp : p.Proper) (hflat : p.IsFlat) : Legible [p] := by
  refine cons hp hflat nil fun rest hrest => ?_
  cases rest with
  | nil => rfl
  | cons c rest => exact hp.endsBefore hrest

/-- A piece that ends before every character. -/
theorem cons_free (hp : p.Proper) (hflat : p.IsFlat) (hfree : ∀ c, p.endsBefore c = true)
    (h : Legible ps) : Legible (p :: ps) := by
  refine cons hp hflat h fun rest _ => ?_
  cases texts ps ++ rest with
  | nil => rfl
  | cons c r => exact hfree c

theorem space (h : Legible ps) : Legible (.space :: ps) :=
  cons_free .space (fun _ => rfl) (fun _ => rfl) h

/-- A word, or a symbol, before a blank or a bracket. -/
theorem before (hp : p.Proper) (hflat : p.IsFlat) (h : Legible ps)
    (hps : (texts ps).head?.all separates = true) : Legible (p :: ps) :=
  append (single hp hflat) h hps

/-- A pair of brackets. -/
theorem between {left right : Symbol}
    (hpair : left = .openParen ∧ right = .closeParen ∨ left = .openSquare ∧ right = .closeSquare)
    (h : Legible ps) : Legible (Piece.between left right ps) := by
  have hfree : ∀ c, (symbol left).endsBefore c = true ∧ (symbol right).endsBefore c = true := by
    obtain ⟨rfl, rfl⟩ | ⟨rfl, rfl⟩ := hpair <;> exact fun _ => ⟨rfl, rfl⟩
  have hall : ∀ cs : List Char, cs.head?.all ((symbol left).endsBefore ·) = true ∧
      cs.head?.all ((symbol right).endsBefore ·) = true := by
    intro cs
    cases cs with
    | nil => exact ⟨rfl, rfl⟩
    | cons c r => exact hfree c
  have hright : ∀ rest : List Char,
      (texts [symbol right] ++ rest).head?.all separates = true := by
    intro rest
    obtain ⟨rfl, rfl⟩ | ⟨rfl, rfl⟩ := hpair <;> rfl
  constructor
  · intro rest hrest
    refine ⟨.symbol left, (hall _).1, readable_append.mpr ⟨h.readable _ (hright rest), ?_⟩⟩
    exact ⟨.symbol right, (hall _).2, trivial⟩
  · intro n
    rw [Piece.between, lexemes_cons, lexemes_append, List.foldl_append,
      List.foldl_append, h.balanced]
    obtain ⟨rfl, rfl⟩ | ⟨rfl, rfl⟩ := hpair <;> rfl

theorem parens (h : Legible ps) : Legible (Piece.between .openParen .closeParen ps) :=
  between (.inl ⟨rfl, rfl⟩) h

theorem squares (h : Legible ps) : Legible (Piece.between .openSquare .closeSquare ps) :=
  between (.inr ⟨rfl, rfl⟩) h

theorem grouped (h : Legible ps) (group : Bool) : Legible (Piece.grouped group ps) := by
  cases group with
  | true => exact h.parens
  | false => exact h

end Legible

/-- Characters that neither layout nor the rest of a symbol starts with. -/
def isOpening (c : Char) : Bool := isPlain c && c ≠ '=' && c ≠ '/'

theorem isOpening_of_apply {p : Char → Bool} {c : Char}
    (hp : ['\n', ' ', '\t', '\r', '\x0c', '#', '\\', '=', '/'].all (!p ·) = true) (h : p c = true) :
    isOpening c = true := by
  simp only [List.all_cons, Bool.and_eq_true, Bool.not_eq_true'] at hp
  have hplain : isPlain c = true := isPlain_of_apply (by simp_all) h
  have hequal : c ≠ '=' := ne_of_apply h hp.2.2.2.2.2.2.2.1
  have hslash : c ≠ '/' := ne_of_apply h hp.2.2.2.2.2.2.2.2.1
  simp [isOpening, hplain, hequal, hslash]

/-- Pieces whose text starts like an operand. -/
def Opens (ps : List Piece) : Prop := ∃ c r, texts ps = c :: r ∧ isOpening c = true

namespace Opens

variable {p : Piece} {ps qs : List Piece}

theorem append (h : Opens ps) (qs : List Piece) : Opens (ps ++ qs) := by
  obtain ⟨c, r, heq, hc⟩ := h
  exact ⟨c, r ++ texts qs, by rw [texts_append, heq, List.cons_append], hc⟩

theorem of_text {c : Char} {r : List Char} (hp : p.text = c :: r) (hc : isOpening c = true)
    (ps : List Piece) : Opens (p :: ps) :=
  ⟨c, r ++ texts ps, by rw [texts_cons, hp, List.cons_append], hc⟩

theorem word {k : Kind} {word : String} (h : Cpp.isName word = true) (ps : List Piece) :
    Opens (.lexeme k word.toList :: ps) := by
  unfold Cpp.isName at h
  split at h
  · cases h
  · next c r heq =>
    rw [Bool.and_eq_true] at h
    exact of_text (p := .lexeme k word.toList) heq (isOpening_of_apply rfl h.1) ps

theorem name {n : String} (h : isIdentifier n = true) (ps : List Piece) : Opens (.name n :: ps) :=
  word (Bool.and_eq_true_iff.mp h).1 ps

theorem keyword (k : Keyword) (ps : List Piece) : Opens (.keyword k :: ps) :=
  word (isName_spelling k) ps

theorem bool (b : Bool) (ps : List Piece) :
    Opens (.lexeme (.bool b) (if b then "True" else "False").toList :: ps) := by
  cases b with
  | true => exact word rfl ps
  | false => exact word rfl ps

theorem digits (k : Kind) (n : Nat) (ps : List Piece) :
    Opens (.lexeme k (Nat.toDigits 10 n) :: ps) := by
  cases hds : Nat.toDigits 10 n with
  | nil => exact absurd hds Nat.toDigits_ne_nil
  | cons c r =>
    have hc : c.isDigit = true :=
      Cpp.isDigit_of_mem_toDigits (n := n) (by rw [hds]; exact List.mem_cons_self)
    exact of_text rfl (isOpening_of_apply (by decide) hc) ps

theorem grouped (h : Opens ps) (group : Bool) : Opens (Piece.grouped group ps) := by
  cases group with
  | true => exact of_text rfl (by decide) _
  | false => exact h

end Opens

theorem Legible.sign {s : Symbol} {ps : List Piece} (hflat : (symbol s).IsFlat) (h : Legible ps)
    (hopens : Opens ps) : Legible (symbol s :: ps) := by
  obtain ⟨c, r, heq, hc⟩ := hopens
  refine cons (.symbol s) hflat h fun rest _ => ?_
  rw [heq, List.cons_append]
  simp only [isOpening, Bool.and_eq_true, decide_eq_true_eq] at hc
  simp [Piece.symbol, Piece.endsBefore, hc]

end Piece

/-! ## Expressions -/

namespace Expr

open Piece

theorem style_quote (style : Style) {s : String}
    (h : isQuotable '\'' s.toList = true ∨ isQuotable '"' s.toList = true) :
    (style.quote s = '"' ∨ style.quote s = '\'') ∧ isQuotable (style.quote s) s.toList = true := by
  unfold Style.quote
  split
  · next hsingle =>
    refine ⟨.inr rfl, ?_⟩
    simp only [Bool.or_eq_true, Bool.and_eq_true, Bool.not_eq_true'] at hsingle
    obtain ⟨-, hs⟩ | hs := hsingle
    · exact hs
    · simpa [hs] using h
  · next hdouble =>
    simp only [Bool.or_eq_true, Bool.not_eq_true', not_or, Bool.not_eq_false] at hdouble
    exact ⟨.inl rfl, hdouble.2⟩

theorem opens_pieces (style : Style) : ∀ {e : Expr}, e.isSource = true → Opens (e.pieces style)
  | .int n, _ => .digits (.int n) n.toNat []
  | .str s, h => by
    obtain ⟨hquote, -⟩ := style_quote style (by simpa [isSource] using h)
    refine .of_text rfl ?_ []
    obtain hquote | hquote := hquote <;> rw [hquote] <;> decide
  | .bool b, _ => .bool b []
  | .var _, h => .name h []
  | .binary _ _ _, h => by
    simp only [isSource, Bool.and_eq_true] at h
    exact ((opens_pieces style h.1.2).grouped _).append _
  | .unary op _, _ => by
    cases op with
    | plus | neg => exact .of_text rfl (by decide) _
    | not => exact .keyword .not _
  | .list _, _ => .of_text rfl (by decide) _
  | .index _ _, h => by
    simp only [isSource, Bool.and_eq_true] at h
    exact ((opens_pieces style h.1).grouped _).append _
  | .call _ _, h => by
    simp only [isSource, Bool.and_eq_true] at h
    exact .name h.1.1.1 _
  | .len _, _ | .range _ _ _, _ => .word rfl _

theorem head?_moreItems (style : Style) (es : List Expr) :
    (texts (moreItems style es)).head?.all separates = true := by
  cases es with
  | nil => rfl
  | cons e es =>
    rw [moreItems, head?_texts_symbol]
    decide

theorem head?_option (style : Style) (o : Option Expr) :
    (texts (option style o)).head?.all separates = true := by
  cases o with
  | none => rfl
  | some e =>
    rw [option, head?_texts_symbol]
    decide

theorem proper_piece (op : BinOp) : op.piece.Proper := by
  cases op
  case or => exact .keyword .or
  case and => exact .keyword .and
  all_goals exact .symbol _

theorem isFlat_piece (op : BinOp) : op.piece.IsFlat := by
  cases op <;> exact fun _ => rfl

/-- A comma and what follows it. -/
theorem legible_comma {ps : List Piece} (h : Legible ps) :
    Legible (.symbol .comma :: .space :: ps) :=
  .cons_free (.symbol .comma) (fun _ => rfl) (fun _ => rfl) h.space

mutual

theorem legible_pieces (style : Style) : ∀ {e : Expr}, e.isSource = true →
    Legible (e.pieces style)
  | .int _, h => by
    simp only [isSource, Bool.and_eq_true, decide_eq_true_eq] at h
    exact .single (.int h.1 h.2) fun _ => rfl
  | .str s, h => by
    obtain ⟨hquote, hs⟩ := style_quote style (by simpa [isSource] using h)
    exact .single (.str hquote hs) fun _ => rfl
  | .bool b, _ => .single (.bool b) fun _ => rfl
  | .var _, h => .single (.name h) fun _ => rfl
  | .binary op _ _, h => by
    simp only [isSource, Bool.and_eq_true] at h
    have hl := (legible_pieces style h.1.2).grouped
    have hr := (legible_pieces style h.2).grouped
    refine (hl _).append (.space (.before (proper_piece op) (isFlat_piece op) (hr _).space rfl)) rfl
  | .unary op e, h => by
    have he := (legible_pieces style (e := e) h).grouped e.isOperator
    have hopens := (opens_pieces style (e := e) h).grouped e.isOperator
    cases op with
    | plus | neg => exact .sign (fun _ => rfl) he hopens
    | not => exact .before (.keyword .not) (fun _ => rfl) he.space rfl
  | .list _, h => (legible_items style h).squares
  | .index _ _, h => by
    simp only [isSource, Bool.and_eq_true] at h
    exact ((legible_pieces style h.1).grouped _).append
      ((legible_pieces style h.2).grouped _).squares rfl
  | .call _ _, h => by
    simp only [isSource, Bool.and_eq_true] at h
    exact .before (.name h.1.1.1) (fun _ => rfl) (legible_items style h.2).parens rfl
  | .len e, h => by
    have he := (legible_pieces style (e := e) h).grouped (e.isOperator && style.grouped e)
    exact .before (.name rfl) (fun _ => rfl) he.parens rfl
  | .range start stop step, h => by
    simp only [isSource, Bool.and_eq_true] at h
    have hstart := (legible_pieces style h.1.1.1).grouped (start.isOperator && style.grouped start)
    have hstop := legible_option style h.1.2
    have hoptions := hstop.append (legible_option style h.2) (head?_option style step)
    have hhead : (texts (option style stop ++ option style step)).head?.all separates = true := by
      rw [texts_append]
      exact all_head?_append (head?_option style stop) (head?_option style step)
    exact .before (.name rfl) (fun _ => rfl) (hstart.append hoptions hhead).parens rfl

theorem legible_items (style : Style) : ∀ {es : List Expr}, allSource es = true →
    Legible (items style es)
  | [], _ => .nil
  | _ :: es, h => by
    simp only [allSource, Bool.and_eq_true] at h
    exact ((legible_pieces style h.1).grouped _).append (legible_moreItems style h.2)
      (head?_moreItems style es)

theorem legible_moreItems (style : Style) : ∀ {es : List Expr}, allSource es = true →
    Legible (moreItems style es)
  | [], _ => .nil
  | _ :: es, h => by
    simp only [allSource, Bool.and_eq_true] at h
    exact legible_comma (((legible_pieces style h.1).grouped _).append (legible_moreItems style h.2)
      (head?_moreItems style es))

theorem legible_option (style : Style) : ∀ {o : Option Expr}, optionSource o = true →
    Legible (option style o)
  | none, _ => .nil
  | some _, h => legible_comma ((legible_pieces style h).grouped _)

end

end Expr

/-! ## Statements -/

namespace Stmt

open Piece

theorem head?_moreNames (names : List String) :
    (texts (moreNames names)).head?.all separates = true := by
  cases names with
  | nil => rfl
  | cons name names =>
    rw [moreNames, head?_texts_symbol]
    decide

theorem legible_moreNames {names : List String} (h : names.all isIdentifier = true) :
    Legible (moreNames names) := by
  induction names with
  | nil => exact .nil
  | cons name names ih =>
    rw [List.all_cons, Bool.and_eq_true] at h
    exact Expr.legible_comma
      (.before (.name h.1) (fun _ => rfl) (ih h.2) (head?_moreNames names))

theorem legible_namePieces {names : List String} (h : names.all isIdentifier = true) :
    Legible (namePieces names) := by
  cases names with
  | nil => exact .nil
  | cons name names =>
    rw [List.all_cons, Bool.and_eq_true] at h
    exact .before (.name h.1) (fun _ => rfl) (legible_moreNames h.2) (head?_moreNames names)

/-- What a colon ends. -/
theorem legible_colon {ps : List Piece} (h : Legible ps) : Legible (ps ++ [.symbol .colon]) :=
  h.append (.single (.symbol .colon) fun _ => rfl) rfl

/-- A keyword before a blank. -/
theorem legible_keyword (k : Keyword) {ps : List Piece} (h : Legible ps) :
    Legible (.keyword k :: .space :: ps) :=
  .before (.keyword k) (fun _ => rfl) h.space rfl

theorem legible_store {ps : List Piece} (h : Legible ps) :
    Legible (.space :: .symbol .equal :: .space :: ps) :=
  .space (.before (.symbol .equal) (fun _ => rfl) h.space rfl)

variable {style : Style} {k : Keyword} {top inFunction : Bool}

theorem legible_head : ∀ {s : Stmt}, s.isSource top inFunction = true → Legible (s.head style k)
  | .assign _ _, h => by
    simp only [isSource, Bool.and_eq_true] at h
    exact .before (.name h.1) (fun _ => rfl) (legible_store (Expr.legible_pieces style h.2)) rfl
  | .assignAt target position _, h => by
    simp only [isSource, Bool.and_eq_true] at h
    have hindex : (Expr.index target position).isSource = true := by
      simp [Expr.isSource, h.1]
    exact (Expr.legible_pieces style hindex).append
      (legible_store (Expr.legible_pieces style h.2)) rfl
  | .print _, h => .before (.keyword .print) (fun _ => rfl) (Expr.legible_items style h).parens rfl
  | .ifElse _ _ _, h => by
    simp only [isSource, Bool.and_eq_true] at h
    exact legible_keyword k (legible_colon (Expr.legible_pieces style h.1.1.1))
  | .whileLoop _ _, h => by
    simp only [isSource, Bool.and_eq_true] at h
    exact legible_keyword .while_ (legible_colon (Expr.legible_pieces style h.1.1))
  | .forLoop _ _ _, h => by
    simp only [isSource, Bool.and_eq_true] at h
    have hiterable := legible_keyword .in_ (legible_colon (Expr.legible_pieces style h.1.1.2))
    exact legible_keyword .for_ (.before (.name h.1.1.1) (fun _ => rfl) hiterable.space rfl)
  | .funcDef _ _ _, h => by
    simp only [isSource, Bool.and_eq_true] at h
    have hparams := legible_colon (legible_namePieces h.1.1.2).parens
    exact legible_keyword .def_ (.before (.name h.1.1.1.2) (fun _ => rfl) hparams rfl)
  | .ret none, _ => .single (.keyword .return_) fun _ => rfl
  | .ret (some _), h => by
    simp only [isSource, Bool.and_eq_true] at h
    exact legible_keyword .return_ (Expr.legible_pieces style h.2)
  | .eval _, h => Expr.legible_pieces style h
  | .pass, _ => .single (.keyword .pass) fun _ => rfl
  | .break_, _ => .single (.keyword .break_) fun _ => rfl
  | .continue_, _ => .single (.keyword .continue_) fun _ => rfl

theorem opens_head : ∀ {s : Stmt}, s.isSource top inFunction = true → Opens (s.head style k)
  | .assign _ _, h => by
    simp only [isSource, Bool.and_eq_true] at h
    exact .name h.1 _
  | .assignAt target position _, h => by
    simp only [isSource, Bool.and_eq_true] at h
    exact (Expr.opens_pieces style (e := .index target position)
      (by simp [Expr.isSource, h.1])).append _
  | .eval _, h => Expr.opens_pieces style h
  | .print _, _ | .ifElse _ _ _, _ | .whileLoop _ _, _ | .forLoop _ _ _, _ | .funcDef _ _ _, _
  | .ret none, _ | .ret (some _), _ | .pass, _ | .break_, _ | .continue_, _ => .keyword _ _

end Stmt

end Braces
