import Braces.Proofs.Grouping.Literals

/-!
# The lexemes of a target tree

A target tree has its lexemes in the order in which it is printed. Under `Lexical`, which asks of
literals and names that they are lexemes of their own, and of signs that they stand before something
that starts with no operator, the text of a tree is cut into just these.
-/

namespace Braces.Cpp

namespace Expr

mutual

def lexemes : Expr → List Lexeme
  | .int n => [.number (intLiteral n)]
  | .float x => [.number x.text]
  | .str s => [.text (String.ofList (escapeText s.toList))]
  | .bool b => [.word (if b then "true" else "false")]
  | .var name => [.word name.text]
  | .binary op l r => l.lexemes ++ .op op.cppSymbol :: r.lexemes
  | .unary op e => .op op.cppSymbol :: e.lexemes
  | .group e => .openParen :: (e.lexemes ++ [.closeParen])
  | .helper h args =>
    .word h.text :: .openParen :: ([.comma].intercalate (lexemesOf args) ++ [.closeParen])
  | .call function args =>
    .word (spell function) :: .openParen :: ([.comma].intercalate (lexemesOf args) ++ [.closeParen])
  | .construct ty args =>
    .word ty.cppName :: .openParen :: ([.comma].intercalate (lexemesOf args) ++ [.closeParen])
  | .cast ty e => castHead ty ++ (e.lexemes ++ [.closeParen])
  | .size e => e.lexemes ++ [.dot, .word "size", .openParen, .closeParen]
  | .vector elements => vectorHead ++ ([.comma].intercalate (lexemesOf elements) ++ [.closeBrace])
  -- Neither is an expression of the grammar.
  | .braces _ | .choose _ _ _ => []

def lexemesOf : List Expr → List (List Lexeme)
  | [] => []
  | e :: es => e.lexemes :: lexemesOf es

end

/-- Trees that start with no operator. -/
def isPrimary : Expr → Bool
  | .binary _ _ _ | .unary _ _ | .size _ | .braces _ | .choose _ _ _ => false
  | _ => true

/-- Trees that a member may follow. -/
def isObject : Expr → Bool
  | .int _ | .float _ => false
  | e => e.isPrimary

end Expr

mutual

/-- Trees whose literals, names and signs are lexemes of their own. -/
inductive Lexical : Expr → Prop
  | int {n} : 0 ≤ n → Lexical (.int n)
  | float (m e) : Lexical (.float (.finite false m e))
  | str {s} : isClosed s.toList = true → Lexical (.str s)
  | bool (b) : Lexical (.bool b)
  | var {name} : isWord name.text.toList = true → Lexical (.var name)
  | binary {op l r} : Lexical l → Lexical r → Lexical (.binary op l r)
  | unary {op e} : Lexical e → e.isPrimary = true → Lexical (.unary op e)
  | group {e} : Lexical e → Lexical (.group e)
  | helper {h args} : LexicalAll args → Lexical (.helper h args)
  | call {function args} : isName function = true → LexicalAll args → Lexical (.call function args)
  | construct {args} : LexicalAll args → Lexical (.construct .str args)
  | cast {ty e} : ty = .int ∨ ty = .float → Lexical e → Lexical (.cast ty e)
  | size {e} : Lexical e → e.isObject = true → Lexical (.size e)
  | vector {elements} : LexicalAll elements → Lexical (.vector elements)

inductive LexicalAll : List Expr → Prop
  | nil : LexicalAll []
  | cons {e es} : Lexical e → LexicalAll es → LexicalAll (e :: es)

end

/-- Whether what follows a tree may start with a character. -/
def Expr.after (e : Expr) : Char → Bool := if e.isObject then endsWord else endsNumber

theorem Expr.after_of_endsNumber (e : Expr) {c : Char} (h : endsNumber c = true) :
    e.after c = true := by
  unfold after
  split
  · exact endsWord_of_endsNumber h
  · exact h

/-! ## Ways to put text together -/

section Pieces
variable {cs ds : List Char} {ts us : List Lexeme} {s : String}

theorem spells_called (hword : Spells endsWord cs [.word s]) (hitems : Spells endsNumber ds ts) :
    Spells anything (cs ++ '(' :: (ds ++ [')']))
      (.word s :: .openParen :: (ts ++ [.closeParen])) := by
  have hargs := spells_openParen.before (hitems.append spells_closeParen rfl)
  exact hword.append hargs rfl

theorem spells_grouped (h : Spells endsNumber cs ts) :
    Spells anything ('(' :: (cs ++ [')'])) (.openParen :: (ts ++ [.closeParen])) :=
  spells_openParen.before (h.append spells_closeParen rfl)

theorem spells_infix (op : BinOp) (hl : Spells endsNumber cs ts) (hr : Spells endsNumber ds us) :
    Spells endsNumber (cs ++ (' ' :: (op.cppSymbol.toList ++ [' ']) ++ ds))
      (ts ++ .op op.cppSymbol :: us) :=
  hl.append ((spells_operator op).before hr) rfl

theorem spells_size (h : Spells endsWord cs ts) :
    Spells anything (cs ++ ".size()".toList)
      (ts ++ [.dot, .word "size", .openParen, .closeParen]) := by
  refine h.append (fun rest _ => ?_) (by decide)
  have hdot : lex ('.' :: ("size".toList ++ '(' :: ')' :: rest)) =
      .dot :: lex ("size".toList ++ '(' :: ')' :: rest) :=
    lex_cons (by simp [lexeme, punctuators, isWordChar, Lexeme.ofPunctuator])
  have hword : Spells endsWord "size".toList [.word "size"] := spells_of_isWord (by decide)
  have hcall : Spells anything ['(', ')'] [.openParen, .closeParen] :=
    spells_openParen.before spells_closeParen
  have htext : ".size()".toList ++ rest = '.' :: ("size".toList ++ '(' :: ')' :: rest) := by simp
  have hopen := hcall rest (by cases rest <;> rfl)
  rw [htext, hdot, hword _ rfl]
  exact congrArg (.dot :: .word "size" :: ·) hopen

/-- Items with commas between them, each of which gives its lexemes. -/
theorem spells_items {items : List (List Char)} {tss : List (List Lexeme)}
    (h : List.Forall₂ (Spells endsNumber) items tss) :
    Spells endsNumber ([',', ' '].intercalate items) ([.comma].intercalate tss) := by
  induction h with
  | nil => exact fun rest _ => rfl
  | @cons item ts items tss hitem hitems ih =>
    cases hitems with
    | nil => simpa using hitem
    | cons _ _ =>
      rw [List.intercalate_cons_cons, List.intercalate_cons_cons, List.append_assoc,
        List.append_assoc]
      exact hitem.append (spells_comma.before ih) rfl

end Pieces

/-! ## The text of a tree -/

theorem head_of_isWord {cs : List Char} (h : isWord cs = true) :
    cs.head?.any startsOperand = true := by
  obtain _ | ⟨c, r⟩ := cs
  · cases h
  · simp only [isWord, List.all_cons, Bool.and_eq_true] at h
    simp [startsOperand, h.2.1]

theorem head_of_isNumber {cs : List Char} (h : isNumber cs = true) :
    cs.head?.any startsOperand = true := by
  obtain _ | ⟨c, r⟩ := cs
  · cases h
  · simp only [isNumber, Bool.and_eq_true] at h
    simp [startsOperand, isWordChar_of_isDigit h.1]

theorem head?_any_append {cs : List Char} (h : cs.head?.any startsOperand = true) (ds : List Char) :
    (cs ++ ds).head?.any startsOperand = true := by
  obtain _ | ⟨c, r⟩ := cs
  · cases h
  · exact h

theorem isWord_helper (h : Helper) : isWord h.text.toList = true := by
  cases h <;> decide

/-- A primary starts with no operator. -/
theorem Lexical.head {e : Expr} (h : Lexical e) (he : e.isPrimary = true) :
    e.text.toList.head?.any startsOperand = true := by
  cases h with
  | int hn => exact head_of_isNumber (isNumber_intLiteral hn)
  | float m e => exact head_of_isNumber (isNumber_text m e)
  | str hs => simp [Expr.text, stringLiteral, startsOperand]
  | bool b => cases b <;> decide
  | var hname => exact head_of_isWord hname
  | group _ => simp [Expr.text, startsOperand]
  | @helper h args _ =>
    rw [Expr.text, String.append_assoc, String.append_assoc, String.toList_append]
    exact head?_any_append (head_of_isWord (isWord_helper h)) _
  | call hname _ =>
    rw [Expr.text, String.append_assoc, String.append_assoc, String.toList_append]
    exact head?_any_append (head_of_isWord (isWord_spell hname)) _
  | construct _ => simp [Expr.text, Ty.cppName, startsOperand, isWordChar]
  | cast _ _ => simp [Expr.text, startsOperand, isWordChar]
  | vector _ => simp [Expr.text, Ty.cppName, startsOperand, isWordChar]
  | binary _ _ | unary _ _ | size _ _ => cases he

theorem spells_stringLiteral {s : String} (h : isClosed s.toList = true) :
    Spells anything (stringLiteral s).toList [.text (String.ofList (escapeText s.toList))] := by
  rw [stringLiteral, String.toList_ofList]
  exact spells_text (textTail?_escapeText h)

theorem spells_signed (op : UnOp) {cs : List Char} {ts : List Lexeme}
    (hhead : cs.head?.any startsOperand = true) (h : Spells endsNumber cs ts) :
    Spells endsNumber (op.cppSymbol.toList ++ cs) (.op op.cppSymbol :: ts) := by
  obtain _ | ⟨c, r⟩ := cs
  · cases hhead
  intro rest hrest
  have hrest := h rest hrest
  rw [List.append_assoc, List.cons_append, lex_sign op hhead, ← List.cons_append, hrest]
  rfl

theorem spells_isNumber {s : String} (h : isNumber s.toList = true) :
    Spells endsNumber s.toList [.number s] := by
  have hnumber := spells_number h
  rwa [String.ofList_toList] at hnumber

theorem Spells.expression {e : Expr} {cs : List Char} {ts : List Lexeme}
    (h : Spells e.after cs ts) : Spells endsNumber cs ts :=
  h.narrow fun _ => e.after_of_endsNumber

theorem spells_commas {es : List Expr}
    (h : List.Forall₂ (Spells endsNumber) ((Expr.texts es).map String.toList) (Expr.lexemesOf es)) :
    Spells endsNumber (commas (Expr.texts es)).toList
      ([.comma].intercalate (Expr.lexemesOf es)) := by
  rw [commas, String.toList_intercalate]
  exact spells_items h

theorem spells_call {w : String} {es : List Expr} (hw : isWord w.toList = true)
    (h : List.Forall₂ (Spells endsNumber) ((Expr.texts es).map String.toList) (Expr.lexemesOf es)) :
    Spells anything (w ++ "(" ++ commas (Expr.texts es) ++ ")").toList
      (.word w :: .openParen :: ([.comma].intercalate (Expr.lexemesOf es) ++ [.closeParen])) := by
  have htext : (w ++ "(" ++ commas (Expr.texts es) ++ ")").toList =
      w.toList ++ '(' :: ((commas (Expr.texts es)).toList ++ [')']) := by simp
  rw [htext]
  exact spells_called (spells_of_isWord hw) (spells_commas h)

mutual

theorem Lexical.spells : ∀ {e : Expr}, Lexical e → Spells e.after e.text.toList e.lexemes
  | _, .int hn => spells_isNumber (isNumber_intLiteral hn)
  | _, .float m e => spells_isNumber (isNumber_text m e)
  | _, .str hs => (spells_stringLiteral hs).narrow fun _ _ => rfl
  | _, .bool b => by cases b <;> exact spells_of_isWord (by decide)
  | _, .var hname => spells_of_isWord hname
  | _, @Lexical.binary op l r hl hr => by
    have htext : (Expr.binary op l r).text.toList =
        l.text.toList ++ (' ' :: (op.cppSymbol.toList ++ [' ']) ++ r.text.toList) := by
      simp [Expr.text]
    rw [htext]
    exact spells_infix op hl.spells.expression hr.spells.expression
  | _, .unary he hprimary => by
    rw [Expr.text, String.toList_append]
    exact spells_signed _ (he.head hprimary) he.spells.expression
  | _, @Lexical.group e he => by
    have htext : (Expr.group e).text.toList = '(' :: (e.text.toList ++ [')']) := by
      simp [Expr.text]
    rw [htext]
    exact (spells_grouped he.spells.expression).narrow fun _ _ => rfl
  | _, .helper hargs => (spells_call (isWord_helper _) hargs.spells).narrow fun _ _ => rfl
  | _, .call hname hargs => (spells_call (isWord_spell hname) hargs.spells).narrow fun _ _ => rfl
  | _, .construct hargs => (spells_call (by decide) hargs.spells).narrow fun _ _ => rfl
  | _, @Lexical.cast ty e hty he => by
    have htext : (Expr.cast ty e).text.toList =
        ("static_cast<" ++ ty.cppName ++ ">(").toList ++ (e.text.toList ++ [')']) := by
      simp [Expr.text]
    have hinside := he.spells.expression.append spells_closeParen rfl
    rw [htext]
    exact ((spells_castHead hty).before hinside).narrow fun _ _ => rfl
  | _, @Lexical.size e he hobject => by
    have hafter : e.after = endsWord := if_pos hobject
    rw [Expr.text, String.toList_append]
    exact (spells_size (hafter ▸ he.spells)).narrow fun _ _ => rfl
  | _, @Lexical.vector es hes => by
    have htext : (Expr.vector es).text.toList =
        (Ty.list.cppName ++ "\x7b").toList ++ ((commas (Expr.texts es)).toList ++ ['}']) := by
      simp [Expr.text]
    have hinside := (spells_commas hes.spells).append spells_closeBrace rfl
    rw [htext]
    exact (spells_vectorHead.before hinside).narrow fun _ _ => rfl

theorem LexicalAll.spells : ∀ {es : List Expr}, LexicalAll es →
    List.Forall₂ (Spells endsNumber) ((Expr.texts es).map String.toList) (Expr.lexemesOf es)
  | _, .nil => .nil
  | _, .cons he hes => .cons he.spells.expression hes.spells

end

/-- The lexemes of the text of a tree are those of the tree. -/
theorem Lexical.lex_text {e : Expr} (h : Lexical e) : lex e.text.toList = e.lexemes :=
  h.spells.lex_eq

end Braces.Cpp
