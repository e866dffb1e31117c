import Braces.Expr.Read

/-!
# The grammar of source expressions

Which tokens spell which expression. Expressions come in nine grades, from loose to tight: `or`,
`and`, `not`, comparisons, sums, products, signs, subscripts, and the atoms. An operator takes an
operand of its own grade on the left and a tighter one on the right, so operators of one grade
associate to the left. The rules say nothing of how tokens are read.
-/

namespace Braces

namespace BinOp

/-- The token of an operator. -/
def kind : BinOp → Kind
  | or => .keyword .or
  | and => .keyword .and
  | equal => .symbol .doubleEqual
  | notEqual => .symbol .notEqual
  | lessThan => .symbol .lessThan
  | lessEqual => .symbol .lessEqual
  | greaterThan => .symbol .greaterThan
  | greaterEqual => .symbol .greaterEqual
  | add => .symbol .plus
  | sub => .symbol .minus
  | mul => .symbol .star
  | div => .symbol .slash
  | floorDiv => .symbol .doubleSlash
  | mod => .symbol .percent

/-- The grade of the expressions that an operator makes. -/
def grade : BinOp → Nat
  | or => 1
  | and => 2
  | equal | notEqual | lessThan | lessEqual | greaterThan | greaterEqual => 4
  | add | sub => 5
  | mul | div | floorDiv | mod => 6

theorem kind_inj {op op' : BinOp} (h : op.kind = op'.kind) : op = op' := by
  cases op <;> cases op' <;> first | rfl | cases h

end BinOp

mutual

/-- The kinds of token that spell an expression of a grade. -/
inductive Phrase : Nat → List Kind → Expr → Prop
  | tighter {n ks e} : n < 9 → Phrase (n + 1) ks e → Phrase n ks e
  | binary {op ks ks' l r} : Phrase op.grade ks l → Phrase (op.grade + 1) ks' r →
      Phrase op.grade (ks ++ op.kind :: ks') (.combine op l r)
  | not {ks e} : Phrase 3 ks e → Phrase 3 (.keyword .not :: ks) (.unary .not e)
  | plus {ks e} : Phrase 7 ks e → Phrase 7 (.symbol .plus :: ks) (.unary .plus e)
  | minus {ks e} : Phrase 7 ks e → Phrase 7 (.symbol .minus :: ks) (.unary .neg e)
  | index {ks ks' target position} : Phrase 8 ks target → Phrase 1 ks' position →
      Phrase 8 (ks ++ .symbol .openSquare :: (ks' ++ [.symbol .closeSquare]))
        (.index target position)
  | int (n) : Phrase 9 [.int n] (.int n)
  | float (x) : Phrase 9 [.float x] (.float x)
  | str (s) : Phrase 9 [.str s] (.str s)
  | bool (b) : Phrase 9 [.bool b] (.bool b)
  | var (name) : Phrase 9 [.ident name] (.var name)
  | group {ks e} : Phrase 1 ks e →
      Phrase 9 (.symbol .openParen :: (ks ++ [.symbol .closeParen])) e
  | list {ks es} : Phrases ks es →
      Phrase 9 (.symbol .openSquare :: (ks ++ [.symbol .closeSquare])) (.list es)
  | call {name ks args} : name ≠ "len" → name ≠ "range" → Phrases ks args →
      Phrase 9 (.ident name :: .symbol .openParen :: (ks ++ [.symbol .closeParen]))
        (.call name args)
  | len {ks e} : Phrases ks [e] →
      Phrase 9 (.ident "len" :: .symbol .openParen :: (ks ++ [.symbol .closeParen])) (.len e)
  | rangeTo {ks stop} : Phrases ks [stop] →
      Phrase 9 (.ident "range" :: .symbol .openParen :: (ks ++ [.symbol .closeParen]))
        (.range (.int 0) (some stop) none)
  | rangeFrom {ks start stop} : Phrases ks [start, stop] →
      Phrase 9 (.ident "range" :: .symbol .openParen :: (ks ++ [.symbol .closeParen]))
        (.range start (some stop) none)
  | rangeBy {ks start stop step} : Phrases ks [start, stop, step] →
      Phrase 9 (.ident "range" :: .symbol .openParen :: (ks ++ [.symbol .closeParen]))
        (.range start (some stop) (some step))

/-- Expressions with commas between them. A comma may follow the last one. -/
inductive Phrases : List Kind → List Expr → Prop
  | none : Phrases [] []
  | last {ks e} : Phrase 1 ks e → Phrases ks [e]
  | more {ks ks' e es} : Phrase 1 ks e → Phrases ks' es →
      Phrases (ks ++ .symbol .comma :: ks') (e :: es)

end

/-- The kinds of some tokens. -/
def kinds (ts : List Token) : List Kind := ts.map (·.kind)

@[simp] theorem kinds_nil : kinds [] = [] := rfl

@[simp] theorem kinds_cons (t : Token) (ts : List Token) :
    kinds (t :: ts) = t.kind :: kinds ts := rfl

@[simp] theorem kinds_append (ts ts' : List Token) : kinds (ts ++ ts') = kinds ts ++ kinds ts' :=
  List.map_append

/-- What follows is not the opening parenthesis of a call. -/
def Uncalled (used rest : List Token) : Prop :=
  ∀ t more, rest = t :: more → t.kind = .symbol .openParen →
    ∀ name, (kinds used).getLast? ≠ some (.ident name)

/-- What follows does not go on with an expression of a grade: it is no operator of this grade or a
tighter one, and neither a subscript nor a call. -/
structure Stops (n : Nat) (used rest : List Token) : Prop where
  operator : ∀ t more, rest = t :: more → ∀ op : BinOp, t.kind = op.kind → op.grade < n
  subscript : ∀ t more, rest = t :: more → t.kind ≠ .symbol .openSquare
  uncalled : Uncalled used rest

/-- Tokens that can go on with an expression. -/
def Kind.continues : Kind → Bool
  | .keyword .or | .keyword .and | .symbol .doubleEqual | .symbol .notEqual | .symbol .lessThan
  | .symbol .lessEqual | .symbol .greaterThan | .symbol .greaterEqual | .symbol .plus
  | .symbol .minus | .symbol .star | .symbol .slash | .symbol .doubleSlash | .symbol .percent
  | .symbol .openSquare | .symbol .openParen => true
  | _ => false

namespace Stops

variable {n m : Nat} {used rest : List Token}

theorem mono (h : Stops n used rest) (hle : n ≤ m) : Stops m used rest :=
  ⟨fun t more heq op hop => Nat.lt_of_lt_of_le (h.operator t more heq op hop) hle, h.subscript,
    h.uncalled⟩

/-- Only the last of the tokens counts. -/
theorem append_iff (before : List Token) (hne : kinds used ≠ []) :
    Stops n (before ++ used) rest ↔ Stops n used rest := by
  have hlast : (kinds (before ++ used)).getLast? = (kinds used).getLast? := by
    rw [kinds_append, List.getLast?_append, List.getLast?_eq_some_getLast hne]
    rfl
  have huncalled : Uncalled (before ++ used) rest ↔ Uncalled used rest := by
    rw [Uncalled, Uncalled, hlast]
  constructor
  · intro h
    exact ⟨h.operator, h.subscript, huncalled.mp h.uncalled⟩
  · intro h
    exact ⟨h.operator, h.subscript, huncalled.mpr h.uncalled⟩

/-- After a token that goes on with nothing. -/
theorem of_kind {t : Token} {more : List Token} (h : t.kind.continues = false) :
    Stops n used (t :: more) := by
  refine ⟨?_, ?_, ?_⟩
  · rintro _ _ ⟨⟩ op hk
    rw [hk] at h
    cases op <;> cases h
  · rintro _ _ ⟨⟩ hk
    rw [hk] at h
    cases h
  · rintro _ _ ⟨⟩ hk
    rw [hk] at h
    cases h

theorem nil : Stops n used [] := ⟨nofun, nofun, nofun⟩

/-- An operator goes on with expressions of its own grade only. -/
theorem of_operator {t : Token} {more : List Token} {op : BinOp} (ht : t.kind = op.kind) :
    Stops (op.grade + 1) used (t :: more) := by
  refine ⟨?_, ?_, ?_⟩
  · rintro _ _ ⟨⟩ op' hk
    obtain rfl := BinOp.kind_inj (ht.symm.trans hk)
    exact Nat.lt_succ_self _
  · rintro _ _ ⟨⟩
    rw [ht]
    cases op <;> decide
  · rintro _ _ ⟨⟩ hk
    rw [ht] at hk
    cases op <;> cases hk

end Stops

/-- Whether an expression of a grade can start with a token. -/
def Kind.starts (n : Nat) : Kind → Bool
  | .int _ | .float _ | .str _ | .bool _ | .ident _ | .symbol .openParen
  | .symbol .openSquare => true
  | .keyword .not => n ≤ 3
  | .symbol .plus | .symbol .minus => n ≤ 7
  | _ => false

theorem Kind.starts_mono {n : Nat} {k : Kind} (h : k.starts (n + 1) = true) :
    k.starts n = true := by
  unfold Kind.starts at h ⊢
  split at h
  all_goals simp_all <;> omega

theorem Phrase.starts : ∀ {n : Nat} {ks : List Kind} {e : Expr}, Phrase n ks e →
    ∃ k ks', ks = k :: ks' ∧ k.starts n = true
  | _, _, _, .tighter _ h => by
    obtain ⟨k, ks', rfl, hk⟩ := h.starts
    exact ⟨k, ks', rfl, k.starts_mono hk⟩
  | _, _, _, .binary h _ => by
    obtain ⟨k, ks', rfl, hk⟩ := h.starts
    exact ⟨k, _, rfl, hk⟩
  | _, _, _, .index h _ => by
    obtain ⟨k, ks', rfl, hk⟩ := h.starts
    exact ⟨k, _, rfl, hk⟩
  | _, _, _, .not _ | _, _, _, .plus _ | _, _, _, .minus _ | _, _, _, .int _ | _, _, _, .float _
  | _, _, _, .str _ | _, _, _, .bool _ | _, _, _, .var _ | _, _, _, .group _ | _, _, _, .list _
  | _, _, _, .call _ _ _ | _, _, _, .len _ | _, _, _, .rangeTo _ | _, _, _, .rangeFrom _
  | _, _, _, .rangeBy _ => ⟨_, _, rfl, rfl⟩

theorem Phrase.ne_nil {n : Nat} {ks : List Kind} {e : Expr} (h : Phrase n ks e) : ks ≠ [] := by
  obtain ⟨k, ks', rfl, -⟩ := h.starts
  exact List.cons_ne_nil k ks'

/-- A phrase of some grade is one of every looser grade. -/
theorem Phrase.looser {n m : Nat} {ks : List Kind} {e : Expr} (h : Phrase n ks e) (hle : m ≤ n)
    (hn : n ≤ 9) : Phrase m ks e := by
  obtain ⟨d, rfl⟩ := Nat.exists_eq_add_of_le hle
  clear hle
  induction d with
  | zero => exact h
  | succ d ih => exact ih (.tighter (by omega) h) (by omega)

end Braces
