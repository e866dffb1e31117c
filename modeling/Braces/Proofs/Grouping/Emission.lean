import Braces.Proofs.Grouping.Intended

/-!
# Emitted expressions are read as intended

Every emitted expression is read at the level of its outermost operator. An operand that is not put
in parentheses is of a level that its place allows, which is a fact about the two tables of binding
strength: the one that decides on parentheses, and the levels of the target's operators.
-/

namespace Braces

open Cpp (Tree Lexeme Derives Listed level?)

/-- The level of an operator in the target. -/
def BinOp.level : BinOp → Nat
  | or => 1
  | and => 2
  | equal | notEqual => 3
  | lessThan | lessEqual | greaterThan | greaterEqual => 4
  | add | sub => 5
  | mul | div | floorDiv | mod => 6

theorem BinOp.level?_cppSymbol (op : BinOp) : level? op.cppSymbol = some op.level := by
  cases op <;> decide

theorem BinOp.level_le (op : BinOp) : op.level ≤ 6 := by
  cases op <;> decide

theorem BinOp.level_lt_of_precedence_lt {op op' : BinOp} (h : op.precedence < op'.precedence) :
    op.level < op'.level := by
  revert h
  cases op <;> cases op' <;> decide

/-- Among operators of one strength, only comparisons are of different levels. -/
theorem BinOp.level_eq_of_precedence_eq {op op' : BinOp} (h : op.precedence = op'.precedence)
    (hop : op'.isComparison = false) : op.level = op'.level := by
  revert h hop
  cases op <;> cases op' <;> decide

namespace Cpp

theorem Derives.lower {j k : Nat} {ts : List Lexeme} {e : Tree} (h : Derives k ts e) (hk : k ≤ 8)
    (hjk : j ≤ k) : Derives j ts e := by
  induction k with
  | zero =>
    obtain rfl := Nat.le_zero.mp hjk
    exact h
  | succ k ih =>
    obtain rfl | hlt := Nat.eq_or_lt_of_le hjk
    · exact h
    · exact ih (.climb (by omega) h) (by omega) (by omega)

theorem listed_intercalate {tss : List (List Lexeme)} {es : List Tree}
    (h : List.Forall₂ (Derives 1) tss es) : Listed ([.comma].intercalate tss) es := by
  induction h with
  | nil => exact .none
  | cons he hes ih =>
    cases hes with
    | nil => simpa using Listed.one he
    | cons _ _ =>
      rw [List.intercalate_cons_cons, List.append_assoc]
      exact .more he ih

theorem derives_calling {w : String} {tss : List (List Lexeme)} {es : List Tree}
    (hw : (Lexeme.word w).isOperand = true) (h : List.Forall₂ (Derives 1) tss es) :
    Derives 8 (.word w :: .openParen :: ([.comma].intercalate tss ++ [.closeParen]))
      (calling w es) :=
  Derives.call (.atom hw) (listed_intercalate h)

end Cpp

namespace Frame

variable {f : Frame}

/-- The level at which what is emitted for an expression is read. -/
def level (f : Frame) : Expr → Nat
  | .binary op l r => if f.emitsCall (.binary op l r) then 8 else op.level
  | .unary _ _ => 7
  | _ => 8

theorem level_le (e : Expr) : f.level e ≤ 8 := by
  unfold level
  split
  · next op l r =>
    have := op.level_le
    split <;> omega
  · omega
  · omega

theorem level_pos (e : Expr) : 1 ≤ f.level e := by
  unfold level
  split
  · next op l r =>
    split
    · omega
    · cases op <;> decide
  · omega
  · omega

/-- What is emitted for an expression is read as a tree, at the expression's level. -/
def Reads (f : Frame) (e : Expr) (c : Cpp.Expr) (t : Tree) : Prop :=
  Derives (f.level e) c.lexemes t

theorem Reads.whole {e : Expr} {c : Cpp.Expr} {t : Tree} (h : f.Reads e c t) :
    Derives 1 c.lexemes t :=
  Cpp.Derives.lower h (level_le e) (level_pos e)

/-- An operand that is not grouped is of a level that its place allows. -/
theorem level_of_not_needsGroup {op : BinOp} {right : Bool} {e : Expr}
    (h : f.needsGroup op.precedence right e = false) : op.level + right.toNat ≤ f.level e := by
  have hop := op.level_le
  have hright := right.toNat_le
  cases e with
  | binary op' l r =>
    simp only [needsGroup, Bool.and_eq_false_iff, Bool.not_eq_false', Bool.or_eq_false_iff,
      decide_eq_false_iff_not] at h
    rw [level]
    split
    · omega
    · next hcall =>
      obtain hcall' | ⟨hlt, heq⟩ := h
      · exact absurd hcall' hcall
      obtain hlt' | heq' := Nat.lt_or_eq_of_le (Nat.le_of_not_lt hlt)
      · have := BinOp.level_lt_of_precedence_lt hlt'
        omega
      · obtain hne | ⟨rfl, hcmp⟩ := heq
        · exact absurd heq'.symm hne
        · exact Nat.le_of_eq (BinOp.level_eq_of_precedence_eq heq' hcmp)
  | _ =>
    simp only [level]
    omega

theorem derives_group {k : Nat} {c : Cpp.Expr} {t : Tree} (h : Derives 1 c.lexemes t) (hk : k ≤ 8) :
    Derives k (Cpp.Expr.group c).lexemes t :=
  Cpp.Derives.lower (.group h) (by omega) hk

theorem derives_operand (op : BinOp) (right : Bool) {e : Expr} {c : Cpp.Expr} {t : Tree}
    (h : f.Reads e c t) :
    Derives (op.level + right.toNat) (f.operand op.precedence right e c).lexemes t := by
  have hop := op.level_le
  have hright := right.toNat_le
  cases hgroup : f.needsGroup op.precedence right e with
  | true =>
    rw [operand, if_pos hgroup]
    exact derives_group h.whole (by omega)
  | false =>
    rw [operand, if_neg (by simp [hgroup])]
    exact Cpp.Derives.lower h (level_le e) (level_of_not_needsGroup hgroup)

theorem derives_atom {e : Expr} {c : Cpp.Expr} {t : Tree} (h : f.Reads e c t) :
    Derives 8 (atom e c).lexemes t := by
  unfold atom
  split
  · exact derives_group h.whole (Nat.le_refl 8)
  · exact derives_group h.whole (Nat.le_refl 8)
  · next hbinary hunary =>
    have hlevel : f.level e = 8 := by
      cases e with
      | binary op l r => exact absurd rfl (hbinary op l r)
      | unary op e => exact absurd rfl (hunary op e)
      | _ => rfl
    rw [Reads, hlevel] at h
    exact h

/-- One argument of a call. -/
theorem Reads.argument {e : Expr} {c : Cpp.Expr} {t : Tree} (h : f.Reads e c t) :
    List.Forall₂ (Derives 1) (Cpp.Expr.lexemesOf [c]) [t] := .cons h.whole .nil

theorem derives_construct {cs : List Cpp.Expr} {ts : List Tree}
    (h : List.Forall₂ (Derives 1) (Cpp.Expr.lexemesOf cs) ts) :
    Derives 8 (Cpp.Expr.construct .str cs).lexemes (calling "string" ts) :=
  Cpp.derives_calling (by decide) h

theorem derives_helper (h : Cpp.Helper) {cs : List Cpp.Expr} {ts : List Tree}
    (hargs : List.Forall₂ (Derives 1) (Cpp.Expr.lexemesOf cs) ts) :
    Derives 8 (Cpp.Expr.helper h cs).lexemes (calling h.text ts) :=
  Cpp.derives_calling (by cases h <;> decide) hargs

theorem derives_sequence {e : Expr} {c : Cpp.Expr} {t : Tree} (h : f.Reads e c t) :
    Derives 8 (sequence e c).lexemes (valued e t) := by
  cases e with
  | str s => exact derives_construct h.argument
  | _ => exact derives_atom h

theorem derives_condition (op : BinOp) (right : Bool) {e : Expr} {c : Cpp.Expr} {t : Tree}
    (h : f.Reads e c t) :
    Derives (op.level + right.toNat) (f.condition op.precedence right e c).lexemes
      (f.truthOf e t) := by
  have hop := op.level_le
  have hright := right.toNat_le
  unfold condition truthOf
  split
  · exact Cpp.Derives.lower (derives_helper .truthy h.argument) (by omega) (by omega)
  · exact derives_operand op right h

section Operators
variable {l r : Expr} {cl cr : Cpp.Expr} {a b : Tree}

theorem derives_binary (op : BinOp) {left right : Cpp.Expr} (hl : Derives op.level left.lexemes a)
    (hr : Derives (op.level + 1) right.lexemes b) :
    Derives op.level (Cpp.Expr.binary op left right).lexemes (.binary op.cppSymbol a b) :=
  .binary op.level?_cppSymbol hl hr

theorem exists_infixed (op : BinOp) (hl : f.Reads l cl a) (hr : f.Reads r cr b) :
    ∃ left right, f.infixed op l r cl cr = .binary op left right ∧
      Derives op.level left.lexemes (valued l a) ∧ Derives (op.level + 1) right.lexemes b := by
  have hop := op.level_le
  refine ⟨_, _, rfl, ?_, derives_operand op true hr⟩
  cases l with
  | str s => exact Cpp.Derives.lower (derives_construct hl.argument) (by omega) (by omega)
  | _ => exact derives_operand op false hl

theorem derives_infixed (op : BinOp) (hl : f.Reads l cl a) (hr : f.Reads r cr b) :
    Derives op.level (f.infixed op l r cl cr).lexemes (.binary op.cppSymbol (valued l a) b) := by
  obtain ⟨left, right, heq, hleft, hright⟩ := exists_infixed op hl hr
  rw [heq]
  exact derives_binary op hleft hright

theorem Reads.arguments (hl : f.Reads l cl a) (hr : f.Reads r cr b) :
    List.Forall₂ (Derives 1) (Cpp.Expr.lexemesOf [cl, cr]) [a, b] := .cons hl.whole hr.argument

theorem derives_quotient (hl : f.Reads l cl a) (hr : f.Reads r cr b) :
    Derives BinOp.div.level
      (Cpp.Expr.binary .div (.cast .float cl) (f.operand BinOp.div.precedence true r cr)).lexemes
      (.binary "/" (.cast .float a) b) := by
  refine derives_binary .div ?_ (derives_operand .div true hr)
  exact Cpp.Derives.lower (.cast (.inr rfl) hl.whole) (by omega) (by decide)

theorem derives_floored (hl : f.Reads l cl a) (hr : f.Reads r cr b) :
    Derives 8
      (Cpp.Expr.helper .floor [.binary .div (f.operand BinOp.floorDiv.precedence false l cl)
        (f.operand BinOp.floorDiv.precedence true r cr)]).lexemes
      (calling "floor" [.binary "/" a b]) := by
  have hdiv := derives_binary .div (derives_operand .floorDiv false hl)
    (derives_operand .floorDiv true hr)
  exact derives_helper .floor (.cons (Cpp.Derives.lower hdiv (by decide) (by decide)) .nil)

/-- An operator that stays one. -/
theorem reads_plain {op : BinOp} (hcall : f.emitsCall (.binary op l r) = false)
    (hop : f.operated op l r a b = .binary op.cppSymbol (valued l a) b)
    (hl : f.Reads l cl a) (hr : f.Reads r cr b) :
    f.Reads (.binary op l r) (f.combined op l r cl cr .plain) (f.operated op l r a b) := by
  rw [Reads, level, if_neg (by simp [hcall]), hop]
  exact derives_infixed op hl hr

/-- An operator that becomes a call. -/
theorem reads_call {op : BinOp} {c : Cpp.Expr} {t : Tree}
    (hcall : f.emitsCall (.binary op l r) = true) (h : Derives 8 c.lexemes t) :
    f.Reads (.binary op l r) c t := by
  rwa [Reads, level, if_pos hcall]

theorem shape?_add {left right : Ty} {sh : Shape} (h : shape? .add left right = some sh) :
    sh = if left = .list then .concat else .plain := by
  cases left <;> cases right <;> cases h <;> rfl

theorem shape?_mul {left right : Ty} {sh : Shape} (h : shape? .mul left right = some sh) :
    sh =
      if left.isSequence then .repeatLeft
      else if right.isSequence then .repeatRight
      else .plain := by
  cases left <;> cases right <;> cases h <;> rfl

/-- Every shape of an operator node is read as the operator or the call that stands for it. -/
theorem reads_combined {op : BinOp} {sh : Shape}
    (h : shape? op (f.typeOf l) (f.typeOf r) = some sh)
    (hl : f.Reads l cl a) (hr : f.Reads r cr b) :
    f.Reads (.binary op l r) (f.combined op l r cl cr sh) (f.operated op l r a b) := by
  cases op with
  | or =>
    cases h
    exact derives_binary .or (derives_condition .or false hl) (derives_condition .or true hr)
  | and =>
    cases h
    exact derives_binary .and (derives_condition .and false hl) (derives_condition .and true hr)
  | equal | notEqual | lessThan | lessEqual | greaterThan | greaterEqual | sub =>
    simp only [shape?, Option.ite_none_right_eq_some, Option.some.injEq] at h
    obtain ⟨_, rfl⟩ := h
    exact reads_plain rfl rfl hl hr
  | add =>
    obtain rfl := shape?_add h
    by_cases hlist : f.typeOf l = .list
    · rw [if_pos hlist, operated, if_pos hlist]
      exact reads_call (by simp [emitsCall, hlist]) (derives_helper .concat (hl.arguments hr))
    · rw [if_neg hlist]
      exact reads_plain (by simp [emitsCall, hlist]) (by rw [operated, if_neg hlist]; rfl) hl hr
  | mul =>
    obtain rfl := shape?_mul h
    by_cases hleft : (f.typeOf l).isSequence = true
    · rw [if_pos hleft, operated, if_pos hleft]
      exact reads_call (by simp [emitsCall, hleft]) (derives_helper .repeated (hl.arguments hr))
    by_cases hright : (f.typeOf r).isSequence = true
    · rw [if_neg hleft, if_pos hright, operated, if_neg hleft, if_pos hright]
      exact reads_call (by simp [emitsCall, hright]) (derives_helper .repeated (hr.arguments hl))
    · rw [if_neg hleft, if_neg hright]
      exact reads_plain (by simp [emitsCall, hleft, hright])
        (by rw [operated, if_neg hleft, if_neg hright]; rfl) hl hr
  | div =>
    simp only [shape?, Option.ite_none_right_eq_some, Option.some.injEq] at h
    obtain ⟨_, rfl⟩ := h
    exact derives_quotient hl hr
  | floorDiv =>
    simp only [shape?, Option.ite_none_right_eq_some, Option.some.injEq] at h
    obtain ⟨_, rfl⟩ := h
    apply reads_call rfl
    simp only [operated]
    split
    · exact derives_floored hl hr
    · exact derives_helper .floorDiv (hl.arguments hr)
  | mod =>
    simp only [shape?, Option.ite_none_right_eq_some, Option.some.injEq] at h
    obtain ⟨_, rfl⟩ := h
    apply reads_call rfl
    simp only [operated]
    split
    · exact derives_helper .fmod (hl.arguments hr)
    · exact derives_helper .mod (hl.arguments hr)

end Operators

/-! ## All expressions -/

theorem paramsOf_of_calleeParams {name : String} {given : Nat} {ps : List Param}
    (h : f.calleeParams name given = .ok ps) : f.table.paramsOf name = ps := by
  unfold calleeParams at h
  split at h
  · cases h
  · next s hs =>
    split at h
    · cases h
      rw [Table.paramsOf, hs]
      rfl
    · cases h

theorem reads_not {e : Expr} {c : Cpp.Expr} {t : Tree} (h : f.Reads e c t) :
    f.Reads (.unary .not e)
      (.unary .not (if (f.typeOf e).isSequence then .helper .truthy [c] else atom e c))
      (.prefixed "!" (f.truthOf e t)) := by
  refine .prefixed (by decide) (.climb (by decide) ?_)
  rw [truthOf]
  split
  · exact derives_helper .truthy h.argument
  · exact derives_atom h

theorem reads_sign {op : UnOp} {e : Expr} {c : Cpp.Expr} {t : Tree} (h : f.Reads e c t) :
    f.Reads (.unary op e) (.unary op (atom e c)) (.prefixed op.cppSymbol t) :=
  .prefixed (by cases op <;> decide) (.climb (by decide) (derives_atom h))

theorem intended_sign {op : UnOp} (hop : op ≠ .not) (e : Expr) :
    f.intended (.unary op e) = .prefixed op.cppSymbol (f.intended e) := by
  cases op with
  | not => exact absurd rfl hop
  | _ => rfl

theorem derives_whole {k : Nat} {ts : List Lexeme} {t : Tree} (h : Derives 8 ts t)
    (hk : k ≤ 8) : Derives k ts t := Cpp.Derives.lower h (Nat.le_refl 8) hk

theorem reads_index {target position : Expr} {ct ci : Cpp.Expr} {a b : Tree}
    (ht : f.Reads target ct a) (hp : f.Reads position ci b) :
    f.Reads (.index target position)
      (if f.typeOf target = .str then .construct .str [.int 1, element target ct ci]
        else element target ct ci)
      (if f.typeOf target = .str then
          calling "string" [one, calling "py_index" [valued target a, b]]
        else calling "py_index" [valued target a, b]) := by
  have helement : Derives 8 (element target ct ci).lexemes
      (calling "py_index" [valued target a, b]) :=
    derives_helper .index (.cons (derives_whole (derives_sequence ht) (by decide)) hp.argument)
  have hone : Derives 1 (Cpp.Expr.int 1).lexemes one := derives_whole (.atom rfl) (by decide)
  split
  · exact derives_construct (.cons hone (.cons (derives_whole helement (by decide)) .nil))
  · exact helement

theorem reads_argument {p : Param} {arg : Expr} {c : Cpp.Expr} {t : Tree} (h : f.Reads arg c t) :
    Derives 1 (argument p arg c).lexemes (passed p arg t) := by
  unfold argument passed
  cases p.mode with
  | mutRef =>
    cases arg with
    | var name => exact h.whole
    | _ => exact derives_whole (derives_helper .lvalue h.argument) (by decide)
  | _ => exact h.whole

theorem reads_len {e : Expr} {c : Cpp.Expr} {t : Tree} (h : f.Reads e c t) :
    f.Reads (.len e) (.cast .int (.size (sequence e c)))
      (.cast .int (.call (.member (valued e t) "size") [])) := by
  have hsize : Derives 8 (Cpp.Expr.size (sequence e c)).lexemes
      (.call (.member (valued e t) "size") []) := by
    have hmember : Derives 8 ((sequence e c).lexemes ++ [.dot, .word "size"])
        (.member (valued e t) "size") := .member (derives_sequence h)
    have hcall := hmember.call .none
    rwa [List.append_assoc] at hcall
  exact .cast (.inl rfl) (derives_whole hsize (by decide))

mutual

theorem Emits.reads : ∀ {e : Expr} {c : Cpp.Expr}, f.Emits e c → f.Reads e c (f.intended e)
  | _, _, .int n => .atom rfl
  | _, _, .float x => .atom rfl
  | _, _, .str s => .atom rfl
  | _, _, .bool b => .atom (by cases b <;> decide)
  | _, _, .var _ => .atom (Cpp.isOperand_spell _)
  | _, _, .binary hsh hl hr => reads_combined hsh hl.reads hr.reads
  | _, _, .not he => reads_not he.reads
  | _, _, .sign hop _ he => intended_sign hop _ ▸ reads_sign he.reads
  | _, _, .list _ hes => .vector (Cpp.listed_intercalate hes.reads)
  | _, _, .index _ ht hp => reads_index ht.reads hp.reads
  | _, _, .emptyText => derives_construct .nil
  | _, _, .text he => derives_helper .str he.reads.argument
  | _, _, .call hname hps hargs => by
    rw [intended, if_neg hname, paramsOf_of_calleeParams hps]
    exact Cpp.derives_calling (Cpp.isOperand_spell _) hargs.reads
  | _, _, .len _ he => reads_len he.reads
  | _, _, .range hstart hstop hstep => by
    have hzero : Derives 1 (Cpp.Expr.int 0).lexemes (.atom (.number "0")) :=
      derives_whole (.atom rfl) (by decide)
    cases hstop with
    | absent =>
      exact derives_helper .range (.cons hzero (.cons hstart.reads.whole (.cons hstep.reads .nil)))
    | present he =>
      exact derives_helper .range
        (.cons hstart.reads.whole (.cons he.reads.whole (.cons hstep.reads .nil)))

theorem EmitsAll.reads : ∀ {es : List Expr} {cs : List Cpp.Expr}, f.EmitsAll es cs →
    List.Forall₂ (Derives 1) (Cpp.Expr.lexemesOf cs) (f.intendedAll es)
  | _, _, .nil => .nil
  | _, _, .cons he hes => .cons he.reads.whole hes.reads

theorem EmitsOption.reads : ∀ {e : Option Expr} {c : Option Cpp.Expr}, f.EmitsOption e c →
    Derives 1 (c.getD (.int 1)).lexemes (f.intendedOr one e)
  | _, _, .absent => derives_whole (.atom rfl) (by decide)
  | _, _, .present he => he.reads.whole

theorem EmitsArgs.reads : ∀ {name : String} {ps : List Param} {args : List Expr}
    {cs : List Cpp.Expr}, f.EmitsArgs name ps args cs →
    List.Forall₂ (Derives 1) (Cpp.Expr.lexemesOf cs) (f.intendedArgs ps args)
  | _, ps, _, _, .done => by cases ps <;> exact .nil
  | _, _, args, _, .surplus => by cases args <;> exact .nil
  | _, _, _, _, .next _ he hargs => .cons (reads_argument he.reads) hargs.reads

end

end Frame

end Braces
