import Braces.Proofs.Counting.Texts
import Braces.Proofs.Counting.Passes
import Braces.Proofs.Grouping.Written
import Braces.Proofs.WellScoped

/-!
# Emitted heads of counting loops

What the parts of an emitted head are read as. Expressions are read as the trees that they mean, and
these hold no hidden names. A step that is a literal under signs stands for a number of that sign. A
bound that binds tighter than a comparison is compared as a whole; of one that is a comparison or a
condition itself only the first operand is.
-/

namespace Braces

open Cpp (Tree Derives Read ReadsTest ReadsAdvance Name Stem hiddenName counterTree)

/-- Whether the operator at the root of an expression binds no tighter than a comparison. -/
def Expr.isLoose : Expr → Bool
  | .binary op _ _ => op.isComparison || op.isLogical
  | _ => false

namespace Frame

variable {f : Frame}

/-! ## Words -/

/-- The words are spellings of variables, or literals. -/
def Owned (f : Frame) (ws : List String) : Prop :=
  ∀ w ∈ ws, (∃ x ∈ f.varNames, w = Cpp.spell x) ∨ w = "true" ∨ w = "false"

theorem owned_nil : f.Owned [] := List.forall_mem_nil _

theorem Owned.append {ws ws' : List String} (h : f.Owned ws) (h' : f.Owned ws') :
    f.Owned (ws ++ ws') := List.forall_mem_append.mpr ⟨h, h'⟩

theorem mem_varNames_of_isVariable {x : String} (h : f.isVariable x = true) : x ∈ f.varNames := by
  rw [isVariable, Bool.or_eq_true, Option.isSome_iff_exists, List.any_eq_true] at h
  obtain ⟨l, hl⟩ | ⟨p, hp, hx⟩ := h
  · exact mem_varNames_of_local hl
  · exact List.mem_append_right _ (List.mem_map.mpr ⟨p, hp, of_decide_eq_true hx⟩)

theorem Owned.hiddenName_not_mem {ws : List String} (h : f.Owned ws) {s : Stem} {n : Nat}
    (hfree : hiddenName s n ∉ f.varNames) : hiddenName s n ∉ ws := by
  intro hmem
  obtain ⟨x, hx, heq⟩ | htrue | hfalse := h _ hmem
  · exact hiddenName_ne_spell hx hfree heq
  · have hhead := congrArg (fun s : String => s.toList.head?) htrue
    simp [Cpp.toList_hiddenName] at hhead
  · have hhead := congrArg (fun s : String => s.toList.head?) hfalse
    simp [Cpp.toList_hiddenName] at hhead

@[simp] theorem words_calling (name : String) (ts : List Tree) :
    (calling name ts).words = Cpp.wordsOf ts := rfl

@[simp] theorem words_valued (e : Expr) (t : Tree) : (valued e t).words = t.words := by
  cases e with
  | str s => exact List.append_nil t.words
  | _ => rfl

@[simp] theorem words_truthOf (e : Expr) (t : Tree) : (f.truthOf e t).words = t.words := by
  unfold truthOf
  split
  · exact List.append_nil t.words
  · rfl

theorem Owned.operated {a b : Tree} (ha : f.Owned a.words) (hb : f.Owned b.words) (op : BinOp)
    (l r : Expr) : f.Owned (f.operated op l r a b).words := by
  have hab := ha.append hb
  cases op with
  | add | floorDiv | mod =>
    simp only [Frame.operated]
    split <;> simpa [Tree.words, Cpp.wordsOf] using hab
  | mul =>
    simp only [Frame.operated]
    split
    · simpa [Cpp.wordsOf] using hab
    split
    · simpa [Cpp.wordsOf] using hb.append ha
    · simpa [Tree.words] using hab
  | _ => simpa [Frame.operated, Tree.words] using hab

mutual

/-- The tree of an expression holds no words but those of variables and literals. -/
theorem Emits.owned : ∀ {e : Expr} {c : Cpp.Expr}, f.Emits e c → f.Owned (f.intended e).words
  | _, _, .int _ => owned_nil
  | _, _, .float _ => owned_nil
  | _, _, .str _ => owned_nil
  | _, _, .bool b => by
    refine List.forall_mem_singleton.mpr (.inr ?_)
    cases b
    · exact .inr rfl
    · exact .inl rfl
  | _, _, .var hname =>
    List.forall_mem_singleton.mpr (.inl ⟨_, mem_varNames_of_isVariable hname, rfl⟩)
  | _, _, .binary _ hl hr => hl.owned.operated hr.owned _ _ _
  | _, _, .not he => by simpa [intended, Tree.words] using he.owned
  | _, _, .sign hop _ he => by
    rw [intended_sign hop]
    exact he.owned
  | _, _, .list _ hes => hes.owned
  | _, _, .index _ ht hp => by
    have hboth := ht.owned.append hp.owned
    simp only [intended]
    split <;> simpa [Cpp.wordsOf, one, Tree.words] using hboth
  | _, _, .emptyText => owned_nil
  | _, _, .text he => by simpa [intended, intendedAll, Cpp.wordsOf] using he.owned
  | _, _, .call hname hps hargs => by
    rw [intended, if_neg hname, paramsOf_of_calleeParams hps]
    exact hargs.owned
  | _, _, .len _ he => by simpa [intended, Tree.words, Cpp.wordsOf] using he.owned
  | _, _, .range hstart hstop hstep => by
    cases hstop with
    | absent =>
      simpa [intended, Tree.words, Cpp.wordsOf] using hstart.owned.append hstep.owned
    | present he =>
      simpa [intended, Tree.words, Cpp.wordsOf] using
        hstart.owned.append (he.owned.append hstep.owned)

theorem EmitsAll.owned : ∀ {es : List Expr} {cs : List Cpp.Expr}, f.EmitsAll es cs →
    f.Owned (Cpp.wordsOf (f.intendedAll es))
  | _, _, .nil => owned_nil
  | _, _, .cons he hes => he.owned.append hes.owned

theorem EmitsOption.owned : ∀ {e : Option Expr} {c : Option Cpp.Expr}, f.EmitsOption e c →
    f.Owned (f.intendedOr one e).words
  | _, _, .absent => owned_nil
  | _, _, .present he => he.owned

theorem EmitsArgs.owned : ∀ {name : String} {ps : List Param} {args : List Expr}
    {cs : List Cpp.Expr}, f.EmitsArgs name ps args cs →
    f.Owned (Cpp.wordsOf (f.intendedArgs ps args))
  | _, ps, _, _, .done => by cases ps <;> exact owned_nil
  | _, _, args, _, .surplus => by cases args <;> exact owned_nil
  | _, _, _, _, @EmitsArgs.next _ _ p _ arg _ _ _ _ he hargs => by
    refine Owned.append ?_ hargs.owned
    have hwords : (passed p arg (f.intended arg)).words = (f.intended arg).words := by
      unfold passed
      split
      · rfl
      · exact List.append_nil _
      · rfl
    rw [hwords]
    exact he.owned

end

/-! ## Expressions and literals -/

theorem Emits.read {e : Expr} {c : Cpp.Expr} (h : f.Emits e c) (hp : Printable e.parts) {k : Nat}
    (hk : k ≤ f.level e) : Read (Derives k) c.text (f.intended e) :=
  ⟨c.lexemes, (h.lexical hp).spells.expression, Cpp.Derives.lower h.reads (level_le e) hk⟩

theorem five_le_level {e : Expr} (h : e.isLoose = false) : 5 ≤ f.level e := by
  cases e with
  | binary op l r =>
    rw [level]
    split
    · omega
    · revert h
      cases op <;> simp [Expr.isLoose, BinOp.isComparison, BinOp.isLogical, BinOp.level]
  | _ => simp [level]

theorem isLoose_of_literalSign? {e : Expr} {g : Int} (h : e.literalSign? = some g) :
    e.isLoose = false := by
  cases e with
  | binary op l r => cases h
  | _ => rfl

/-- A literal under signs stands for a number of the sign that it shows. -/
theorem stands_of_literalSign? {e : Expr} {g : Int} (h : e.literalSign? = some g)
    (hp : Printable e.parts) : ∃ n : Int, (f.intended e).Stands n ∧ n.sign = g := by
  fun_induction Expr.literalSign? e generalizing g with
  | case1 n =>
    have hn : 0 ≤ n := by simpa [Expr.isWritten] using hp.written _ (Expr.mem_parts_self _)
    exact ⟨n, fun V σ => V.literal hn σ, Option.some.inj h⟩
  | case2 e ih =>
    obtain ⟨n, hn, hsign⟩ := ih h (hp.mono (by simp +contextual [Expr.parts]))
    exact ⟨n, fun V σ => (V.plus σ _).trans (hn V σ), hsign⟩
  | case3 e ih =>
    obtain ⟨g, hg, rfl⟩ := Option.map_eq_some_iff.mp h
    obtain ⟨n, hn, rfl⟩ := ih hg (hp.mono (by simp +contextual [Expr.parts]))
    refine ⟨-n, fun V σ => ?_, Int.sign_neg n⟩
    exact (V.minus σ _).trans (by rw [hn V σ]; rfl)
  | case4 => cases h

theorem read_zero : Read (Derives 5) (Cpp.Expr.int 0).text Cpp.zeroTree :=
  ⟨[.number "0"], (Cpp.Lexical.int (Int.le_refl 0)).spells.expression,
    derives_whole (.atom rfl) (by decide)⟩

/-! ## Conditions -/

theorem read_towards {counter : Name} {bound : Cpp.Expr} {b : Tree} (up : Bool)
    (hc : counter.Plain) (hb : Read (Derives 5) bound.text b) :
    Read (Derives 4) (towards up counter bound).text
      (.binary (if up then "<" else ">") (counterTree counter.text) b) := by
  cases up
  · exact Cpp.read_binary .greaterThan (hc.read (by decide)) hb
  · exact Cpp.read_binary .lessThan (hc.read (by decide)) hb

/-- The operands of a comparison or a condition. -/
theorem Emits.loose {e : Expr} {c : Cpp.Expr} (h : f.Emits e c) (hloose : e.isLoose = true) :
    ∃ op left right l r, BinOp.level op ≤ 4 ∧ c = .binary op left right ∧
      Derives op.level left.lexemes l ∧ Derives (op.level + 1) right.lexemes r := by
  cases h with
  | @binary op l r cl cr sh hsh hl hr =>
    cases op with
    | or =>
      cases hsh
      exact ⟨.or, _, _, _, _, by decide, rfl, derives_condition .or false hl.reads,
        derives_condition .or true hr.reads⟩
    | and =>
      cases hsh
      exact ⟨.and, _, _, _, _, by decide, rfl, derives_condition .and false hl.reads,
        derives_condition .and true hr.reads⟩
    | equal | notEqual | lessThan | lessEqual | greaterThan | greaterEqual =>
      simp only [shape?, Option.ite_none_right_eq_some, Option.some.injEq] at hsh
      obtain ⟨_, rfl⟩ := hsh
      obtain ⟨left, right, heq, hleft, hright⟩ := exists_infixed _ hl.reads hr.reads
      exact ⟨_, left, right, _, _, by decide, heq, hleft, hright⟩
    | _ => cases hloose
  | _ => cases hloose

/-- The comparison of a counter with such an expression takes only its first operand. -/
theorem Emits.read_drawn {e : Expr} {c : Cpp.Expr} (h : f.Emits e c) (hp : Printable e.parts)
    (hloose : e.isLoose = true) {counter : Name} (hc : counter.Plain) (up : Bool) :
    ∃ t, Read ReadsTest (towards up counter c).text (.plain t) ∧
      ∀ op w b, t ≠ .binary op (counterTree w) b := by
  have hspells := (h.lexical hp).spells.expression
  obtain ⟨op, left, right, l, r, hop, rfl, hl, hr⟩ := h.loose hloose
  have hlevel : Cpp.level? (if up then BinOp.lessThan else .greaterThan).cppSymbol = some 4 := by
    cases up <;> rfl
  obtain ⟨op', l', r', hdrawn⟩ := hl.drawn hlevel counter.isOperand hop
  refine ⟨.binary op.cppSymbol (.binary op' l' r') r, ?_, ?_⟩
  · have hwhole := Derives.binary op.level?_cppSymbol hdrawn hr
    refine ⟨_, Cpp.spells_binary _ hc.spells hspells, .plain ?_⟩
    exact Cpp.Derives.lower hwhole (by omega) (by cases op <;> decide)
  · intro op w b heq
    rw [Tree.binary.injEq] at heq
    cases heq.2.1

/-! ## Conditions and advances -/

/-- The condition and the advance of a head are read as those of a counter that goes on by steps of
`S` up to a bound. -/
def ReadsPace (ca : Cpp.Expr × Cpp.Advance) (counter : Name) (b : Tree) (S : Option Tree)
    (strides : List (String × Tree)) : Prop :=
  ∃ test d, Read ReadsTest ca.1.text test ∧ Read (ReadsAdvance · counter.text) ca.2.text d ∧
    Cpp.Paced counter.text b S test d strides

section Pace
variable {counter : Name} {bound : Cpp.Expr} {b : Tree} {e : Expr} {c : Cpp.Expr}

theorem readsPace_one (hc : counter.Plain) (hb : Read (Derives 5) bound.text b)
    (sign? : Option Int) :
    ReadsPace (counting sign? counter bound none) counter b none [] :=
  ⟨_, _, (read_towards true hc hb).test (by decide) (by decide), Cpp.read_increment hc, .one⟩

theorem readsPace_literal (hc : counter.Plain) (hb : Read (Derives 5) bound.text b)
    (he : f.Emits e c) (hp : Printable e.parts) {g : Int} (hg : e.literalSign? = some g)
    (hne : g ≠ 0) :
    ReadsPace (counting (some g) counter bound (some c)) counter b (some (f.intended e)) [] := by
  obtain ⟨n, hn, rfl⟩ := stands_of_literalSign? (f := f) hg hp
  have hadvance := Cpp.read_add hc (he.read hp (level_pos e))
  have htest := (read_towards (decide (0 < n.sign)) hc hb).test (by decide) (by decide)
  refine ⟨_, _, htest, hadvance, ?_⟩
  obtain hneg | rfl | hpos := Int.lt_trichotomy n 0
  · rw [Int.sign_eq_neg_one_of_neg hneg]
    exact .down hn hneg
  · exact absurd rfl hne
  · rw [Int.sign_eq_one_of_pos hpos]
    exact .up hn hpos

theorem readsPace_either (hc : counter.Plain) (hb : Read (Derives 5) bound.text b) (w : Name)
    (hw : w.Plain) (t : Tree) :
    ReadsPace (counting none counter bound (some (.var w))) counter b (some t)
      [(w.text, calling "py_step" [t])] := by
  have hsign := Cpp.read_binary .greaterThan (hw.read (by decide)) read_zero
  have htest := Cpp.read_choose (hsign.lower (by decide) (by decide))
    ((read_towards true hc hb).lower (by decide) (by decide))
    ((read_towards false hc hb).lower (by decide) (by decide))
  exact ⟨_, _, htest, Cpp.read_add hc (hw.read (by decide)), .either t w.text⟩

end Pace

/-- A step and the hidden variable that holds it, if it is not known to be different from zero. -/
theorem EmitsOption.pace {step : Option Expr} {cstep : Option Cpp.Expr}
    (h : f.EmitsOption step cstep) (hp : Printable (Expr.partsOfOption step)) {counter : Name}
    {bound : Cpp.Expr} {b : Tree} (hc : counter.Plain)
    (hb : Read (Derives 5) bound.text b) (n : Nat) :
    ∃ strides, List.Forall₂ Cpp.ReadInit (hiddenStride n (stepSign? step) cstep).2 strides ∧
      ReadsPace (counting (stepSign? step) counter bound (hiddenStride n (stepSign? step) cstep).1)
        counter b (step.map f.intended) strides ∧
      ((stepSign? step).isSome ∧ strides = [] ∨
        ∃ e c, f.Emits e c ∧ step = some e ∧
          strides = [(hiddenName .stride n, calling "py_step" [f.intended e])]) := by
  cases h with
  | absent => exact ⟨[], .nil, readsPace_one hc hb _, .inl ⟨rfl, rfl⟩⟩
  | @present e c he =>
    cases hsign : stepSign? (some e) with
    | some g =>
      obtain ⟨hg, hne⟩ := Option.filter_eq_some_iff.mp hsign
      exact ⟨[], .nil, readsPace_literal hc hb he hp hg (of_decide_eq_true hne), .inl ⟨rfl, rfl⟩⟩
    | none =>
      have hstep : Read (Derives 1) (Cpp.Expr.helper .step [c]).text
          (calling "py_step" [f.intended e]) :=
        ⟨_, (Cpp.Lexical.helper (.cons (he.lexical hp) .nil)).spells.expression,
          derives_whole (derives_helper .step he.reads.argument) (by decide)⟩
      exact ⟨[_], .cons ⟨trivial, rfl, hstep⟩ .nil,
        readsPace_either hc hb (.hidden .stride n) trivial _, .inr ⟨e, c, he, rfl, rfl⟩⟩

end Frame

end Braces
