import Braces.Proofs.Typing.Rules

/-!
# Inferred and emitted types agree

What is emitted for an expression has, by the rules of the target language, the type that inference
gives the expression, exactly if its literals are finite and the bounds of its ranges are numbers.
Only a literal in quotes stays a pointer, and it never comes to stand to the left of an operator on
text. Conditions and the operands of logical operators are numbers or truth values.
-/

namespace Braces

namespace Cpp

/-- Variables and functions whose types are known are declared accordingly. -/
structure Declarations.Follow (Γ : Declarations) (f : Frame) : Prop where
  varTy : ∀ name, (f.varTy name).isValue = true →
    ∃ τ, Γ.varTy (.source name) = some τ ∧ τ.Declares (f.varTy name)
  resultTy : ∀ name s, f.table.signature? name = some s → s.result.isValue = true →
    ∃ τ, Γ.resultTy name = some τ ∧ τ.Declares s.result

end Cpp

namespace Frame

open Cpp (ExprTy Declarations)

variable {Γ : Declarations} {f : Frame} {e : Expr} {c : Cpp.Expr}

/-! ## The inferred types -/

theorem typeOf_index (target position : Expr) :
    f.typeOf (.index target position) = if f.typeOf target = .str then .str else .int := by
  rw [typeOf, Table.typeOf]
  rfl

theorem typeOf_sign {op : UnOp} (h : op ≠ .not) :
    f.typeOf (.unary op e) = if f.typeOf e = .bool then .int else f.typeOf e := by
  rw [typeOf, Table.typeOf, if_neg h]
  rfl

theorem typeOf_call {name : String} {args : List Expr} {s : Signature} (hname : name ≠ Expr.strName)
    (hs : f.table.signature? name = some s) : f.typeOf (.call name args) = s.result := by
  rw [typeOf, Table.typeOf, if_neg hname, hs]
  rfl

/-- The type of an operator node is the one that inference gives it. -/
theorem ty?_result {op : BinOp} {l r : Expr} {σ τ : ExprTy} {sh : Shape}
    (hs : sh.Allows op (f.typeOf l) (f.typeOf r)) (hσ : σ.ty? = some (f.typeOf l))
    (hτ : τ.ty? = some (f.typeOf r)) :
    (sh.result op σ τ).ty? = some (f.typeOf (.binary op l r)) := by
  have hl := ExprTy.holds_of_ty? hσ
  have hr := ExprTy.holds_of_ty? hτ
  -- What is repeated keeps its kind.
  have hrepeat : ∀ {t : Ty} {ρ : ExprTy}, ρ.Holds t → t.isSequence = true →
      (if ρ.isTextual then ExprTy.text else .vector).ty? = some t := by
    intro t ρ hρ ht
    cases t <;> first | (cases ht; done) | skip
    · rw [if_pos (hρ.isTextual_iff.2 rfl)]
      rfl
    · rw [hρ.eq_vector]
      rfl
  cases sh with
  | logical => rw [typeOf_logical hs]; rfl
  | plain =>
    obtain ⟨hop, htypes⟩ := hs
    rw [Shape.result]
    by_cases hcomparison : op.isComparison = true
    · rw [if_pos hcomparison, typeOf_comparison hcomparison]
      rfl
    rw [if_neg hcomparison, typeOf_ring (hop.resolve_left hcomparison)]
    by_cases hstr : f.typeOf l = .str
    · obtain ⟨hnum, -⟩ | ⟨hr, -⟩ := htypes
      · rw [hstr] at hnum
        cases hnum
      · rw [if_pos (hl.isTextual_iff.2 hstr), hr, hstr]
        rfl
    · rw [if_neg (mt hl.isTextual_iff.1 hstr)]
      obtain ⟨hnum, hnum'⟩ | ⟨-, hop'⟩ := htypes
      · exact ExprTy.ty?_promote hσ hτ hnum hnum'
      · exact absurd (hop'.resolve_left hcomparison).2 hstr
  | concat =>
    obtain ⟨rfl, hlist, hlist'⟩ := hs
    rw [typeOf_ring rfl, hlist, hlist']
    rfl
  | repeatLeft =>
    obtain ⟨rfl, hseq, hcount⟩ := hs
    rw [typeOf_ring rfl, (Ty.arithmetic_of_sequence hseq hcount).1]
    exact hrepeat hl hseq
  | repeatRight =>
    obtain ⟨rfl, hseq, hcount⟩ := hs
    rw [typeOf_ring rfl, (Ty.arithmetic_of_sequence hseq hcount).2]
    exact hrepeat hr hseq
  | quotient =>
    obtain ⟨rfl, -⟩ := hs
    rfl
  | floatFloor | floatMod =>
    obtain ⟨rfl, hnum, hnum', hfloat⟩ := hs
    rw [typeOf_binary]
    exact congrArg some (Ty.arithmetic_of_float hnum hnum' hfloat).symm
  | floor | mod =>
    obtain ⟨rfl, hnum, hnum', hfloat⟩ := hs
    rw [typeOf_binary]
    exact congrArg some (Ty.arithmetic_of_not_float hnum hnum' hl.isValue hr.isValue hfloat).symm

/-- Expressions have the types that inference gives them. -/
def inferred (f : Frame) : f.Typing where
  fits e τ := τ.ty? = some (f.typeOf e)
  holds := ExprTy.holds_of_ty?
  int n := by split <;> rfl
  float _ := rfl
  str _ := rfl
  bool _ := rfl
  binary := ty?_result
  not _ := rfl
  sign := by
    intro op e τ hop hnum hτ
    rw [typeOf_sign hop]
    cases τ <;> cases hte : f.typeOf e <;> rw [hte] at hτ hnum <;>
      first | rfl | (cases hτ; done) | cases hnum
  list _ := rfl
  index target position := by
    rw [typeOf_index]
    split <;> rfl
  text _ := rfl
  len _ := rfl
  range _ _ _ := rfl

theorem declared_inferred (hΓ : Γ.Follow f) : f.inferred.Declared Γ where
  var name hvalue := by
    obtain ⟨τ, hτ, hty, hne⟩ := hΓ.varTy name hvalue
    exact ⟨τ, hτ, hne, hty⟩
  call name s args hname hs hvalue := by
    obtain ⟨τ, hτ, hty, hne⟩ := hΓ.resultTy name s hs hvalue
    refine ⟨τ, hτ, hne, hty.trans ?_⟩
    rw [typeOf_call hname hs]

/-! ## Text and conditions -/

section
variable {l r : Expr} {cl cr : Cpp.Expr} {σ τ : ExprTy}

/-- A literal does not stay a pointer to the left of an operator on text. -/
theorem HasTy.textOnLeft {op : BinOp} (hl : HasTy Γ f l cl σ) (hr : HasTy Γ f r cr τ)
    (hs : Shape.plain.Allows op (f.typeOf l) (f.typeOf r)) :
    (Cpp.Expr.binary op (f.leftOperand op l cl)
      (f.operand op.precedence true r cr)).TextOnLeft Γ := by
  intro _ htext
  rw [hl.type?_leftOperand, type?_operand, hr.type] at htext
  rw [hl.type?_leftOperand, Option.some.injEq]
  obtain ⟨-, ⟨hnum, hnum'⟩ | ⟨heq, -⟩⟩ := hs
  · -- Numbers are not text, on either side.
    obtain htext | htext := htext
    · rw [hl.holds.value.isTextual_iff.1 htext] at hnum
      cases hnum
    · rw [hr.holds.isTextual_iff.1 htext] at hnum'
      cases hnum'
  · have hstr : f.typeOf l = .str := by
      obtain htext | htext := htext
      · exact hl.holds.value.isTextual_iff.1 htext
      · exact heq.symm.trans (hr.holds.isTextual_iff.1 htext)
    exact ExprTy.value_of_isTextual (hl.holds.isTextual_iff.2 hstr)

theorem HasTy.any_truthy (h : HasTy Γ f e c τ) {c' : Cpp.Expr} (hc' : c'.type? Γ = c.type? Γ) :
    ((if (f.typeOf e).isSequence then .helper .truthy [c] else c' : Cpp.Expr).type? Γ).any
      (·.isArithmetic) = true := by
  obtain ⟨ρ, hρ, hnum⟩ := h.exists_truthy hc'
  rw [hρ]
  exact hnum

theorem sound_truthy (h : c.Sound Γ) {c' : Cpp.Expr} (hc' : c'.Sound Γ) :
    (if (f.typeOf e).isSequence then .helper .truthy [c] else c' : Cpp.Expr).Sound Γ := by
  split
  · exact Cpp.Expr.sound_helper (.cons h .nil)
  · exact hc'

theorem sound_sequence (h : c.Sound Γ) : (sequence e c).Sound Γ := by
  unfold sequence
  split
  · exact Cpp.Expr.sound_construct (.cons h .nil)
  · exact sound_atom h

theorem sound_leftOperand {op : BinOp} (h : c.Sound Γ) : (f.leftOperand op e c).Sound Γ := by
  unfold leftOperand
  split
  · exact Cpp.Expr.sound_construct (.cons (sound_operand h) .nil)
  · exact sound_operand h

theorem sound_argument {p : Param} (h : c.Sound Γ) : (argument p e c).Sound Γ := by
  unfold argument
  split
  · exact h
  · exact Cpp.Expr.sound_helper (.cons h .nil)
  · exact h

theorem sound_int (n : Int) : (Cpp.Expr.int n).Sound Γ := Cpp.Expr.sound_leaf rfl ⟨trivial, trivial⟩

theorem sound_quotient (hl : cl.Sound Γ) (hr : cr.Sound Γ) :
    (Cpp.Expr.binary .div cl cr).Sound Γ := by
  refine Cpp.Expr.sound_binary (fun _ => ⟨fun hop => ?_, fun hop => ?_⟩) hl hr
  · rcases hop with hop | hop <;> cases hop
  · cases hop

/-- Operators find text and numbers where they ask for them, if their operands have types at all. -/
theorem sound_combined {op : BinOp} {sh : Shape} (hs : sh.Allows op (f.typeOf l) (f.typeOf r))
    (hl : cl.Typable Γ → ∃ σ, HasTy Γ f l cl σ) (hr : cr.Typable Γ → ∃ τ, HasTy Γ f r cr τ)
    (hlsound : cl.Sound Γ) (hrsound : cr.Sound Γ) : (f.combined op l r cl cr sh).Sound Γ := by
  cases sh with
  | logical =>
    have hcomparison : ¬(op = .add ∨ op.isComparison = true) := by
      cases op <;> first | (cases hs; done) | decide
    refine Cpp.Expr.sound_binary (fun ht => ⟨fun h => absurd h hcomparison, fun _ => ?_⟩)
      (sound_truthy hlsound (sound_operand hlsound)) (sound_truthy hrsound (sound_operand hrsound))
    obtain ⟨htl, htr⟩ := ht.binary
    obtain ⟨σ, hσ⟩ := hl (typable_of_truthy (type?_operand _ _) htl)
    obtain ⟨τ, hτ⟩ := hr (typable_of_truthy (type?_operand _ _) htr)
    exact ⟨hσ.any_truthy (type?_operand _ _), hτ.any_truthy (type?_operand _ _)⟩
  | plain =>
    rw [combined, infixed_eq]
    have hlogical := (BinOp.of_isComparison_or_isRing hs.1).1
    refine Cpp.Expr.sound_binary (fun ht => ⟨?_, fun h => ?_⟩) (sound_leftOperand hlsound)
      (sound_operand hrsound)
    · obtain ⟨htl, htr⟩ := @typable_of_combined _ _ op l r cl cr .plain ht
      obtain ⟨σ, hσ⟩ := hl htl
      obtain ⟨τ, hτ⟩ := hr htr
      exact hσ.textOnLeft hτ hs
    · rw [hlogical] at h
      cases h
  | quotient => exact sound_quotient (Cpp.Expr.sound_cast hlsound) (sound_operand hrsound)
  | floatFloor =>
    exact Cpp.Expr.sound_helper
      (.cons (sound_quotient (sound_operand hlsound) (sound_operand hrsound)) .nil)
  | repeatRight => exact Cpp.Expr.sound_helper (.pair hrsound hlsound)
  | concat | repeatLeft | floor | floatMod | mod =>
    exact Cpp.Expr.sound_helper (.pair hlsound hrsound)

theorem sound_range {start : Cpp.Expr} {stop step : Option Cpp.Expr} (hstart : start.Sound Γ)
    (hstop : ∀ c ∈ stop, c.Sound Γ) (hstep : ∀ c ∈ step, c.Sound Γ) :
    (match stop with
      | some c => Cpp.Expr.helper .range [start, c, step.getD (.int 1)]
      | none => .helper .range [.int 0, start, step.getD (.int 1)]).Sound Γ := by
  have hstride : (step.getD (.int 1)).Sound Γ := by
    cases step with
    | none => exact sound_int 1
    | some c => exact hstep c rfl
  cases stop with
  | none => exact Cpp.Expr.sound_helper (.cons (sound_int 0) (.pair hstart hstride))
  | some c => exact Cpp.Expr.sound_helper (.cons hstart (.pair (hstop c rfl) hstride))

end

section
variable {T : f.Typing}

/-- What has a type has one that holds its values. -/
theorem Emits.exists_hasTy (hΓ : T.Declared Γ) (h : f.Emits e c) (hv : f.AllHaveValues e.parts)
    (ht : c.Typable Γ) : ∃ τ, HasTy Γ f e c τ := by
  obtain ⟨τ, hτ, -⟩ := h.gives_of_typable hΓ hv ht
  exact ⟨τ, hτ⟩

mutual

theorem Emits.sound (hΓ : T.Declared Γ) : ∀ {e : Expr} {c : Cpp.Expr}, f.Emits e c →
    f.AllHaveValues e.parts → c.Sound Γ
  | _, _, .int n, _ => sound_int n
  | _, _, .float _, _ | _, _, .str _, _ | _, _, .bool _, _ | _, _, .var _, _ =>
    Cpp.Expr.sound_leaf rfl ⟨trivial, trivial⟩
  | _, _, .binary hs hl hr, hv => by
    obtain ⟨hvl, hvr⟩ := hv.tail.append
    exact sound_combined (allows_of_shape? hs) (hl.exists_hasTy hΓ hvl) (hr.exists_hasTy hΓ hvr)
      (hl.sound hΓ hvl) (hr.sound hΓ hvr)
  | _, _, .not he, hv => by
    have hsound := he.sound hΓ hv.tail
    refine Cpp.Expr.sound_unary (fun ht _ => ?_) (sound_truthy hsound (sound_atom hsound))
    obtain ⟨τ, hτ⟩ := he.exists_hasTy hΓ hv.tail (typable_of_truthy type?_atom ht.unary)
    exact hτ.any_truthy type?_atom
  | _, _, .sign hop _ he, hv =>
    Cpp.Expr.sound_unary (fun _ h => absurd h hop) (sound_atom (he.sound hΓ hv.tail))
  | _, _, .list _ hes, hv => Cpp.Expr.sound_vector (hes.sound hΓ hv.tail)
  | _, _, @Emits.index _ target position ct ci _ ht hi, hv => by
    obtain ⟨hvt, hvi⟩ := hv.tail.append
    have helement : (element target ct ci).Sound Γ :=
      Cpp.Expr.sound_helper (.pair (sound_sequence (ht.sound hΓ hvt)) (hi.sound hΓ hvi))
    split
    · exact Cpp.Expr.sound_construct (.pair (sound_int 1) helement)
    · exact helement
  | _, _, .emptyText, _ => Cpp.Expr.sound_construct .nil
  | _, _, .text he, hv => Cpp.Expr.sound_helper (.cons (he.sound hΓ hv.tail.append.1) .nil)
  | _, _, .call _ _ hargs, hv => Cpp.Expr.sound_call (hargs.sound hΓ hv.tail)
  | _, _, .len _ he, hv =>
    Cpp.Expr.sound_cast (Cpp.Expr.sound_size (sound_sequence (he.sound hΓ hv.tail)))
  | _, _, .range hstart hstop hstep, hv => by
    obtain ⟨hvstart, hv⟩ := hv.tail.append
    obtain ⟨hvstop, hvstep⟩ := hv.append
    exact sound_range (hstart.sound hΓ hvstart) (hstop.sound hΓ hvstop) (hstep.sound hΓ hvstep)

theorem EmitsAll.sound (hΓ : T.Declared Γ) : ∀ {es : List Expr} {cs : List Cpp.Expr},
    f.EmitsAll es cs → f.AllHaveValues (Expr.partsOf es) → Cpp.Expr.AllSound Γ cs
  | _, _, .nil, _ => .nil
  | _, _, .cons he hes, hv => by
    obtain ⟨hve, hves⟩ := hv.append
    exact .cons (he.sound hΓ hve) (hes.sound hΓ hves)

theorem EmitsOption.sound (hΓ : T.Declared Γ) : ∀ {o : Option Expr} {co : Option Cpp.Expr},
    f.EmitsOption o co → f.AllHaveValues (Expr.partsOfOption o) → ∀ c ∈ co, c.Sound Γ
  | _, _, .present he, hv, _, rfl => he.sound hΓ hv

theorem EmitsArgs.sound (hΓ : T.Declared Γ) : ∀ {name : String} {ps : List Param}
    {args : List Expr} {cs : List Cpp.Expr}, f.EmitsArgs name ps args cs →
    f.AllHaveValues (Expr.partsOf args) → Cpp.Expr.AllSound Γ cs
  | _, _, _, _, .done, _ => .nil
  | _, _, _, _, .surplus, _ => .nil
  | _, _, _, _, .next _ he hargs, hv => by
    obtain ⟨hve, hvargs⟩ := hv.append
    exact .cons (sound_argument (he.sound hΓ hve)) (hargs.sound hΓ hvargs)

end

end

/-! ## Declarations -/

/-- The declarations of a frame's variables and functions. -/
def declarations (f : Frame) : Declarations where
  varTy
    | .source name => ExprTy.ofTy? (f.varTy name)
    | .hidden _ _ => none
  resultTy name := (f.table.signature? name).bind fun s => ExprTy.ofTy? s.result

theorem declares_ofTy? {t : Ty} (h : t.isValue = true) :
    ∃ τ, ExprTy.ofTy? t = some τ ∧ τ.Declares t := by
  cases t <;> first | exact ⟨_, rfl, rfl, nofun⟩ | cases h

theorem follow_declarations (f : Frame) : f.declarations.Follow f := by
  constructor
  · intro name h
    exact declares_ofTy? h
  · intro name s hs h
    obtain ⟨τ, hτ, hdeclares⟩ := declares_ofTy? h
    exact ⟨τ, by simp only [declarations, hs, Option.bind_some, hτ], hdeclares⟩

end Frame

/-- If the variables and the called functions have values, an emitted expression has the type that
inference gives it, where a literal in quotes counts as text, exactly if its literals are finite and
the bounds of its ranges are numbers. In it, an operator on text then has a `string` on its left,
logical operators have numbers or truth values around them, and as a condition it is a number or a
truth value itself. Of an expression without a type, the parts that have one are no different. -/
theorem emitted_type_iff_builds {f : Frame} {Γ : Cpp.Declarations} {e : Expr} {c : Cpp.Expr}
    (hΓ : Γ.Follow f) (hvalues : ∀ e' ∈ e.parts, f.HasValues e') (h : f.expr e = .ok c) :
    (((∃ τ, c.type? Γ = some τ ∧ τ.ty? = some (f.typeOf e) ∧ (τ = .chars → ∃ s, e = .str s)) ∧
        (∀ c' ∈ c.parts, c'.TextOnLeft Γ ∧ c'.DecidesNumbers Γ) ∧
        ∃ τ, (f.truth e c).type? Γ = some τ ∧ τ.isArithmetic = true) ↔
      ∀ e' ∈ e.parts, f.Builds e') ∧
    ∀ c' ∈ c.parts, c'.Typable Γ → c'.TextOnLeft Γ ∧ c'.DecidesNumbers Γ := by
  have hemits := Frame.emits_of_expr h
  have hdeclared := Frame.declared_inferred hΓ
  have hsound := hemits.sound hdeclared hvalues
  refine ⟨⟨?_, fun hbuilds => ?_⟩, hsound⟩
  · rintro ⟨⟨τ, hτ, -⟩, -⟩
    exact hemits.allBuild hdeclared hvalues (Cpp.Expr.typable_of_type? hτ)
  · obtain ⟨τ, hτ, hty⟩ := hemits.gives hdeclared (Frame.AllHaveValues.typed hvalues hbuilds)
    have htypable := (Cpp.Expr.typable_of_type? hτ.type).of_mem_parts
    exact ⟨⟨τ, hτ.type, hty, hτ.literal⟩, fun c' hc' => hsound c' hc' (htypable c' hc'),
      hτ.exists_truthy rfl⟩

namespace LabelCheck

/-- A frame with a list `xs` and a function `label` that gives text. -/
def frame : Frame where
  table := ⟨[⟨"label", [], .str⟩], Dict.empty.insert "main" (Dict.empty.insert "xs" ⟨.list, false⟩)⟩
  routine := "main"

/-- `not ("n" + str(xs[0]) == label())` -/
def source : Expr :=
  .unary .not (.binary .equal
    (.binary .add (.str "n") (.call "str" [.index (.var "xs") (.int 0)])) (.call "label" []))

def target : Cpp.Expr :=
  .unary .not (.group (.binary .equal
    (.binary .add (.construct .str [.str "n"])
      (.helper .str [.helper .index [.var (.source "xs"), .int 0]])) (.call "label" [])))

/-- `range("a")` -/
def textRange : Expr := .range (.str "a") none none

def textRangeTarget : Cpp.Expr := .helper .range [.int 0, .str "a", .int 1]

end LabelCheck

open LabelCheck in
theorem emitted_type_iff_builds_labelCheck :
    (frame.expr source = .ok target ∧
      ∃ τ, target.type? frame.declarations = some τ ∧ τ.ty? = some .bool) ∧
    frame.expr textRange = .ok textRangeTarget ∧
      textRangeTarget.type? frame.declarations = none ∧ ¬∀ e ∈ textRange.parts, frame.Builds e := by
  have hemitted : frame.expr source = .ok target := by rfl
  have hemitted' : frame.expr textRange = .ok textRangeTarget := by rfl
  have hnone : textRangeTarget.type? frame.declarations = none := by rfl
  have hlabel : ∀ s, frame.table.signature? "label" = some s → s.result.isValue = true := by
    rintro _ ⟨⟩
    rfl
  have hxs : (frame.varTy "xs").isValue = true := by rfl
  have hvalues : ∀ e ∈ source.parts, frame.HasValues e := by
    simp only [source, Expr.parts, Expr.partsOf, List.append_nil, List.nil_append, List.cons_append,
      List.forall_mem_cons]
    exact ⟨trivial, trivial, trivial, trivial, fun h => absurd rfl h, trivial, hxs, trivial,
      fun _ => hlabel, nofun⟩
  have hbuilds : ∀ e ∈ source.parts, frame.Builds e := by
    simp [source, Expr.parts, Expr.partsOf, Frame.Builds]
  have hvalues' : ∀ e ∈ textRange.parts, frame.HasValues e := by
    simp [textRange, Expr.parts, Expr.partsOfOption, Frame.HasValues]
  obtain ⟨⟨τ, hτ, hty, -⟩, -⟩ :=
    (emitted_type_iff_builds frame.follow_declarations hvalues hemitted).1.2 hbuilds
  refine ⟨⟨hemitted, τ, hτ, hty⟩, hemitted', hnone, fun hbuilds' => ?_⟩
  obtain ⟨⟨τ', hτ', -⟩, -⟩ :=
    (emitted_type_iff_builds frame.follow_declarations hvalues' hemitted').1.2 hbuilds'
  cases hnone.symm.trans hτ'

end Braces
