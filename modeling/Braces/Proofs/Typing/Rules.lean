import Braces.Proofs.Emission.Within
import Braces.Proofs.Typing.Operators

/-!
# Typing rules for emitted expressions

A reading of source types as target types says which target types an expression may be given. If the
operands of every form hand on such types, and variables and functions are declared with them, every
emitted expression has one, as long as its literals are finite and the bounds of its ranges are
numbers. What fails one of these two has no type at all.
-/

namespace Braces

/-- The expression is a number. -/
def Cpp.Expr.isNumber (Γ : Declarations) (e : Expr) : Bool := (e.type? Γ).any (·.isArithmetic)

namespace Cpp.Expr

variable {Γ : Declarations} {e : Expr}

theorem typable_of_isNumber (h : e.isNumber Γ = true) : e.Typable Γ := by
  unfold isNumber at h
  unfold Typable
  cases hτ : e.type? Γ with
  | none => rw [hτ] at h; cases h
  | some τ => rfl

theorem type?_helper_range (start stop step : Expr) :
    (helper .range [start, stop, step]).type? Γ =
      if start.isNumber Γ && (stop.isNumber Γ && step.isNumber Γ) then some .vector else none := by
  cases hstart : start.type? Γ <;> cases hstop : stop.type? Γ <;> cases hstep : step.type? Γ <;>
    simp [isNumber, type?, types?, hstart, hstop, hstep, Helper.result?]

end Cpp.Expr

namespace Frame

open Cpp (ExprTy Declarations)

/-- A variable holds values, and so does the result of a function that is called. -/
def HasValues (f : Frame) : Expr → Prop
  | .var name => (f.varTy name).isValue = true
  | .call name _ => name ≠ Expr.strName →
      ∀ s, f.table.signature? name = some s → s.result.isValue = true
  | _ => True

/-- A literal has a spelling in the target, and a range counts between numbers. -/
def Builds (f : Frame) : Expr → Prop
  | .float x => x.isFinite = true
  | .range start stop step => ∀ e ∈ Expr.bounds start stop step, (f.typeOf e).isNumeric = true
  | _ => True

/-- The variables and calls among some expressions have values. -/
def AllHaveValues (f : Frame) (es : List Expr) : Prop := ∀ e ∈ es, f.HasValues e

/-- The literals and ranges among some expressions can be built. -/
def AllBuild (f : Frame) (es : List Expr) : Prop := ∀ e ∈ es, f.Builds e

/-- Some expressions have values and can be built. -/
def AllTyped (f : Frame) (es : List Expr) : Prop := ∀ e ∈ es, f.HasValues e ∧ f.Builds e

variable {Γ : Declarations} {f : Frame} {e : Expr} {c : Cpp.Expr}

section
variable {es es' : List Expr}

theorem AllHaveValues.append (h : f.AllHaveValues (es ++ es')) :
    f.AllHaveValues es ∧ f.AllHaveValues es' :=
  List.forall_mem_append.mp h

theorem AllHaveValues.tail (h : f.AllHaveValues (e :: es)) : f.AllHaveValues es :=
  (List.forall_mem_cons.mp h).2

theorem AllHaveValues.typed (h : f.AllHaveValues es) (hbuild : f.AllBuild es) : f.AllTyped es :=
  fun e he => ⟨h e he, hbuild e he⟩

theorem AllTyped.append (h : f.AllTyped (es ++ es')) : f.AllTyped es ∧ f.AllTyped es' :=
  List.forall_mem_append.mp h

theorem AllTyped.tail (h : f.AllTyped (e :: es)) : f.AllTyped es := (List.forall_mem_cons.mp h).2

theorem AllBuild.nil : f.AllBuild [] := nofun

theorem AllBuild.append (h : f.AllBuild es) (h' : f.AllBuild es') : f.AllBuild (es ++ es') :=
  List.forall_mem_append.mpr ⟨h, h'⟩

theorem AllBuild.cons (he : f.Builds e) (hes : f.AllBuild es) : f.AllBuild (e :: es) :=
  List.forall_mem_cons.mpr ⟨he, hes⟩

end

/-! ## The other forms -/

namespace HasTy

variable {τ : ExprTy}

theorem isNumber_iff (h : HasTy Γ f e c τ) :
    c.isNumber Γ = true ↔ (f.typeOf e).isNumeric = true := by
  rw [Cpp.Expr.isNumber, h.type]
  exact h.holds.isArithmetic_iff

theorem type?_not (h : HasTy Γ f e c τ) :
    (Cpp.Expr.unary .not
      (if (f.typeOf e).isSequence then .helper .truthy [c] else atom e c)).type? Γ =
        some .bool := by
  obtain ⟨ρ, hρ, hnum⟩ := h.exists_truthy type?_atom
  rw [Cpp.Expr.type?_unary hρ, ExprTy.sign?, if_pos]
  cases ρ <;> first | rfl | cases hnum

theorem type?_sign {op : UnOp} (h : HasTy Γ f e c τ) (hop : op ≠ .not)
    (hnum : (f.typeOf e).isNumeric = true) :
    (Cpp.Expr.unary op (atom e c)).type? Γ = some (τ.promote τ) := by
  rw [Cpp.Expr.type?_unary (type?_atom.trans h.type)]
  cases op <;> first | exact absurd rfl hop | exact if_pos (h.holds.isArithmetic_iff.2 hnum)

/-- What can be walked is text or a list. -/
theorem iterable_cases (h : HasTy Γ f e c τ) (hiter : (f.typeOf e).isIterable = true) :
    f.typeOf e = .str ∧ τ.value = .text ∨ f.typeOf e = .list ∧ τ.value = .vector := by
  have hholds := h.holds.value
  have hvalue := h.holds.isValue
  cases hte : f.typeOf e <;> rw [hte] at hiter hholds hvalue <;>
    first | (cases hiter; done) | (cases hvalue; done) | skip
  · exact .inl ⟨rfl, hholds.eq_text ExprTy.value_ne_chars⟩
  · exact .inr ⟨rfl, hholds.eq_vector⟩

theorem type?_index {target position : Expr} {ct ci : Cpp.Expr} {σ : ExprTy}
    (ht : HasTy Γ f target ct σ) (hi : HasTy Γ f position ci τ)
    (hcheck : f.checkSubscript target position = .ok ()) :
    (if f.typeOf target = .str then Cpp.Expr.construct .str [.int 1, element target ct ci]
      else element target ct ci).type? Γ =
        some (if f.typeOf target = .str then .text else .longLong) := by
  obtain ⟨hiter, hcount⟩ := of_checkSubscript hcheck
  have hnum := ExprTy.isArithmetic_of_isIntegral (hi.holds.isIntegral hcount)
  have helement : (element target ct ci).type? Γ = Cpp.Helper.index.result? [σ.value, τ] :=
    Cpp.Expr.type?_helper_two ht.type?_sequence hi.type
  rw [Cpp.Helper.result?, if_pos hnum] at helement
  obtain ⟨hstr, hσ⟩ | ⟨hlist, hσ⟩ := ht.iterable_cases hiter
  · rw [hσ, if_pos rfl] at helement
    rw [if_pos hstr, if_pos hstr]
    simp only [Cpp.Expr.type?, Cpp.Expr.types?, helement]
    rfl
  · rw [hσ] at helement
    rw [hlist]
    exact helement

theorem type?_len (h : HasTy Γ f e c τ) (hiter : (f.typeOf e).isIterable = true) :
    (Cpp.Expr.cast .int (.size (Frame.sequence e c))).type? Γ = some .longLong := by
  have hmembers : τ.value = .text ∨ τ.value = .vector :=
    (h.iterable_cases hiter).imp And.right And.right
  have hsize : (Cpp.Expr.size (Frame.sequence e c)).type? Γ = some .longLong := by
    simp [Cpp.Expr.type?, h.type?_sequence, hmembers]
  exact Cpp.Expr.type?_cast hsize

end HasTy

/-- Of an absent bound or stride there is a default, which is a number. -/
theorem type?_range (cstart : Cpp.Expr) (cstop cstep : Option Cpp.Expr) :
    (match cstop with
      | some c => Cpp.Expr.helper .range [cstart, c, cstep.getD (.int 1)]
      | none => .helper .range [.int 0, cstart, cstep.getD (.int 1)]).type? Γ =
      if cstart.isNumber Γ && (cstop.all (·.isNumber Γ) && cstep.all (·.isNumber Γ))
        then some .vector
      else none := by
  have hint : ∀ n, 0 ≤ n → n ≤ 1 → (Cpp.Expr.int n).isNumber Γ = true := by
    intro n hn hn'
    rw [Cpp.Expr.isNumber, Cpp.Expr.type?, if_pos ⟨by omega, by omega⟩]
    rfl
  cases cstop <;> cases cstep <;> simp [Cpp.Expr.type?_helper_range, hint]

@[simp] theorem typable_argument {p : Param} :
    (argument p e c).Typable Γ ↔ c.Typable Γ := by
  unfold argument
  split
  · rfl
  · refine ⟨fun h => h.helper c List.mem_cons_self, fun h => ?_⟩
    obtain ⟨τ, hτ⟩ := h.exists
    exact Cpp.Expr.typable_of_type? (Cpp.Expr.type?_helper_one hτ)
  · rfl

/-! ## Readings of source types -/

/-- Which target types expressions may have. Each form has one that follows from those of its
operands. -/
structure Typing (f : Frame) where
  fits : Expr → ExprTy → Prop
  holds : ∀ {e τ}, fits e τ → τ.Holds (f.typeOf e)
  int : ∀ n, fits (.int n) (if -2147483648 ≤ n ∧ n ≤ 2147483647 then .int else .longLong)
  float : ∀ x, fits (.float x) .double
  str : ∀ s, fits (.str s) .chars
  bool : ∀ b, fits (.bool b) .bool
  binary : ∀ {op l r σ τ} {sh : Shape}, sh.Allows op (f.typeOf l) (f.typeOf r) →
    fits l σ → fits r τ →
    fits (.binary op l r) (sh.result op σ τ)
  not : ∀ e, fits (.unary .not e) .bool
  sign : ∀ {op e τ}, op ≠ .not → (f.typeOf e).isNumeric = true → fits e τ →
    fits (.unary op e) (τ.promote τ)
  list : ∀ es, fits (.list es) .vector
  index : ∀ target position,
    fits (.index target position) (if f.typeOf target = .str then .text else .longLong)
  text : ∀ args, fits (.call Expr.strName args) .text
  len : ∀ e, fits (.len e) .longLong
  range : ∀ start stop step, fits (.range start stop step) .vector

namespace Typing

variable {T : f.Typing}

/-- What is emitted for an expression has a type that it may have. -/
def Gives (T : f.Typing) (Γ : Declarations) (e : Expr) (c : Cpp.Expr) : Prop :=
  ∃ τ, HasTy Γ f e c τ ∧ T.fits e τ

/-- Variables and functions whose types are known are declared with types that they may have. -/
structure Declared (T : f.Typing) (Γ : Declarations) : Prop where
  var : ∀ name, (f.varTy name).isValue = true →
    ∃ τ, Γ.varTy (.source name) = some τ ∧ τ ≠ .chars ∧ T.fits (.var name) τ
  call : ∀ name s args, name ≠ Expr.strName → f.table.signature? name = some s →
    s.result.isValue = true →
    ∃ τ, Γ.resultTy name = some τ ∧ τ ≠ .chars ∧ T.fits (.call name args) τ

theorem gives_of_fits {τ : ExprTy} (htype : c.type? Γ = some τ) (hne : τ ≠ .chars)
    (hfits : T.fits e τ) : T.Gives Γ e c :=
  ⟨τ, ⟨htype, T.holds hfits, fun h => absurd h hne⟩, hfits⟩

theorem Gives.typable (h : T.Gives Γ e c) : c.Typable Γ := by
  obtain ⟨τ, hτ, -⟩ := h
  exact Cpp.Expr.typable_of_type? hτ.type

end Typing

/-! ## Every expression -/

section
variable {T : f.Typing}

mutual

/-- What can be built has a type that it may have. -/
theorem Emits.gives (hΓ : T.Declared Γ) : ∀ {e : Expr} {c : Cpp.Expr}, f.Emits e c →
    f.AllTyped e.parts → T.Gives Γ e c
  | _, _, .int n, _ => by
    refine Typing.gives_of_fits rfl ?_ (T.int n)
    split <;> decide
  | _, _, .float x, h => by
    have hfinite : x.isFinite = true := (h _ (Expr.mem_parts_self _)).2
    exact Typing.gives_of_fits (if_pos hfinite) (by decide) (T.float x)
  | _, _, .str s, _ => ⟨.chars, ⟨rfl, T.holds (T.str s), fun _ => ⟨s, rfl⟩⟩, T.str s⟩
  | _, _, .bool b, _ => Typing.gives_of_fits rfl (by decide) (T.bool b)
  | _, _, @Emits.var _ name _, h => by
    obtain ⟨τ, hτ, hne, hfits⟩ := hΓ.var name (h _ (Expr.mem_parts_self _)).1
    exact Typing.gives_of_fits hτ hne hfits
  | _, _, .binary hs hl hr, h => by
    obtain ⟨hpl, hpr⟩ := h.tail.append
    obtain ⟨σ, hσ, hσfits⟩ := hl.gives hΓ hpl
    obtain ⟨τ, hτ, hτfits⟩ := hr.gives hΓ hpr
    have hallows := allows_of_shape? hs
    exact Typing.gives_of_fits (hσ.type?_combined hτ hallows) Shape.result_ne_chars
      (T.binary hallows hσfits hτfits)
  | _, _, .not he, h => by
    obtain ⟨τ, hτ, -⟩ := he.gives hΓ h.tail
    exact Typing.gives_of_fits hτ.type?_not (by decide) (T.not _)
  | _, _, .sign hop hnum he, h => by
    obtain ⟨τ, hτ, hfits⟩ := he.gives hΓ h.tail
    exact Typing.gives_of_fits (hτ.type?_sign hop hnum) ExprTy.promote_ne_chars
      (T.sign hop hnum hfits)
  | _, _, .list hcheck hes, h => by
    obtain ⟨τs, hτs, hall⟩ :=
      hes.gives hΓ (isCount_of_checkElements hcheck) h.tail
    refine Typing.gives_of_fits ?_ (by decide) (T.list _)
    simpa [Cpp.Expr.type?, hτs] using hall
  | _, _, .index hcheck ht hi, h => by
    obtain ⟨hpt, hpi⟩ := h.tail.append
    obtain ⟨σ, hσ, -⟩ := ht.gives hΓ hpt
    obtain ⟨τ, hτ, -⟩ := hi.gives hΓ hpi
    refine Typing.gives_of_fits (hσ.type?_index hτ hcheck) ?_ (T.index _ _)
    split <;> decide
  | _, _, .emptyText, _ => Typing.gives_of_fits rfl (by decide) (T.text _)
  | _, _, .text he, h => by
    obtain ⟨τ, hτ, -⟩ := he.gives hΓ h.tail.append.1
    exact Typing.gives_of_fits (Cpp.Expr.type?_helper_one hτ.type) (by decide) (T.text _)
  | _, _, @Emits.call _ name args _ _ hname hparams hargs, h => by
    obtain ⟨τs, hτs⟩ := hargs.gives hΓ h.tail
    obtain ⟨s, hs⟩ := exists_of_calleeParams hparams
    obtain ⟨τ, hτ, hne, hfits⟩ :=
      hΓ.call name s args hname hs ((h _ (Expr.mem_parts_self _)).1 hname s hs)
    refine Typing.gives_of_fits ?_ hne hfits
    simp [Cpp.Expr.type?, hτs, hτ]
  | _, _, .len hiter he, h => by
    obtain ⟨τ, hτ, -⟩ := he.gives hΓ h.tail
    exact Typing.gives_of_fits (hτ.type?_len hiter) (by decide) (T.len _)
  | _, _, .range hstart hstop hstep, h => by
    obtain ⟨hnum, hnums⟩ := List.forall_mem_cons.1 (h _ (Expr.mem_parts_self _)).2
    obtain ⟨hnumStop, hnumStep⟩ := List.forall_mem_append.1 hnums
    obtain ⟨hpstart, h⟩ := h.tail.append
    obtain ⟨hpstop, hpstep⟩ := h.append
    obtain ⟨σ, hσ, -⟩ := hstart.gives hΓ hpstart
    refine Typing.gives_of_fits ((type?_range _ _ _).trans ?_) (by decide) (T.range _ _ _)
    rw [hσ.isNumber_iff.2 hnum, hstop.gives hΓ hnumStop hpstop, hstep.gives hΓ hnumStep hpstep]
    rfl

theorem EmitsAll.gives (hΓ : T.Declared Γ) : ∀ {es : List Expr} {cs : List Cpp.Expr},
    f.EmitsAll es cs → (∀ e ∈ es, (f.typeOf e).isCount = true) →
    f.AllTyped (Expr.partsOf es) →
    ∃ τs, Cpp.Expr.types? Γ cs = some τs ∧ τs.all (·.isIntegral) = true
  | _, _, .nil, _, _ => ⟨[], rfl, rfl⟩
  | _, _, .cons he hes, hcount, h => by
    obtain ⟨hpe, hpes⟩ := h.append
    obtain ⟨hecount, hescount⟩ := List.forall_mem_cons.1 hcount
    obtain ⟨τ, hτ, -⟩ := he.gives hΓ hpe
    obtain ⟨τs, hτs, hall⟩ := hes.gives hΓ hescount hpes
    refine ⟨τ :: τs, Cpp.Expr.types?_cons hτ.type hτs, ?_⟩
    rw [List.all_cons, hall, Bool.and_true]
    exact hτ.holds.isIntegral hecount

theorem EmitsOption.gives (hΓ : T.Declared Γ) : ∀ {o : Option Expr} {co : Option Cpp.Expr},
    f.EmitsOption o co → (∀ e ∈ o.toList, (f.typeOf e).isNumeric = true) →
    f.AllTyped (Expr.partsOfOption o) → co.all (·.isNumber Γ) = true
  | _, _, .absent, _, _ => rfl
  | _, _, .present he, hnum, h => by
    obtain ⟨τ, hτ, -⟩ := he.gives hΓ h
    exact hτ.isNumber_iff.2 (hnum _ List.mem_cons_self)

theorem EmitsArgs.gives (hΓ : T.Declared Γ) : ∀ {name : String} {ps : List Param}
    {args : List Expr} {cs : List Cpp.Expr}, f.EmitsArgs name ps args cs →
    f.AllTyped (Expr.partsOf args) →
    ∃ τs, Cpp.Expr.types? Γ cs = some τs
  | _, _, _, _, .done, _ => ⟨[], rfl⟩
  | _, _, _, _, .surplus, _ => ⟨[], rfl⟩
  | _, _, _, _, .next _ he hargs, h => by
    obtain ⟨hpe, hpargs⟩ := h.append
    obtain ⟨τ, hτ⟩ := (typable_argument.2 (he.gives hΓ hpe).typable).exists
    obtain ⟨τs, hτs⟩ := hargs.gives hΓ hpargs
    exact ⟨τ :: τs, Cpp.Expr.types?_cons hτ hτs⟩

end

/-! ## What has a type can be built -/

theorem typable_of_sequence (h : (sequence e c).Typable Γ) : c.Typable Γ := by
  unfold sequence at h
  split at h
  · exact h.construct c List.mem_cons_self
  · rwa [Cpp.Expr.Typable, type?_atom] at h

theorem typable_of_truthy {c' : Cpp.Expr} (hc' : c'.type? Γ = c.type? Γ)
    (h : (if (f.typeOf e).isSequence then .helper .truthy [c] else c' : Cpp.Expr).Typable Γ) :
    c.Typable Γ := by
  split at h
  · exact h.helper c List.mem_cons_self
  · rwa [Cpp.Expr.Typable, hc'] at h

theorem typable_of_leftOperand {op : BinOp} (h : (f.leftOperand op e c).Typable Γ) :
    c.Typable Γ := by
  unfold leftOperand at h
  split at h
  · have hoperand := h.construct _ List.mem_cons_self
    rwa [Cpp.Expr.Typable, type?_operand] at hoperand
  · rwa [Cpp.Expr.Typable, type?_operand] at h

/-- The operands of an operator node that has a type have types. -/
theorem typable_of_combined {op : BinOp} {l r : Expr} {cl cr : Cpp.Expr} {sh : Shape}
    (h : (f.combined op l r cl cr sh).Typable Γ) : cl.Typable Γ ∧ cr.Typable Γ := by
  have hoperand : ∀ {parent right e c}, (f.operand parent right e c).Typable Γ → c.Typable Γ := by
    intro parent right e c h
    rwa [Cpp.Expr.Typable, type?_operand] at h
  cases sh with
  | logical =>
    obtain ⟨hl, hr⟩ := h.binary
    exact ⟨typable_of_truthy (type?_operand _ _) hl, typable_of_truthy (type?_operand _ _) hr⟩
  | plain =>
    rw [combined, infixed_eq] at h
    obtain ⟨hl, hr⟩ := h.binary
    exact ⟨typable_of_leftOperand hl, hoperand hr⟩
  | quotient =>
    obtain ⟨hl, hr⟩ := h.binary
    exact ⟨hl.cast, hoperand hr⟩
  | floatFloor =>
    obtain ⟨hl, hr⟩ := (h.helper _ List.mem_cons_self).binary
    exact ⟨hoperand hl, hoperand hr⟩
  | repeatRight =>
    have hargs := h.helper
    exact ⟨hargs _ (List.mem_cons_of_mem _ List.mem_cons_self), hargs _ List.mem_cons_self⟩
  | concat | repeatLeft | floor | floatMod | mod =>
    have hargs := h.helper
    exact ⟨hargs _ List.mem_cons_self, hargs _ (List.mem_cons_of_mem _ List.mem_cons_self)⟩

mutual

/-- What has a type can be built. -/
theorem Emits.allBuild (hΓ : T.Declared Γ) : ∀ {e : Expr} {c : Cpp.Expr}, f.Emits e c →
    f.AllHaveValues e.parts → c.Typable Γ → f.AllBuild e.parts
  | _, _, .int _, _, _ | _, _, .str _, _, _ | _, _, .bool _, _, _ | _, _, .var _, _, _ =>
    .cons trivial .nil
  | _, _, .float x, _, ht => by
    refine .cons ?_ .nil
    obtain ⟨τ, hτ⟩ := ht.exists
    rw [Cpp.Expr.type?] at hτ
    split at hτ
    · next hfinite => exact hfinite
    · cases hτ
  | _, _, .binary _ hl hr, hv, ht => by
    obtain ⟨hvl, hvr⟩ := hv.tail.append
    obtain ⟨htl, htr⟩ := typable_of_combined ht
    exact .cons trivial (.append (hl.allBuild hΓ hvl htl) (hr.allBuild hΓ hvr htr))
  | _, _, .not he, hv, ht =>
    .cons trivial (he.allBuild hΓ hv.tail (typable_of_truthy type?_atom ht.unary))
  | _, _, @Emits.sign _ _ e c _ _ he, hv, ht => by
    have hatom := ht.unary
    rw [Cpp.Expr.Typable, type?_atom] at hatom
    exact .cons trivial (he.allBuild hΓ hv.tail hatom)
  | _, _, .list _ hes, hv, ht => .cons trivial (hes.allBuild hΓ hv.tail ht.vector)
  | _, _, @Emits.index _ target position ct ci _ het hei, hv, ht => by
    obtain ⟨hvt, hvi⟩ := hv.tail.append
    have helement : (element target ct ci).Typable Γ := by
      split at ht
      · exact ht.construct _ (List.mem_cons_of_mem _ List.mem_cons_self)
      · exact ht
    have hargs := helement.helper
    have htarget := typable_of_sequence (hargs _ List.mem_cons_self)
    have hposition := hargs _ (List.mem_cons_of_mem _ List.mem_cons_self)
    exact .cons trivial (.append (het.allBuild hΓ hvt htarget) (hei.allBuild hΓ hvi hposition))
  | _, _, .emptyText, _, _ => .cons trivial .nil
  | _, _, .text he, hv, ht => by
    have harg := he.allBuild hΓ hv.tail.append.1 (ht.helper _ List.mem_cons_self)
    exact .cons trivial (.append harg .nil)
  | _, _, .call _ hparams hargs, hv, ht => by
    obtain ⟨-, -, -, hlen⟩ := length_of_calleeParams hparams
    exact .cons trivial (hargs.allBuild hΓ (Nat.le_of_eq hlen.symm) hv.tail ht.call)
  | _, _, .len _ he, hv, ht =>
    .cons trivial (he.allBuild hΓ hv.tail (typable_of_sequence ht.cast.size))
  | _, _, @Emits.range _ start stop step cstart cstop cstep hstart hstop hstep, hv, ht => by
    obtain ⟨hvstart, hv⟩ := hv.tail.append
    obtain ⟨hvstop, hvstep⟩ := hv.append
    obtain ⟨τ, hτ⟩ := ht.exists
    replace hτ := (type?_range cstart cstop cstep).symm.trans hτ
    split at hτ
    · next hnumbers =>
      simp only [Bool.and_eq_true] at hnumbers
      obtain ⟨hcstart, hcstop, hcstep⟩ := hnumbers
      have hbstart := hstart.allBuild hΓ hvstart (Cpp.Expr.typable_of_isNumber hcstart)
      obtain ⟨σ, hσ, -⟩ := hstart.gives hΓ (hvstart.typed hbstart)
      obtain ⟨hbstop, hnumStop⟩ := hstop.allBuild hΓ hvstop hcstop
      obtain ⟨hbstep, hnumStep⟩ := hstep.allBuild hΓ hvstep hcstep
      refine .cons ?_ (.append hbstart (.append hbstop hbstep))
      exact List.forall_mem_cons.2
        ⟨hσ.isNumber_iff.1 hcstart, List.forall_mem_append.2 ⟨hnumStop, hnumStep⟩⟩
    · cases hτ

theorem EmitsAll.allBuild (hΓ : T.Declared Γ) : ∀ {es : List Expr} {cs : List Cpp.Expr},
    f.EmitsAll es cs → f.AllHaveValues (Expr.partsOf es) → (∀ c ∈ cs, c.Typable Γ) →
    f.AllBuild (Expr.partsOf es)
  | _, _, .nil, _, _ => .nil
  | _, _, .cons he hes, hv, ht => by
    obtain ⟨hve, hves⟩ := hv.append
    obtain ⟨hte, htes⟩ := List.forall_mem_cons.1 ht
    exact .append (he.allBuild hΓ hve hte) (hes.allBuild hΓ hves htes)

theorem EmitsOption.allBuild (hΓ : T.Declared Γ) : ∀ {o : Option Expr} {co : Option Cpp.Expr},
    f.EmitsOption o co → f.AllHaveValues (Expr.partsOfOption o) → co.all (·.isNumber Γ) = true →
    f.AllBuild (Expr.partsOfOption o) ∧ ∀ e ∈ o.toList, (f.typeOf e).isNumeric = true
  | _, _, .absent, _, _ => ⟨.nil, nofun⟩
  | _, _, .present he, hv, hnum => by
    have hbuild := he.allBuild hΓ hv (Cpp.Expr.typable_of_isNumber hnum)
    obtain ⟨τ, hτ, -⟩ := he.gives hΓ (hv.typed hbuild)
    exact ⟨hbuild, List.forall_mem_singleton.2 (hτ.isNumber_iff.1 hnum)⟩

theorem EmitsArgs.allBuild (hΓ : T.Declared Γ) : ∀ {args : List Expr} {name : String}
    {ps : List Param} {cs : List Cpp.Expr}, f.EmitsArgs name ps args cs →
    args.length ≤ ps.length → f.AllHaveValues (Expr.partsOf args) → (∀ c ∈ cs, c.Typable Γ) →
    f.AllBuild (Expr.partsOf args)
  | _, _, _, _, .done, _, _, _ => .nil
  | [], _, _, _, .surplus, _, _, _ => .nil
  | _ :: _, _, _, _, .surplus, hlen, _, _ => by simp at hlen
  | _, _, _, _, .next _ he hargs, hlen, hv, ht => by
    obtain ⟨hve, hvargs⟩ := hv.append
    obtain ⟨hte, htargs⟩ := List.forall_mem_cons.1 ht
    exact .append (he.allBuild hΓ hve (typable_argument.1 hte))
      (hargs.allBuild hΓ (by simpa using hlen) hvargs htargs)

end

/-- If an emitted expression has a type, it is one that it may have. -/
theorem Emits.gives_of_typable (hΓ : T.Declared Γ) (h : f.Emits e c) (hv : f.AllHaveValues e.parts)
    (ht : c.Typable Γ) : T.Gives Γ e c :=
  h.gives hΓ (hv.typed (h.allBuild hΓ hv ht))

end

end Frame

end Braces
