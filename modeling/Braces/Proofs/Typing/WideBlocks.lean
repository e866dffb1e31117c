import Braces.Proofs.Emission.Declared
import Braces.Proofs.Typing.Wide

/-!
# Wide blocks

Along an emitted block every variable keeps a type that its values fit, as long as the integer
variables that leave their type to a value get one that is not narrow. So a block is wide exactly if
its source keeps wide and its declarations do.
-/

namespace Braces

open Cpp (Declarations ExprTy Name)

/-- The expressions of a statement whose values are used. What a statement evaluates for its effect
need not have one. -/
def Stmt.valuedNodes (routine : String) : Stmt → List Expr
  | .eval e => e.parts.tail
  | s => Expr.partsOf (s.evaluated routine)

/-- All that some statements evaluate themselves. -/
def Stmt.nodesOf (routine : String) (ss : List Stmt) : List Expr :=
  ss.flatMap fun s => Expr.partsOf (s.evaluated routine)

theorem Stmt.nodesOf_cons (routine : String) (s : Stmt) (ss : List Stmt) :
    nodesOf routine (s :: ss) = Expr.partsOf (s.evaluated routine) ++ nodesOf routine ss :=
  List.flatMap_cons

theorem Stmt.nodesOf_append (routine : String) (ss ss' : List Stmt) :
    nodesOf routine (ss ++ ss') = nodesOf routine ss ++ nodesOf routine ss' :=
  List.flatMap_append

namespace Frame

/-- A variable that inference takes for an integer. -/
def IsInt (f : Frame) (name : String) : Prop := f.varTy name = .int

/-- Where a value of a body is used, its variables and calls have values. -/
def ValuesUsed (f : Frame) (body : List Stmt) : Prop :=
  ∀ s ∈ Stmt.withinBlock body, f.AllHaveValues (s.valuedNodes f.routine)

/-- Where a value of a body is used, its literals and ranges can be built. -/
def ValuesBuild (f : Frame) (body : List Stmt) : Prop :=
  ∀ s ∈ Stmt.withinBlock body, f.AllBuild (s.valuedNodes f.routine)

/-- Where a value of a body is used, it has a type. -/
def ValuesTyped (f : Frame) (body : List Stmt) : Prop :=
  ∀ s ∈ Stmt.withinBlock body, f.AllTyped (s.valuedNodes f.routine)

/-- Loops over ranges that declare their variable count in numbers. -/
def CountsNumbers (f : Frame) (body : List Stmt) : Prop :=
  ∀ name start stop step block,
    Stmt.forLoop name (.range start stop step) block ∈ Stmt.withinBlock body →
      name ∉ f.params.map (·.name) → f.varTy name = .int ∨ f.varTy name = .float

/-- Among the declarations that leave their type to the target, no integer variable gets a narrow
value. -/
def DeclaresWide (f : Frame) (body : List Stmt) (autos : List (Name × Cpp.Expr)) : Prop :=
  ∀ name value c, Stmt.assign name value ∈ Stmt.withinBlock body →
    (Name.source name, c) ∈ autos → f.expr value = .ok c → f.IsInt name → f.narrow value = false

/-- Some statements are wide exactly if their sources keep wide, and then they leave declarations
that the next ones can rely on. -/
def WideAs (f : Frame) (body : List Stmt) (Γ : Declarations) (nodes : List Expr)
    (cs : List Cpp.Stmt) : Prop :=
  (Cpp.WideBlock f.IsInt Γ cs ↔ f.KeepsWide nodes ∧ f.DeclaresWide body (Cpp.autosOf cs)) ∧
    (Cpp.WideBlock f.IsInt Γ cs → (Cpp.scopeOf Γ cs).Allow f)

variable {f : Frame} {body : List Stmt} {Γ : Declarations} {nodes nodes' : List Expr}
  {cs later : List Cpp.Stmt}

@[simp] theorem declaresWide_nil : f.DeclaresWide body [] := by simp [DeclaresWide]

@[simp] theorem declaresWide_append {autos autos' : List (Name × Cpp.Expr)} :
    f.DeclaresWide body (autos ++ autos') ↔
      f.DeclaresWide body autos ∧ f.DeclaresWide body autos' := by
  simp only [DeclaresWide, List.mem_append, or_imp, forall_and]

namespace WideAs

theorem nil (hΓ : Γ.Allow f) : f.WideAs body Γ [] [] := by
  refine ⟨?_, fun _ => hΓ⟩
  simp [Cpp.WideBlock, Cpp.autosOf]

/-- What comes later may rely on what was declared before it. -/
theorem append (h : f.WideAs body Γ nodes cs)
    (h' : (Cpp.scopeOf Γ cs).Allow f → f.WideAs body (Cpp.scopeOf Γ cs) nodes' later) :
    f.WideAs body Γ (nodes ++ nodes') (cs ++ later) := by
  obtain ⟨hiff, hallow⟩ := h
  have hscope : Cpp.scopeOf Γ (cs ++ later) = Cpp.scopeOf (Cpp.scopeOf Γ cs) later :=
    List.foldl_append
  rw [WideAs, Cpp.wideBlock_append, keepsWide_append, Cpp.autosOf_append,
    declaresWide_append, hscope]
  by_cases hwide : Cpp.WideBlock f.IsInt Γ cs
  · obtain ⟨hiff', hallow'⟩ := h' (hallow hwide)
    obtain ⟨hkeeps, hdeclares⟩ := hiff.1 hwide
    refine ⟨?_, fun h => hallow' h.2⟩
    rw [and_iff_right hwide, hiff']
    tauto
  · refine ⟨⟨fun h => absurd h.1 hwide, fun h => ?_⟩, fun h => absurd h.1 hwide⟩
    exact absurd (hiff.2 ⟨h.1.1, h.2.1⟩) hwide

/-- A statement that declares nothing in its own block. -/
theorem of_iff {c : Cpp.Stmt} (hΓ : Γ.Allow f) (hscope : c.scope Γ = Γ)
    (hiff : c.Wide f.IsInt Γ ↔ f.KeepsWide nodes ∧ f.DeclaresWide body c.autos) :
    f.WideAs body Γ nodes [c] := by
  refine ⟨?_, fun _ => ?_⟩
  · rw [Cpp.wideBlock_singleton, hiff, Cpp.autosOf, Cpp.autosOf, List.append_nil]
  simpa [Cpp.scopeOf, hscope] using hΓ

/-- A statement without declarations. -/
theorem of_plain {c : Cpp.Stmt} (hΓ : Γ.Allow f) (hscope : c.scope Γ = Γ) (hautos : c.autos = [])
    (hiff : c.Wide f.IsInt Γ ↔ f.KeepsWide nodes) : f.WideAs body Γ nodes [c] := by
  refine of_iff hΓ hscope ?_
  rw [hiff, hautos, and_iff_left declaresWide_nil]

end WideAs

/-! ## Declarations -/

section
variable {name : String} {τ : Option ExprTy}

theorem allow_declare_source (hΓ : Γ.Allow f)
    (h : (f.varTy name).isValue = true → ∃ τ', τ = some τ' ∧ τ' ≠ .chars ∧
      τ'.Fits (f.varTy name) (f.varTy name = .bool)) :
    (Γ.declare (.source name) τ).Allow f := by
  refine ⟨fun x hx => ?_, hΓ.resultTy⟩
  by_cases hname : x = name
  · subst hname
    obtain ⟨τ', rfl, hτ'⟩ := h hx
    exact ⟨τ', if_pos rfl, hτ'⟩
  · obtain ⟨τ', hτ', hfits⟩ := hΓ.varTy x hx
    refine ⟨τ', ?_, hfits⟩
    rw [Declarations.declare, ← hτ']
    exact if_neg (by simpa using hname)

theorem allow_declare_hidden (hΓ : Γ.Allow f) (stem : Cpp.Stem) (n : Nat) :
    (Γ.declare (.hidden stem n) τ).Allow f := by
  refine ⟨fun x hx => ?_, hΓ.resultTy⟩
  obtain ⟨τ', hτ', hfits⟩ := hΓ.varTy x hx
  refine ⟨τ', ?_, hfits⟩
  show (if Name.source x = .hidden stem n then τ else Γ.varTy (.source x)) = some τ'
  rw [if_neg nofun, hτ']

/-- A type that is spelled is the variable's own. -/
theorem allow_declare_varTy (hΓ : Γ.Allow f) :
    (Γ.declare (.source name) (some (.declared (f.varTy name)))).Allow f := by
  refine allow_declare_source hΓ fun hvalue => ?_
  obtain ⟨τ', hτ', -⟩ := declares_ofTy? hvalue
  obtain ⟨hne, hfits⟩ := ExprTy.fits_ofTy? hτ'
  exact ⟨τ', by rw [ExprTy.declared, hτ', Option.getD_some], hne, hfits⟩

theorem wideDeclared_varTy :
    Cpp.WideDeclared f.IsInt (.source name) (some (.declared (f.varTy name))) := by
  intro hint
  rw [IsInt] at hint
  rw [hint]
  rfl

/-- A counter holds integers, also where its variable holds fractions. -/
theorem allow_declare_counter (hΓ : Γ.Allow f) (h : f.varTy name = .int ∨ f.varTy name = .float) :
    (Γ.declare (.source name) (some .longLong)).Allow f := by
  refine allow_declare_source hΓ fun _ => ⟨_, rfl, by decide, ?_⟩
  rcases h with h | h <;> simp [h, ExprTy.Fits]

end

/-- The declarations of a frame fit its values. -/
theorem allow_declarations (f : Frame) : f.declarations.Allow f := by
  constructor
  · intro name hvalue
    obtain ⟨τ, hτ, -⟩ := declares_ofTy? hvalue
    exact ⟨τ, hτ, ExprTy.fits_ofTy? hτ⟩
  · intro name s hs _
    simp only [declarations, hs, Option.bind_some]

/-! ## Values -/

theorem wide_iff_of_expr (hΓ : Γ.Allow f) {e : Expr} {c : Cpp.Expr} (h : f.expr e = .ok c)
    (hv : f.AllTyped e.parts.tail) : c.Wide Γ ↔ f.KeepsWide e.parts :=
  (emits_of_expr h).wide_iff hΓ hv

theorem wide_iff_of_exprs (hΓ : Γ.Allow f) {es : List Expr} {cs : List Cpp.Expr}
    (h : f.exprs es = .ok cs) (hv : f.AllTyped (Expr.partsOf es)) :
    Cpp.Expr.AllWide Γ cs ↔ f.KeepsWide (Expr.partsOf es) :=
  (emits_of_exprs h).wide_iff hΓ hv

/-- The value in a declaration, with or without its type. -/
theorem wide_iff_of_initial (hΓ : Γ.Allow f) {ty : Cpp.DeclType} {e : Expr} {c : Cpp.Expr}
    (h : f.initial ty e = .ok c) (hv : f.AllTyped e.parts) :
    c.Wide Γ ↔ f.KeepsWide e.parts := by
  unfold initial at h
  split at h
  · split at h
    · obtain ⟨_, -, h⟩ := exists_of_bind_eq_ok h
      obtain ⟨cs, hcs, h⟩ := exists_of_bind_eq_ok h
      cases h
      rw [Cpp.Expr.wide_braces, Expr.parts, keepsWide_cons rfl]
      exact wide_iff_of_exprs hΓ hcs (AllTyped.of_tail hv)
    · exact wide_iff_of_expr hΓ h hv.of_tail
  · exact wide_iff_of_expr hΓ h hv.of_tail

/-- A value that is not a literal is emitted as it stands. -/
theorem expr_of_initial {ty : Cpp.DeclType} {e : Expr} {c : Cpp.Expr} (h : f.initial ty e = .ok c)
    (hliteral : e.isLiteral = false) : f.expr e = .ok c := by
  unfold initial at h
  split at h
  · cases hliteral
  · exact h

/-- The types that a first store may name. -/
theorem declType_cases (f : Frame) (name : String) (value : Expr) :
    (f.varTy name = .unknown ∧ f.declType name value = .ty (f.typeOf value)) ∨
      f.declType name value = .ty (f.varTy name) ∨
      (value.isLiteral = false ∧ f.declType name value = .auto ∧
        (f.varTy name = .unknown ∨ f.varTy name = f.typeOf value)) := by
  unfold declType
  dsimp only
  split
  · next h => exact .inl ⟨by simpa [Ty.isKnown] using (Bool.and_eq_true_iff.1 h).2, rfl⟩
  · split
    · exact .inr (.inl rfl)
    · next h =>
      simp only [Bool.or_eq_true, not_or, Bool.and_eq_true, Bool.not_eq_true, Ty.isKnown,
        decide_eq_true_eq, not_and_or, not_not] at h
      exact .inr (.inr ⟨h.1, rfl, h.2⟩)

/-- An integer that leaves its type to the target has the width of its value. -/
theorem type?_eq_longLong_iff {e : Expr} {c : Cpp.Expr} (h : f.sized.Gives Γ e c)
    (hint : f.typeOf e = .int) : c.type? Γ = some .longLong ↔ f.narrow e = false := by
  obtain ⟨τ, hτ, hfits⟩ := h
  replace hfits : τ.Fits (f.typeOf e) (f.narrow e) := hfits
  rw [hint] at hfits
  obtain rfl : τ = if f.narrow e then .int else .longLong := hfits
  rw [hτ.type]
  cases f.narrow e <;> simp

/-- A value of the width of integers is not narrow. -/
theorem narrow_of_type? {e : Expr} {c : Cpp.Expr} (h : f.sized.Gives Γ e c)
    (hlong : c.type? Γ = some .longLong) : f.narrow e = false := by
  obtain ⟨τ, hτ, hfits⟩ := h
  replace hfits : τ.Fits (f.typeOf e) (f.narrow e) := hfits
  obtain rfl : .longLong = τ := Option.some.inj (hlong.symm.trans hτ.type)
  cases ht : f.typeOf e <;> rw [ht] at hfits <;> simp_all [ExprTy.Fits, ExprTy.isTextual]

/-- A variable that leaves its type to the target is wide exactly if its value is not narrow. -/
theorem wideDeclared_auto_iff (hΓ : Γ.Allow f) (hvalues : f.ValuesTyped body) {name : String}
    {value : Expr} {c : Cpp.Expr} (hmem : Stmt.assign name value ∈ Stmt.withinBlock body)
    (hc : f.expr value = .ok c) (hty : f.varTy name = .unknown ∨ f.varTy name = f.typeOf value) :
    Cpp.WideDeclared f.IsInt (.source name) (c.type? Γ) ↔
      f.DeclaresWide body [(.source name, c)] := by
  have hsized : ∀ {value}, Stmt.assign name value ∈ Stmt.withinBlock body →
      f.expr value = .ok c → f.sized.Gives Γ value c := by
    intro value hmem hc
    have hv := hvalues _ hmem
    simp only [Stmt.valuedNodes, Stmt.evaluated, Stmt.operands, Expr.partsOf, List.append_nil] at hv
    exact (emits_of_expr hc).gives (declared_sized hΓ) hv
  constructor
  · -- Another store of the same name may be emitted as the same value. It is not narrow either.
    intro hwide name' value' c' hmem' hauto hc' hint
    simp only [List.mem_singleton, Prod.mk.injEq, Name.source.injEq] at hauto
    obtain ⟨rfl, rfl⟩ := hauto
    exact narrow_of_type? (hsized hmem' hc') (hwide hint)
  · intro hdeclares hint
    have htype : f.typeOf value = .int := by
      rw [IsInt] at hint
      rcases hty with hty | hty
      · rw [hint] at hty
        cases hty
      · rw [← hty, hint]
    rw [type?_eq_longLong_iff (hsized hmem hc) htype]
    exact hdeclares name value c hmem List.mem_cons_self hc hint

/-- A first store. -/
theorem wideAs_declare (hΓ : Γ.Allow f) (hvalues : f.ValuesTyped body) {name : String}
    {value : Expr} {c : Cpp.Expr} (hmem : Stmt.assign name value ∈ Stmt.withinBlock body)
    (hc : f.initial (f.declType name value) value = .ok c) :
    f.WideAs body Γ value.parts [.declare (f.declType name value) (.source name) c] := by
  have hv : f.AllTyped value.parts := by
    have := hvalues _ hmem
    simpa only [Stmt.valuedNodes, Stmt.evaluated, Stmt.operands, Expr.partsOf, List.append_nil]
      using this
  have hwide := wide_iff_of_initial hΓ hc hv
  rw [WideAs, Cpp.wideBlock_singleton, Cpp.Stmt.Wide, hwide]
  obtain ⟨hunknown, hty⟩ | hty | ⟨hliteral, hty, hown⟩ := declType_cases f name value
  · -- Nothing is known of the variable, so nothing is asked of it.
    rw [hty]
    refine ⟨?_, fun _ => ?_⟩
    · rw [and_congr_right_iff]
      refine fun _ => iff_of_true (fun hint => ?_) declaresWide_nil
      rw [IsInt, hunknown] at hint
      cases hint
    · refine allow_declare_source hΓ fun hvalue => ?_
      rw [hunknown] at hvalue
      cases hvalue
  · rw [hty]
    refine ⟨?_, fun _ => allow_declare_varTy hΓ⟩
    rw [and_congr_right_iff]
    exact fun _ => iff_of_true wideDeclared_varTy declaresWide_nil
  · have hexpr := expr_of_initial hc hliteral
    rw [hty]
    refine ⟨and_congr_right fun _ => wideDeclared_auto_iff hΓ hvalues hmem hexpr hown, fun h => ?_⟩
    refine allow_declare_source hΓ fun hvalue => ?_
    have hown : f.varTy name = f.typeOf value := by
      refine hown.resolve_left fun hunknown => ?_
      rw [hunknown] at hvalue
      cases hvalue
    have hsized := (emits_of_expr hexpr).gives (declared_sized hΓ) hv
    have hnarrow := narrow_of_type? hsized
    obtain ⟨τ, hτ, hfits⟩ := hsized
    refine ⟨τ, hτ.type, fun hchars => ?_, ?_⟩
    · obtain ⟨s, rfl⟩ := hτ.literal hchars
      cases hliteral
    · rw [hown]
      refine hfits.of_wide fun hint => hnarrow ?_
      exact h.2 (hown.trans hint)

/-! ## Loops -/

section Loops
variable {st st₁ : Progress} {name : String} {start stop iterable : Expr} {step : Option Expr}
  {assigned : List String} {head : LoopHead} {first : List Cpp.Stmt}

theorem wide_counting (sign? : Option Int) (counter : Name) {bound : Cpp.Expr}
    {stride? : Option Cpp.Expr} :
    ((counting sign? counter bound stride?).1.Wide Γ ∧
        (counting sign? counter bound stride?).2.Wide Γ) ↔
      bound.Wide Γ ∧ ∀ c ∈ stride?, c.Wide Γ := by
  have htowards : ∀ up, (towards up counter bound).Wide Γ ↔ bound.Wide Γ := by
    intro up
    rw [towards, Cpp.Expr.wide_binary_of_not_isRing (by cases up <;> rfl)]
    simp
  cases stride? with
  | none => simp [counting, htowards, Cpp.Advance.Wide]
  | some stride =>
    cases sign? with
    | some sign => simp [counting, htowards, Cpp.Advance.Wide]
    | none =>
      have hpositive : ∀ l r : Cpp.Expr, (Cpp.Expr.binary .greaterThan l r).Wide Γ ↔
          l.Wide Γ ∧ r.Wide Γ := fun _ _ => Cpp.Expr.wide_binary_of_not_isRing rfl
      simp only [counting, Cpp.Expr.wide_group, Cpp.Expr.wide_choose, htowards, Cpp.Advance.Wide,
        hpositive, Option.mem_some_iff, forall_eq', Cpp.Expr.wide_int]
      tauto

theorem wideAs_loopStore (hΓ : Γ.Allow f) {fresh : Bool} {value : Cpp.Expr}
    (hvalue : value.Wide Γ) :
    f.WideAs body Γ [] [f.loopStore fresh name value] := by
  unfold loopStore
  split
  · refine ⟨?_, fun _ => allow_declare_varTy hΓ⟩
    rw [Cpp.wideBlock_singleton]
    exact iff_of_true ⟨hvalue, wideDeclared_varTy⟩ ⟨by simp, declaresWide_nil⟩
  · exact .of_plain hΓ rfl rfl (iff_of_true ⟨by simp, hvalue⟩ (by simp))

/-- What is asked of a loop besides its body. The body sees declarations that it can rely on. -/
def HeadWideAs (f : Frame) (body : List Stmt) (Γ : Declarations) (nodes : List Expr)
    (head : LoopHead) (first : List Cpp.Stmt) : Prop :=
  ∃ Γ' : Declarations, Γ'.Allow f ∧ f.WideAs body Γ' [] first ∧
    ∀ cbody, (head.loop cbody).Wide f.IsInt Γ ↔
      f.KeepsWide nodes ∧ Cpp.WideBlock f.IsInt Γ' cbody

/-- Whether an expression is wide does not depend on the declarations, if they fit the values. -/
def Steady (f : Frame) (c : Cpp.Expr) : Prop :=
  ∀ {Γ Γ' : Declarations}, Γ.Allow f → Γ'.Allow f → (c.Wide Γ ↔ c.Wide Γ')

theorem Emits.steady {e : Expr} {c : Cpp.Expr} (h : f.Emits e c) (hv : f.AllTyped e.parts) :
    f.Steady c := by
  intro Γ Γ' hΓ hΓ'
  rw [h.wide_iff hΓ hv.of_tail, h.wide_iff hΓ' hv.of_tail]

/-- Hidden counters leave the variables of the source alone. -/
theorem wideCounters_iff (hΓ : Γ.Allow f) {counters : List (Name × Cpp.Expr)}
    (h : ∀ c ∈ counters, (∃ stem n, c.1 = .hidden stem n) ∧ f.Steady c.2) :
    (Γ.count counters).Allow f ∧
      (Cpp.WideCounters Γ counters ↔ ∀ c ∈ counters, c.2.Wide Γ) := by
  induction counters generalizing Γ with
  | nil => exact ⟨hΓ, by simp [Cpp.WideCounters]⟩
  | cons c counters ih =>
    obtain ⟨⟨⟨stem, n, hname⟩, -⟩, hrest⟩ := List.forall_mem_cons.1 h
    have hΓ' : (Γ.declare c.1 (some .longLong)).Allow f := hname ▸ allow_declare_hidden hΓ stem n
    obtain ⟨hallow, hiff⟩ := ih hΓ' hrest
    refine ⟨hallow, ?_⟩
    rw [Cpp.WideCounters, hiff, List.forall_mem_cons, and_congr_right_iff]
    intro _
    exact forall₂_congr fun c' hc' => (hrest c' hc').2 hΓ' hΓ

/-- What holds of the hidden variables of a counting loop. -/
theorem forall_hiddenCounters {P : Name × Cpp.Expr → Prop} {n : Nat} {sign? : Option Int}
    {keepsBound : Bool} {cstart cstop : Cpp.Expr} {cstep : Option Cpp.Expr} :
    (∀ c ∈ (Name.hidden .counter n, cstart) ::
        (if keepsBound then [] else [(Name.hidden .bound n, cstop)]) ++
          (hiddenStride n sign? cstep).2,
      P c) ↔
      P (.hidden .counter n, cstart) ∧ (keepsBound = false → P (.hidden .bound n, cstop)) ∧
        (sign? = none → ∀ c ∈ cstep, P (.hidden .stride n, .helper .step [c])) := by
  cases keepsBound <;> cases cstep <;> cases sign? <;> simp [hiddenStride]

theorem headWideAs_hiddenHead (hΓ : Γ.Allow f) {n : Nat} {sign? : Option Int}
    {keepsBound fresh : Bool} {cstart cstop : Cpp.Expr} {cstep : Option Cpp.Expr}
    (hstart : f.Steady cstart) (hstop : f.Steady cstop) (hstep : ∀ c ∈ cstep, f.Steady c)
    (hnodes : f.KeepsWide nodes ↔ cstart.Wide Γ ∧ cstop.Wide Γ ∧ ∀ c ∈ cstep, c.Wide Γ) :
    f.HeadWideAs body Γ nodes (hiddenHead n sign? keepsBound cstart cstop cstep)
      [f.loopStore fresh name (.var (.hidden .counter n))] := by
  obtain ⟨counters, hcounters⟩ : ∃ counters, counters = (Name.hidden .counter n, cstart) ::
      (if keepsBound then [] else [(Name.hidden .bound n, cstop)]) ++
        (hiddenStride n sign? cstep).2 := ⟨_, rfl⟩
  have hsteady : ∀ c ∈ counters, (∃ stem n, c.1 = .hidden stem n) ∧ f.Steady c.2 := by
    have hhelper : ∀ {c}, f.Steady c → f.Steady (.helper .step [c]) := by
      intro c hc Γ Γ' hΓ hΓ'
      simpa using hc hΓ hΓ'
    rw [hcounters, forall_hiddenCounters]
    exact ⟨⟨⟨_, _, rfl⟩, hstart⟩, fun _ => ⟨⟨_, _, rfl⟩, hstop⟩,
      fun _ c hc => ⟨⟨_, _, rfl⟩, hhelper (hstep c hc)⟩⟩
  obtain ⟨hallow, hiff⟩ := wideCounters_iff hΓ hsteady
  refine ⟨Γ.count counters, hallow, wideAs_loopStore hallow (by simp), fun cbody => ?_⟩
  have hloop : ((hiddenHead n sign? keepsBound cstart cstop cstep).loop cbody).Wide f.IsInt Γ ↔
      (∀ c ∈ counters, c.2.Wide Γ) ∧
        ((if keepsBound then cstop else .var (.hidden .bound n)).Wide (Γ.count counters) ∧
          ∀ c ∈ (hiddenStride n sign? cstep).1, c.Wide (Γ.count counters)) ∧
        Cpp.WideBlock f.IsInt (Γ.count counters) cbody := by
    rw [← hiff, ← wide_counting sign? (.hidden .counter n), hcounters, and_assoc]
    rfl
  rw [hloop, hnodes, ← and_assoc, and_congr_left_iff]
  intro _
  have hbound : (if keepsBound then cstop else .var (.hidden .bound n)).Wide (Γ.count counters) ↔
      (keepsBound = true → cstop.Wide Γ) := by
    cases keepsBound <;> simp [hstop hallow hΓ]
  have hstride : (∀ c ∈ (hiddenStride n sign? cstep).1, c.Wide (Γ.count counters)) ↔
      (sign?.isSome = true → ∀ c ∈ cstep, c.Wide Γ) := by
    cases cstep with
    | none => cases sign? <;> simp [hiddenStride]
    | some c => cases sign? <;> simp [hiddenStride, hstep c rfl hallow hΓ]
  rw [hbound, hstride, hcounters, forall_hiddenCounters]
  have hhelper : ∀ c : Cpp.Expr, (Cpp.Expr.helper .step [c]).Wide Γ ↔ c.Wide Γ := by simp
  simp only [hhelper]
  cases keepsBound <;> cases sign? <;>
    simp only [reduceCtorEq, Option.isSome_some, Option.isSome_none, Bool.false_eq_true,
      Bool.true_eq_false, false_imp_iff, true_imp_iff, and_true, true_and, and_assoc]
  rw [and_comm (b := cstop.Wide Γ)]

/-- A loop over a range counts with its own variable or with hidden ones. -/
theorem headWideAs_of_rangeHead (hΓ : Γ.Allow f)
    (h : f.rangeHead st name start stop step assigned = .ok (head, first, st₁))
    (hstartv : f.AllTyped start.parts) (hstopv : f.AllTyped stop.parts)
    (hstepv : f.AllTyped (Expr.partsOfOption step))
    (hcounts : name ∉ st.declared → f.varTy name = .int ∨ f.varTy name = .float) :
    f.HeadWideAs body Γ (start.parts ++ (stop.parts ++ Expr.partsOfOption step)) head first := by
  obtain ⟨cstart, cstop, cstep, hstart, hstop, hstep, hcases⟩ := rangeHead_cases h
  have hstart := emits_of_expr hstart
  have hstop := emits_of_expr hstop
  have hstep := emits_of_option hstep
  have hnodes : ∀ {Γ : Declarations}, Γ.Allow f →
      (f.KeepsWide (start.parts ++ (stop.parts ++ Expr.partsOfOption step)) ↔
        cstart.Wide Γ ∧ cstop.Wide Γ ∧ ∀ c ∈ cstep, c.Wide Γ) := by
    intro Γ hΓ
    rw [keepsWide_append, keepsWide_append, hstart.wide_iff hΓ hstartv.of_tail,
      hstop.wide_iff hΓ hstopv.of_tail, hstep.wide_iff hΓ hstepv]
  have hsteady : ∀ c ∈ cstep, f.Steady c := by
    intro c hc
    cases hstep with
    | absent => cases hc
    | present hemits =>
      cases hc
      exact hemits.steady hstepv
  obtain ⟨hfresh, -, -, -, rfl, rfl, rfl⟩ | ⟨rfl, rfl, rfl⟩ := hcases
  · have hΓ' := allow_declare_counter hΓ (hcounts hfresh)
    refine ⟨_, hΓ', .nil hΓ', fun cbody => ?_⟩
    have hloop : ((ownHead name (stepSign? step) cstart cstop cstep).loop cbody).Wide f.IsInt Γ ↔
        (cstart.Wide Γ ∧ cstop.Wide (Γ.declare (.source name) (some .longLong)) ∧
          ∀ c ∈ cstep, c.Wide (Γ.declare (.source name) (some .longLong))) ∧
        Cpp.WideBlock f.IsInt (Γ.declare (.source name) (some .longLong)) cbody := by
      rw [← wide_counting (stepSign? step) (.source name), and_assoc, and_assoc,
        ← and_true (cstart.Wide Γ)]
      rfl
    rw [hloop, hnodes hΓ', hstart.steady hstartv hΓ hΓ']
  · exact headWideAs_hiddenHead hΓ (hstart.steady hstartv) (hstop.steady hstopv) hsteady (hnodes hΓ)

theorem wide_walked (iterable : Expr) (ty : Ty) (assigned : List String) {c : Cpp.Expr} :
    (walked iterable c ty assigned).Wide Γ ↔ c.Wide Γ := by
  unfold walked
  split
  · split <;> simp
  · simp

theorem headWideAs_of_collectionHead (hΓ : Γ.Allow f)
    (h : f.collectionHead st name iterable assigned = .ok (head, first, st₁))
    (hv : f.AllTyped iterable.parts) : f.HeadWideAs body Γ iterable.parts head first := by
  obtain ⟨c, hc, hcases⟩ := collectionHead_cases h
  have hwide := (wide_walked iterable (f.typeOf iterable) assigned).trans
    (wide_iff_of_expr hΓ hc hv.of_tail)
  obtain ⟨-, -, rfl, rfl, rfl⟩ | ⟨rfl, rfl, rfl⟩ := hcases
  · have hΓ' : (Γ.declare (.source name) (some (.declared (f.varTy name)))).Allow f :=
      allow_declare_varTy hΓ
    refine ⟨_, hΓ', .nil hΓ', fun cbody => ?_⟩
    rw [LoopHead.loop, Cpp.Stmt.Wide, hwide, Cpp.DeclType.element?,
      and_iff_right wideDeclared_varTy]
  · have hΓ' : (Γ.declare (.hidden .item (f.itemNumber st)) (Cpp.DeclType.auto.element? Γ
        (walked iterable c (f.typeOf iterable) assigned))).Allow f := allow_declare_hidden hΓ _ _
    refine ⟨_, hΓ', wideAs_loopStore hΓ' ?_, fun cbody => ?_⟩
    · unfold itemValue
      split <;> simp
    · rw [LoopHead.loop, Cpp.Stmt.Wide, hwide, Cpp.WideDeclared, true_and]

theorem headWideAs_of_loopHead (hΓ : Γ.Allow f)
    (h : f.loopHead st name iterable assigned = .ok (head, first, st₁)) {block : List Stmt}
    (hv : f.AllTyped (Expr.partsOf ((Stmt.forLoop name iterable block).evaluated f.routine)))
    (hcounts : ∀ start stop step, iterable = .range start stop step → name ∉ st.declared →
      f.varTy name = .int ∨ f.varTy name = .float) :
    f.HeadWideAs body Γ (Expr.partsOf ((Stmt.forLoop name iterable block).evaluated f.routine)) head
      first := by
  have hoption : ∀ e : Option Expr, Expr.partsOf e.toList = Expr.partsOfOption e := by
    intro e
    cases e <;> simp [Expr.partsOf, Expr.partsOfOption]
  unfold loopHead at h
  split at h
  · next start stop step =>
    simp only [Stmt.evaluated, Expr.bounds, Option.toList_some, List.cons_append, List.nil_append,
      Expr.partsOf, hoption] at hv ⊢
    obtain ⟨hstartv, hv⟩ := hv.append
    obtain ⟨hstopv, hstepv⟩ := hv.append
    exact headWideAs_of_rangeHead hΓ h hstartv hstopv hstepv (hcounts _ _ _ rfl)
  · next stop step =>
    simp only [Stmt.evaluated, Expr.bounds, Option.toList_none, List.nil_append, Expr.partsOf,
      hoption] at hv ⊢
    obtain ⟨hstopv, hstepv⟩ := hv.append
    have hzero : f.AllTyped (Expr.int 0).parts := by
      simp [AllTyped, Expr.parts, HasValues, Builds]
    have hhead : f.HeadWideAs body Γ _ head first :=
      headWideAs_of_rangeHead hΓ h hzero hstopv hstepv (hcounts _ _ _ rfl)
    obtain ⟨Γ', hΓ', hfirst, hloop⟩ := hhead
    refine ⟨Γ', hΓ', hfirst, fun cbody => (hloop cbody).trans ?_⟩
    rw [Expr.parts, List.singleton_append, keepsWide_cons rfl]
  · next hrange hrange' =>
    have heval : (Stmt.forLoop name iterable block).evaluated f.routine = [iterable] := by
      cases iterable with
      | range start stop step =>
        cases stop with
        | none => exact absurd rfl (hrange' start step)
        | some stop => exact absurd rfl (hrange start stop step)
      | _ => rfl
    rw [heval, Expr.partsOf, Expr.partsOf, List.append_nil] at hv ⊢
    exact headWideAs_of_collectionHead hΓ h hv

end Loops

/-! ## Statements -/

/-- What is asked of the rest of a condition. -/
def ElseWideAs (f : Frame) (body : List Stmt) (Γ : Declarations) (nodes : List Expr)
    (ce : Cpp.Else) : Prop :=
  ce.Wide f.IsInt Γ ↔ f.KeepsWide nodes ∧ f.DeclaresWide body ce.autos

theorem nodesOf_singleton (routine : String) (s : Stmt) :
    Stmt.nodesOf routine [s] = Expr.partsOf (s.evaluated routine) := by
  simp [Stmt.nodesOf]

theorem EmitsAll.allWide_output_iff {args : List Expr} {cs : List Cpp.Expr}
    (h : f.EmitsAll args cs) :
    Cpp.Expr.AllWide Γ (List.zipWith outputItem args cs) ↔ Cpp.Expr.AllWide Γ cs := by
  induction args generalizing cs with
  | nil =>
    cases h
    rfl
  | cons arg args ih =>
    cases h with
    | cons _ hargs =>
      rw [List.zipWith_cons_cons, Cpp.Expr.allWide_cons, Cpp.Expr.allWide_cons,
        ih hargs, outputItem]
      split <;> simp

section
variable {c : Cpp.Stmt}

theorem wideAs_assignAt (hΓ : Γ.Allow f) {target position value : Expr}
    (h : f.assignAt target position value = .ok c)
    (hv : f.AllTyped (Expr.partsOf [target, position, value])) :
    f.WideAs body Γ (Expr.partsOf [target, position, value]) [c] := by
  obtain ⟨ct, ci, cv, ht, hi, hvalue, rfl⟩ := assignAt_cases h
  simp only [Expr.partsOf, List.append_nil] at hv ⊢
  obtain ⟨hvt, hv⟩ := hv.append
  obtain ⟨hvi, hvv⟩ := hv.append
  refine .of_plain hΓ rfl rfl ?_
  rw [Cpp.Stmt.Wide, wide_element, keepsWide_append, keepsWide_append, and_assoc,
    wide_iff_of_expr hΓ ht hvt.of_tail, wide_iff_of_expr hΓ hi hvi.of_tail,
    wide_iff_of_expr hΓ hvalue hvv.of_tail]

theorem wideAs_print (hΓ : Γ.Allow f) {args : List Expr} (h : f.print args = .ok c)
    (hv : f.AllTyped (Expr.partsOf args)) : f.WideAs body Γ (Expr.partsOf args) [c] := by
  obtain ⟨cs, hcs, h⟩ := exists_of_bind_eq_ok h
  cases h
  refine .of_plain hΓ rfl rfl ?_
  rw [Cpp.Stmt.Wide, (emits_of_exprs hcs).allWide_output_iff, wide_iff_of_exprs hΓ hcs hv]

theorem wideAs_ret (hΓ : Γ.Allow f) {value : Option Expr} (h : f.ret value = .ok c)
    (hv : f.AllTyped (Expr.partsOf ((Stmt.ret value).evaluated f.routine))) :
    f.WideAs body Γ (Expr.partsOf ((Stmt.ret value).evaluated f.routine)) [c] := by
  obtain ⟨hentry, rfl⟩ | ⟨hentry, ⟨e, ce, rfl, hce, rfl⟩ | ⟨rfl, rfl | rfl⟩⟩ := ret_cases h
  · refine .of_plain hΓ rfl rfl ?_
    simp [Stmt.evaluated, hentry, Expr.partsOf, Cpp.Stmt.Wide]
  · simp only [Stmt.evaluated, if_neg hentry, Option.toList_some, Expr.partsOf, List.append_nil]
      at hv ⊢
    refine .of_plain hΓ rfl rfl ?_
    rw [Cpp.Stmt.Wide, ← wide_iff_of_expr hΓ hce hv.of_tail]
    simp
  · refine .of_plain hΓ rfl rfl ?_
    simp [Stmt.evaluated, Expr.partsOf, Cpp.Stmt.Wide]
  · refine .of_plain hΓ rfl rfl ?_
    simp [Stmt.evaluated, Expr.partsOf, Cpp.Stmt.Wide]

end

/-- A loop is its head and a body that sees what the head declares. -/
theorem HeadWideAs.loop {head : LoopHead} {first cbody : List Cpp.Stmt} (hΓ : Γ.Allow f)
    (h : f.HeadWideAs body Γ nodes head first)
    (hbody : ∀ {Γ : Declarations}, Γ.Allow f → f.WideAs body Γ nodes' cbody) :
    f.WideAs body Γ (nodes ++ nodes') [head.loop (first ++ cbody)] := by
  obtain ⟨Γ', hΓ', hfirst, hloop⟩ := h
  have hblock := (hfirst.append hbody).1
  rw [List.nil_append] at hblock
  refine .of_iff hΓ (by cases head <;> rfl) ?_
  have hautos : (head.loop (first ++ cbody)).autos = Cpp.autosOf (first ++ cbody) := by
    cases head <;> rfl
  rw [hloop, hblock, keepsWide_append, and_assoc, hautos]

theorem wide_truth_iff (hΓ : Γ.Allow f) {cond : Expr} {c : Cpp.Expr} (hc : f.expr cond = .ok c)
    (hv : f.AllTyped (Expr.partsOf [cond])) :
    (f.truth cond c).Wide Γ ↔ f.KeepsWide (Expr.partsOf [cond]) := by
  rw [Expr.partsOf, Expr.partsOf, List.append_nil] at hv ⊢
  rw [wide_truth, wide_iff_of_expr hΓ hc hv.of_tail]

theorem wide_branches_iff (hΓ : Γ.Allow f) {cond : Expr} {c : Cpp.Expr} {cbody : List Cpp.Stmt}
    {ce : Cpp.Else} {rest : List Expr} (hc : f.expr cond = .ok c)
    (hv : f.AllTyped (Expr.partsOf [cond]))
    (hbody : Cpp.WideBlock f.IsInt Γ cbody ↔
      f.KeepsWide nodes ∧ f.DeclaresWide body (Cpp.autosOf cbody))
    (helse : f.ElseWideAs body Γ rest ce) :
    ((f.truth cond c).Wide Γ ∧ Cpp.WideBlock f.IsInt Γ cbody ∧ ce.Wide f.IsInt Γ) ↔
      f.KeepsWide (Expr.partsOf [cond] ++ (nodes ++ rest)) ∧
        f.DeclaresWide body (Cpp.autosOf cbody ++ ce.autos) := by
  unfold ElseWideAs at helse
  rw [wide_truth_iff hΓ hc hv, hbody, helse, keepsWide_append, keepsWide_append,
    declaresWide_append]
  tauto

mutual

theorem EmitsStmt.wideAs (hvalues : f.ValuesTyped body) (hcounts : f.CountsNumbers body) :
    ∀ {s : Stmt} {inLoop : Bool} {st st' : Progress} {cs : List Cpp.Stmt} {Γ : Declarations},
      f.EmitsStmt inLoop st s cs st' → s.within ⊆ Stmt.withinBlock body →
      (∀ p ∈ f.params, p.name ∈ st.declared) → Γ.Allow f →
      f.WideAs body Γ (Stmt.nodesOf f.routine s.within) cs
  | .assign name value, _, _, _, _, _, .store _ _ hc, hsub, _, hΓ => by
    have hv := hvalues _ (hsub (Stmt.within_self _))
    simp only [Stmt.within, nodesOf_singleton]
    simp only [Stmt.valuedNodes, Stmt.evaluated, Stmt.operands, Expr.partsOf,
      List.append_nil] at hv ⊢
    refine .of_plain hΓ rfl rfl ?_
    rw [Cpp.Stmt.Wide, wide_iff_of_expr hΓ hc hv.of_tail, and_iff_right (Cpp.Expr.wide_var _)]
  | .assign name value, _, _, _, _, _, .declare _ _ hc, hsub, _, hΓ => by
    simp only [Stmt.within, nodesOf_singleton]
    simp only [Stmt.evaluated, Stmt.operands, Expr.partsOf, List.append_nil]
    exact wideAs_declare hΓ hvalues (hsub (Stmt.within_self _)) hc
  | .assignAt _ _ _, _, _, _, _, _, .assignAt hc, hsub, _, hΓ => by
    simp only [Stmt.within, nodesOf_singleton]
    exact wideAs_assignAt hΓ hc (hvalues _ (hsub (Stmt.within_self _)))
  | .print _, _, _, _, _, _, .print hc, hsub, _, hΓ => by
    simp only [Stmt.within, nodesOf_singleton]
    exact wideAs_print hΓ hc (hvalues _ (hsub (Stmt.within_self _)))
  | .ifElse cond block orelse, _, _, _, _, _, .ifElse hc hb he, hsub, hparams, hΓ => by
    have hv := hvalues _ (hsub (Stmt.within_self _))
    rw [Stmt.within, List.cons_subset, List.append_subset] at hsub
    have hb' := (hb.wideAs hvalues hcounts hsub.2.1 hparams hΓ).1
    have he' := he.wideAs hvalues hcounts hsub.2.2
      (fun p hp => (hb.declares.keeps _ (hparams p hp)).1) hΓ
    rw [Stmt.within, Stmt.nodesOf_cons, Stmt.nodesOf_append]
    exact .of_iff hΓ rfl (wide_branches_iff hΓ hc hv hb' he')
  | .whileLoop cond block, _, _, _, _, _, .whileLoop hc hb, hsub, hparams, hΓ => by
    have hv := hvalues _ (hsub (Stmt.within_self _))
    rw [Stmt.within, List.cons_subset] at hsub
    have hb' := (hb.wideAs hvalues hcounts hsub.2 hparams hΓ).1
    rw [Stmt.within, Stmt.nodesOf_cons]
    refine .of_iff hΓ rfl ?_
    rw [Cpp.Stmt.Wide, wide_truth_iff hΓ hc hv, hb', keepsWide_append, and_assoc]
    rfl
  | .forLoop name iterable block, _, st, _, _, _, .freshLoop hhead hd hb, hsub, hparams, hΓ => by
    have hmem := hsub (Stmt.within_self _)
    rw [Stmt.within, List.cons_subset] at hsub
    rw [Stmt.within, Stmt.nodesOf_cons]
    refine (headWideAs_of_loopHead hΓ hhead (hvalues _ hmem) ?_).loop hΓ fun hΓ' => ?_
    · rintro start stop step rfl hfresh
      refine hcounts _ _ _ _ _ hmem fun hname => ?_
      obtain ⟨p, hp, rfl⟩ := List.mem_map.1 hname
      exact hfresh (hparams p hp)
    · refine hb.wideAs hvalues hcounts hsub.2 (fun p hp => List.mem_cons_of_mem _ ?_) hΓ'
      rw [(headOf_of_loopHead hhead).declared]
      exact hparams p hp
  | .forLoop name iterable block, _, _, _, _, _, .loop hhead hd hb, hsub, hparams, hΓ => by
    have hmem := hsub (Stmt.within_self _)
    have hdeclared := (headOf_of_loopHead hhead).declared
    rw [Stmt.within, List.cons_subset] at hsub
    rw [Stmt.within, Stmt.nodesOf_cons]
    refine (headWideAs_of_loopHead hΓ hhead (hvalues _ hmem) ?_).loop hΓ fun hΓ' => ?_
    · intro _ _ _ _ hfresh
      exact absurd (hdeclared ▸ hd) hfresh
    · refine hb.wideAs hvalues hcounts hsub.2 (fun p hp => ?_) hΓ'
      rw [hdeclared]
      exact hparams p hp
  | .ret value, _, _, _, _, _, .ret hc, hsub, _, hΓ => by
    simp only [Stmt.within, nodesOf_singleton]
    exact wideAs_ret hΓ hc (hvalues _ (hsub (Stmt.within_self _)))
  | .eval e, _, _, _, _, _, .eval hc, hsub, _, hΓ => by
    simp only [Stmt.within, nodesOf_singleton]
    simp only [Stmt.evaluated, Stmt.operands, Expr.partsOf, List.append_nil]
    refine .of_plain hΓ rfl rfl ?_
    exact wide_iff_of_expr hΓ hc (hvalues _ (hsub (Stmt.within_self _)))
  | .pass, _, _, _, _, _, .pass, _, _, hΓ => .nil hΓ
  | .break_, _, _, _, _, _, .break_, _, _, hΓ | .continue_, _, _, _, _, _, .continue_, _, _, hΓ =>
    .of_plain hΓ rfl rfl (iff_of_true trivial keepsWide_nil)

theorem EmitsBlock.wideAs (hvalues : f.ValuesTyped body) (hcounts : f.CountsNumbers body) :
    ∀ {block : List Stmt} {inLoop : Bool} {st st' : Progress} {cs : List Cpp.Stmt}
      {Γ : Declarations}, f.EmitsBlock inLoop st block cs st' →
      Stmt.withinBlock block ⊆ Stmt.withinBlock body → (∀ p ∈ f.params, p.name ∈ st.declared) →
      Γ.Allow f → f.WideAs body Γ (Stmt.nodesOf f.routine (Stmt.withinBlock block)) cs
  | [], _, _, _, _, _, .nil, _, _, hΓ => .nil hΓ
  | s :: rest, _, _, _, _, _, .cons hs hrest, hsub, hparams, hΓ => by
    rw [Stmt.withinBlock, List.append_subset] at hsub
    rw [Stmt.withinBlock, Stmt.nodesOf_append]
    refine (hs.wideAs hvalues hcounts hsub.1 hparams hΓ).append fun hΓ' => ?_
    refine hrest.wideAs hvalues hcounts hsub.2 (fun p hp => ?_) hΓ'
    exact (hs.declares.keeps _ (hparams p hp)).1

theorem EmitsElse.wideAs (hvalues : f.ValuesTyped body) (hcounts : f.CountsNumbers body) :
    ∀ {orelse : Option (List Stmt)} {inLoop : Bool} {st st' : Progress} {ce : Cpp.Else}
      {Γ : Declarations}, f.EmitsElse inLoop st orelse ce st' →
      Stmt.withinElse orelse ⊆ Stmt.withinBlock body → (∀ p ∈ f.params, p.name ∈ st.declared) →
      Γ.Allow f → f.ElseWideAs body Γ (Stmt.nodesOf f.routine (Stmt.withinElse orelse)) ce
  | none, _, _, _, _, _, .nothing, _, _, _ => iff_of_true trivial ⟨keepsWide_nil, declaresWide_nil⟩
  | some [.ifElse cond block orelse], _, _, _, _, _, .elseIf hc hb he, hsub, hparams, hΓ => by
    have hv := hvalues (.ifElse cond block orelse)
      (hsub (by simp [Stmt.withinElse, Stmt.withinBlock, Stmt.within]))
    simp only [Stmt.withinElse, Stmt.withinBlock, Stmt.within, List.append_nil, List.cons_subset,
      List.append_subset] at hsub
    have hb' := (hb.wideAs hvalues hcounts hsub.2.1 hparams hΓ).1
    have he' := he.wideAs hvalues hcounts hsub.2.2
      (fun p hp => (hb.declares.keeps _ (hparams p hp)).1) hΓ
    simp only [Stmt.withinElse, Stmt.withinBlock, Stmt.within, List.append_nil, Stmt.nodesOf_cons,
      Stmt.nodesOf_append]
    exact wide_branches_iff hΓ hc hv hb' he'
  | some block, _, _, _, _, _, .block hb, hsub, hparams, hΓ =>
    (hb.wideAs hvalues hcounts hsub hparams hΓ).1

end

end Frame

end Braces
