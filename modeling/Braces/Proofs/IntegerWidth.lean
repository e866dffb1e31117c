import Braces.Proofs.Absorption
import Braces.Proofs.SlotChecks
import Braces.Proofs.Typing.WideBlocks

/-!
# Where integers are 64 bits wide

A routine declares its integer variables `long long` and computes with integers in `long long`, with
two exceptions: an operator whose operands are both made of small literals and truth values, and a
variable that is declared by a value of that kind which is not a literal itself. There the target
computes with `int`. A routine without either is wide, and one with either is not.
-/

namespace Braces

/-! ## Counting loops -/

namespace Stmt

mutual

theorem bind_mem_steps_of_within {routine name : String} {iterable : Expr} {block : List Stmt} :
    ∀ {s : Stmt}, .forLoop name iterable block ∈ s.within →
      Step.bind name (.elements iterable) ∈ s.steps routine
  | .ifElse cond body orelse, h => by
    simp only [within, List.mem_cons, reduceCtorEq, false_or, List.mem_append] at h
    simp only [steps, List.mem_append, List.mem_cons, reduceCtorEq, false_or]
    rcases h with h | h
    · exact .inr (.inl (bind_mem_blockSteps_of_within h))
    · exact .inr (.inr (bind_mem_elseSteps_of_within h))
  | .whileLoop cond body, h => by
    simp only [within, List.mem_cons, reduceCtorEq, false_or] at h
    simp only [steps, List.mem_append, List.mem_cons, reduceCtorEq, false_or]
    exact .inr (.inl (bind_mem_blockSteps_of_within h))
  | .forLoop name' iterable' body, h => by
    simp only [within, List.mem_cons, forLoop.injEq] at h
    simp only [steps, List.mem_append, List.mem_cons, reduceCtorEq, false_or]
    rcases h with ⟨rfl, rfl, rfl⟩ | h
    · exact .inr (.inl rfl)
    · exact .inr (.inr (.inl (bind_mem_blockSteps_of_within h)))
  | .assign _ _, h | .assignAt _ _ _, h | .print _, h | .funcDef _ _ _, h | .ret _, h | .eval _, h
  | .pass, h | .break_, h | .continue_, h => by simp [within] at h

/-- A loop binds its variable to the elements of what it walks. -/
theorem bind_mem_blockSteps_of_within {routine name : String} {iterable : Expr}
    {block : List Stmt} : ∀ {body : List Stmt}, .forLoop name iterable block ∈ withinBlock body →
      Step.bind name (.elements iterable) ∈ blockSteps routine body
  | [], h => by cases h
  | s :: rest, h => by
    rw [blockSteps, List.mem_append]
    rcases List.mem_append.1 h with h | h
    · exact .inl (bind_mem_steps_of_within h)
    · exact .inr (bind_mem_blockSteps_of_within h)

theorem bind_mem_elseSteps_of_within {routine name : String} {iterable : Expr}
    {block : List Stmt} : ∀ {orelse : Option (List Stmt)},
      .forLoop name iterable block ∈ withinElse orelse →
      Step.bind name (.elements iterable) ∈ elseSteps routine orelse
  | none, h => by cases h
  | some body, h => by
    simp only [elseSteps, List.mem_cons, List.mem_append, reduceCtorEq, false_or]
    exact .inl (bind_mem_blockSteps_of_within h)

end

end Stmt

namespace Program

variable {p : Program} {t : Table} {r : String} {body : List Stmt}

/-- If its elements fit the variable of a counting loop, the variable holds numbers. -/
theorem countsNumbers_of_infer (h : p.infer = .ok t) (hw : (r, body) ∈ p.walks)
    (hfit : Frame.LoopedFit ⟨t, r⟩ body) : Frame.CountsNumbers ⟨t, r⟩ body := by
  intro name start stop step block hmem hparam
  have hstore : (⟨r, .var r name, .elements (.range start stop step)⟩ : Store) ∈ p.stores :=
    List.mem_flatMap.2 ⟨_, hw, List.mem_filterMap.2
      ⟨_, Stmt.bind_mem_blockSteps_of_within hmem, rfl⟩⟩
  rw [stores, ← map_toStore_turns _ p.penultimate] at hstore
  obtain ⟨τ, hτ, heq⟩ := List.mem_map.1 hstore
  have hint : Ty.int ∈ p.inputs (.var r name) := by
    have hseen := Turn.seen_mem_typesAt hτ
    rw [Turn.seen, heq] at hseen
    exact hseen
  have habsorbs : (Frame.varTy ⟨t, r⟩ name).join .int = Frame.varTy ⟨t, r⟩ name := by
    rw [varTy_eq_foldl h hw hparam]
    exact Ty.join_foldl_of_mem hint .unknown
  have haccepts : (Frame.varTy ⟨t, r⟩ name).accepts .int = true := hfit _ _ _ hmem
  generalize Frame.varTy ⟨t, r⟩ name = ty at habsorbs haccepts ⊢
  revert habsorbs haccepts
  cases ty <;> decide

/-- A variable that is declared at the top has its own type there. -/
theorem varTy_of_mem_hoisted (h : p.infer = .ok t) (hw : (r, body) ∈ p.walks) {x : String}
    {v : Local} (hv : (x, v) ∈ t.hoisted r) : Frame.varTy ⟨t, r⟩ x = v.ty := by
  rw [Frame.varTy, local?_of_mem_hoisted h hw hv]

end Program

/-! ## Routines -/

namespace Frame

variable {f : Frame} {body : List Stmt} {Γ : Cpp.Declarations}

/-- Declarations at the top spell the types of their variables. -/
theorem wideAs_reserved (hΓ : Γ.Allow f)
    (h : ∀ x v, (x, v) ∈ f.table.hoisted f.routine → f.varTy x = v.ty) :
    f.WideAs body Γ [] f.reserved := by
  unfold reserved
  generalize f.table.hoisted f.routine = entries at h ⊢
  induction entries generalizing Γ with
  | nil => exact .nil hΓ
  | cons entry rest ih =>
    obtain ⟨x, v⟩ := entry
    have hx : f.varTy x = v.ty := h x v List.mem_cons_self
    have hfirst : f.WideAs body Γ [] [.reserve v.ty (.source x)] := by
      rw [← hx]
      refine ⟨?_, fun _ => allow_declare_varTy hΓ⟩
      rw [Cpp.wideBlock_singleton]
      exact iff_of_true wideDeclared_varTy ⟨keepsWide_nil, declaresWide_nil⟩
    exact hfirst.append fun hΓ' => ih hΓ' fun x v hv => h x v (List.mem_cons_of_mem _ hv)

end Frame

/-- A unit has a body for a routine. -/
def Cpp.Unit.HasBody (u : Cpp.Unit) (routine : String) (body : List Cpp.Stmt) : Prop :=
  if routine = entryName then u.entry = body
  else ∃ r ∈ u.routines, r.signature.name = routine ∧ r.body = body

namespace Program

variable {p : Program} {t : Table} {r : String} {body : List Stmt}

theorem wideBlock_body_iff (h : p.infer = .ok t) (hw : (r, body) ∈ p.walks) {cs : List Cpp.Stmt}
    (hcs : Frame.body ⟨t, r⟩ (t.paramsOf r) body = .ok cs) (hvalues : Frame.ValuesTyped ⟨t, r⟩ body)
    (hfit : Frame.LoopedFit ⟨t, r⟩ body) :
    Cpp.WideBlock (Frame.IsInt ⟨t, r⟩) (Frame.declarations ⟨t, r⟩) cs ↔
      Frame.KeepsWide ⟨t, r⟩ (Stmt.evaluatedNodes r body) ∧
        Frame.DeclaresWide ⟨t, r⟩ body (Cpp.autosOf cs) := by
  obtain ⟨cs, st', hblock, rfl⟩ := Frame.exists_block_of_body hcs
  have hreserved : Frame.WideAs ⟨t, r⟩ body _ [] (Frame.reserved ⟨t, r⟩) :=
    Frame.wideAs_reserved (Frame.allow_declarations _) fun x v hv => varTy_of_mem_hoisted h hw hv
  refine (hreserved.append fun hΓ => ?_).1
  refine (Frame.emits_of_block hblock).wideAs hvalues (countsNumbers_of_infer h hw hfit)
    (List.Subset.refl _) (fun q hq => ?_) hΓ
  exact List.mem_append_left _ (List.mem_map_of_mem hq)

end Program

/-- In a routine of an accepted source whose used values are values that can be built, and whose
loops store what fits, integer variables are declared `long long` and integer arithmetic is computed
in `long long`, exactly if no operator has two narrow integers as operands and no integer variable
is declared by a narrow value that leaves the type to the target. -/
theorem wideBlock_iff_keepsWide {source text : String} (h : compile source = .ok text) :
    ∃ p t u, readSource source = .ok p ∧ p.infer = .ok t ∧ compileUnit source = .ok u ∧
      text = u.text ∧ ∀ w ∈ p.walks,
        Frame.ValuesUsed ⟨t, w.1⟩ w.2 → Frame.ValuesBuild ⟨t, w.1⟩ w.2 →
        Frame.LoopedFit ⟨t, w.1⟩ w.2 → ∃ cs, u.HasBody w.1 cs ∧
          (Cpp.WideBlock (Frame.IsInt ⟨t, w.1⟩) (Frame.declarations ⟨t, w.1⟩) cs ↔
            Frame.KeepsWide ⟨t, w.1⟩ (Stmt.evaluatedNodes w.1 w.2) ∧
              Frame.DeclaresWide ⟨t, w.1⟩ w.2 (Cpp.autosOf cs)) := by
  obtain ⟨p, t, u, hp, ht, hemit, hu, htext⟩ := exists_of_compile h
  refine ⟨p, t, u, hp, ht, hu, htext, fun w hw hused hbuild hfit => ?_⟩
  have hvalues : Frame.ValuesTyped ⟨t, w.1⟩ w.2 := fun s hs => (hused s hs).typed (hbuild s hs)
  obtain ⟨routines, hroutines, hemit⟩ := exists_of_bind_eq_ok hemit
  obtain ⟨entry, hentry, hemit⟩ := exists_of_bind_eq_ok hemit
  cases hemit
  rcases List.mem_append.1 hw with hfunction | hmain
  · obtain ⟨fn, hfn, rfl⟩ := List.mem_map.1 hfunction
    obtain ⟨r, hr, hemit⟩ := exists_of_mem_mapM hroutines hfn
    obtain ⟨hsig, hbody⟩ := Program.emitFunction_ok hemit
    have hne : fn.name ≠ entryName := by
      simpa [Program.routines] using (List.mem_filter.1 hfn).2
    have hparams : r.signature.params = t.paramsOf fn.name := by
      rw [Table.paramsOf, hsig]
      rfl
    rw [hparams] at hbody
    refine ⟨r.body, ?_, Program.wideBlock_body_iff ht hw hbody hvalues hfit⟩
    rw [Cpp.Unit.HasBody, if_neg hne]
    exact ⟨r, hr, Program.name_of_emitFunction hemit, rfl⟩
  · obtain rfl := List.mem_singleton.1 hmain
    obtain ⟨cs, hbody, hentry⟩ := exists_of_bind_eq_ok hentry
    cases hentry
    refine ⟨_, by rw [Cpp.Unit.HasBody, if_pos rfl], ?_⟩
    rw [← Program.paramsOf_entryName ht] at hbody
    have hiff := Program.wideBlock_body_iff ht hw hbody hvalues hfit
    rw [Cpp.wideBlock_append, Cpp.autosOf_append, hiff]
    simp [Cpp.WideBlock, Cpp.Stmt.Wide, Cpp.autosOf, Cpp.Stmt.autos]

namespace NarrowSum

/-- A sum of two literals that does not fit 32 bits. -/
def source : String := "x = 2147483647 + 1\nprint(x)\n"

def program : Program :=
  [.assign "x" (.binary .add (.int 2147483647) (.int 1)), .print [.var "x"]]

def table : Table := ⟨[], .ofList [(entryName, .ofList [("x", ⟨.int, false⟩)])]⟩

def isProgram : Program → Bool
  | [.assign "x" (.binary .add (.int 2147483647) (.int 1)), .print [.var "x"]] => true
  | _ => false

theorem eq_program {p : Program} (hp : readSource source = .ok p) : p = program := by
  have hshape : (readSource source).toOption.map isProgram = some true := by decide +kernel
  obtain ⟨p', hp', hsame⟩ := exists_of_toOption_map hshape
  obtain rfl : p = p' := Except.ok.inj (hp.symm.trans hp')
  unfold isProgram at hsame
  split at hsame
  · rfl
  · cases hsame

theorem eq_table {t : Table} (ht : program.infer = .ok t) : t = table := by
  have hinfer : program.infer.toOption = some table := by decide +kernel
  rw [ht] at hinfer
  exact Option.some.inj hinfer

end NarrowSum

open NarrowSum in
theorem wideBlock_iff_keepsWide_narrowSum :
    ∃ t u, program.infer = .ok t ∧ compileUnit source = .ok u ∧
      Frame.varTy ⟨t, entryName⟩ "x" = .int ∧
      ¬Cpp.WideBlock (Frame.IsInt ⟨t, entryName⟩) (Frame.declarations ⟨t, entryName⟩) u.entry := by
  have hok : (compile source).toBool = true := by decide +kernel
  obtain ⟨text, h⟩ := exists_of_toBool hok
  obtain ⟨p, t, u, hp, ht, hu, -, hall⟩ := wideBlock_iff_keepsWide h
  obtain rfl := eq_program hp
  obtain rfl := eq_table ht
  have hx : Frame.varTy ⟨table, entryName⟩ "x" = .int := by decide +kernel
  have hmem : (entryName, program.entryStatements) ∈ program.walks :=
    List.mem_append_right _ List.mem_cons_self
  have hwithin : Stmt.withinBlock program.entryStatements = program := rfl
  have hvalues : Frame.ValuesUsed ⟨table, entryName⟩ program.entryStatements := by
    rw [Frame.ValuesUsed, hwithin]
    refine List.forall_mem_cons.2 ⟨?_, List.forall_mem_singleton.2 ?_⟩
    · exact List.forall_mem_cons.2 ⟨trivial, List.forall_mem_cons.2
        ⟨trivial, List.forall_mem_singleton.2 trivial⟩⟩
    · refine List.forall_mem_singleton.2 ?_
      rw [Frame.HasValues, hx]
      rfl
  have hbuild : Frame.ValuesBuild ⟨table, entryName⟩ program.entryStatements := by
    rw [Frame.ValuesBuild, hwithin]
    refine List.forall_mem_cons.2 ⟨?_, List.forall_mem_singleton.2 (.cons trivial .nil)⟩
    exact .cons trivial (.cons trivial (.cons trivial .nil))
  have hfit : Frame.LoopedFit ⟨table, entryName⟩ program.entryStatements := by
    intro name iterable block hloop
    rw [hwithin] at hloop
    simp [program] at hloop
  obtain ⟨cs, hbody, hiff⟩ := hall _ hmem hvalues hbuild hfit
  rw [Cpp.Unit.HasBody, if_pos rfl] at hbody
  subst hbody
  refine ⟨table, u, ht, hu, hx, fun hwide => ?_⟩
  have hsum : Expr.binary .add (.int 2147483647) (.int 1) ∈
      Stmt.evaluatedNodes entryName program.entryStatements := List.mem_cons_self
  exact (hiff.1 hwide).1 _ _ _ hsum rfl rfl rfl ⟨rfl, rfl⟩

end Braces
