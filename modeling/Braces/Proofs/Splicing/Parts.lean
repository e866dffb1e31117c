import Braces.Proofs.Resolution
import Braces.Proofs.Running.Modules

/-!
# The parts of an entry routine

What the names in a program that is emitted allow: its functions read only their own names, and
nothing calls the entry function from within another statement. From this, and from how the
variables of the module and of the entry function are kept apart, follows what each part of the
entry routine may do.
-/

namespace Braces

/-! ## What a program that is emitted may do -/

namespace Program

variable {p : Program} {t : Table} {u : Cpp.Unit} {routine : String} {params : List String}
  {body : List Stmt}

/-- What a routine evaluates reads only names that it knows, and does not call the entry
function. -/
theorem Resolves.meets (h : p.Resolves routine params body) {s : Stmt}
    (hs : s ∈ Stmt.withinBlock body) {e e' : Expr} (he : e ∈ s.operands) (he' : e' ∈ e.parts)
    (heval : routine ≠ entryName ∨ s.isReturn = false) :
    e'.Meets fun x => x ∈ params ∨ x ∈ Stmt.boundNames body := by
  rcases Stmt.evaluated_cases routine he he' with ⟨e₁, he₁, hpart⟩ | hrange | ⟨hr, rfl⟩
  · have hnode : e' ∈ Stmt.evaluatedNodes routine body :=
      Stmt.mem_evaluatedNodes.2 ⟨s, hs, e₁, he₁, hpart⟩
    cases e' with
    | var x => exact h.reads x hnode
    | call name args =>
      rw [Expr.Meets]
      rcases h.calls name args hnode with ⟨rfl, -⟩ | ⟨fn, hfn, rfl, -⟩
      · decide
      · exact of_decide_eq_true (List.mem_filter.1 hfn).2
    | _ => trivial
  · obtain ⟨name, start, stop, step, block, -, rfl⟩ := hrange
    trivial
  · rcases heval with hne | hreturn
    · exact absurd hr hne
    · cases hreturn

/-- No function is defined within a routine. -/
theorem isFunction_of_emit (hemit : p.emit t = .ok u) (hm : (routine, body) ∈ p.walks) {s : Stmt}
    (hs : s ∈ Stmt.withinBlock body) : s.isFunction = false := by
  obtain ⟨st, cs, st', hblock⟩ := exists_emitsBlock hemit hm
  obtain ⟨inLoop, st₁, cs₁, st₁', hstmt⟩ := hblock.somewhere_of_within s hs
  cases s with
  | funcDef name params body => cases hstmt
  | _ => rfl

/-- The function that a name stands for, once all are defined. -/
def defined (p : Program) (name : String) : Option Function := p.functions.find? (·.name = name)

theorem name_of_defined {name : String} {fn : Function} (h : p.defined name = some fn) :
    fn.name = name := by
  rw [defined] at h
  simpa using List.find?_some h

theorem defined_eq_find? {name : String} (hname : name ≠ entryName) :
    p.defined name = p.routines.find? (·.name = name) := by
  rw [defined, routines, List.find?_filter]
  congr 1
  funext fn
  by_cases heq : fn.name = name
  · simp [heq, hname]
  · simp [heq]

/-- The functions of a program read only their own names. -/
theorem closed_defined (h : p.infer = .ok t) (hemit : p.emit t = .ok u) : Closed p.defined := by
  intro name hname fn hfn s hs
  have hne : fn.name ≠ entryName := (name_of_defined hfn).symm ▸ hname
  have hmem : fn ∈ p.routines :=
    List.mem_filter.2 ⟨List.mem_of_find?_eq_some hfn, decide_eq_true hne⟩
  have hwalk : (fn.name, fn.body) ∈ p.walks :=
    List.mem_append_left _ (List.mem_map.2 ⟨fn, hmem, rfl⟩)
  have hresolves : p.Resolves fn.name fn.params fn.body :=
    map_name_paramsOf_routine h hmem ▸ resolves_of_walk h hemit hwalk
  have hparts : ∀ e ∈ s.operands, ∀ e' ∈ e.parts, e'.Meets (· ∈ fn.own) := fun e he e' he' =>
    (hresolves.meets hs he he' (.inl hne)).mono fun x => Function.mem_own.2
  refine ⟨⟨?_, isFunction_of_emit hemit hwalk hs, fun _ => hparts⟩, ?_⟩
  · intro x hx
    exact Function.mem_own.2 (.inr (Stmt.mem_boundNames hs hx))
  · rintro e rfl
    exact hparts e List.mem_cons_self

/-- The entry statements read only what they bind, and do not call the entry function. -/
theorem meets_entryStatements (h : p.infer = .ok t) (hemit : p.emit t = .ok u) {s : Stmt}
    (hs : s ∈ Stmt.withinBlock p.entryStatements) :
    s.Meets (· ∈ Stmt.boundNames p.entryStatements) (· ∈ Stmt.boundNames p.entryStatements) := by
  have hwalk : (entryName, p.entryStatements) ∈ p.walks :=
    List.mem_append_right _ List.mem_cons_self
  have hresolves : p.Resolves entryName [] p.entryStatements := by
    have hentry := resolves_of_walk h hemit hwalk
    rwa [paramsOf_entryName h] at hentry
  refine ⟨fun x => Stmt.mem_boundNames hs, isFunction_of_emit hemit hwalk hs, ?_⟩
  intro hreturn e he e' he'
  refine (hresolves.meets hs he he' (.inr hreturn)).mono fun x hx => ?_
  exact hx.resolve_left List.not_mem_nil

/-! ## Programs that can be spliced -/

/-- A program whose entry function may be put in the place of its call. -/
structure Spliceable (p : Program) (main : Function) : Prop where
  single : p.functions.countP (·.name = entryName) ≤ 1
  /-- The guards ask for the main module, and nothing assigns the module's name. -/
  guards : ∀ cond ∈ Stmt.guardsOf p, cond.testsMain = true
  unnamed : moduleName ∉ Stmt.boundNames p.entryStatements
  /-- The entry function is called at most once, and not by itself. -/
  once : ∀ s ∈ p.afterEntry, s.isEntryCall = false
  outer : ∀ e ∈ Stmt.nodes main.body, e.isCallOf entryName = false
  /-- A variable that the module has before the call and the entry function binds as well is not
  read after the call. -/
  apart : ∀ x ∈ Stmt.boundNames p.beforeEntry, x ∈ Stmt.boundNames main.body →
    ∀ e ∈ Stmt.nodes p.afterEntry, e.isVar x = false

instance (p : Program) (main : Function) : Decidable (p.Spliceable main) :=
  decidable_of_iff
    (p.functions.countP (·.name = entryName) ≤ 1 ∧
      (∀ cond ∈ Stmt.guardsOf p, cond.testsMain = true) ∧
      moduleName ∉ Stmt.boundNames p.entryStatements ∧
      (∀ s ∈ p.afterEntry, s.isEntryCall = false) ∧
      (∀ e ∈ Stmt.nodes main.body, e.isCallOf entryName = false) ∧
      ∀ x ∈ Stmt.boundNames p.beforeEntry, x ∈ Stmt.boundNames main.body →
        ∀ e ∈ Stmt.nodes p.afterEntry, e.isVar x = false)
    ⟨fun ⟨h₁, h₂, h₃, h₄, h₅, h₆⟩ => ⟨h₁, h₂, h₃, h₄, h₅, h₆⟩,
      fun h => ⟨h.single, h.guards, h.unnamed, h.once, h.outer, h.apart⟩⟩

/-- What the statements after the call of the entry function may read. -/
def VisibleAfter (p : Program) (main : Function) (x : String) : Prop :=
  x ≠ moduleName ∧ (x ∈ Stmt.boundNames p.beforeEntry → x ∉ Stmt.boundNames main.body)

/-- What each part of a program that can be spliced may do. -/
structure Parted (p : Program) (main : Function) : Prop where
  params : main.params = []
  closed : Closed p.defined
  defs : ∀ s ∈ p.started.unguarded, ∀ fn, function? s = some fn → p.defined fn.name = some fn
  once : ∀ s ∈ p.afterEntry, s.isEntryCall = false
  before : ∀ s ∈ Stmt.withinBlock (p.beforeEntry.filter (!·.isFunction)),
    s.Meets (· ≠ moduleName) fun x => x ≠ moduleName ∧ x ∈ Stmt.boundNames p.beforeEntry
  body : ∀ s ∈ Stmt.withinBlock main.body, s.Meets (· ≠ moduleName) (· ∈ main.own)
  whole : main.Meets fun _ => True
  after : ∀ s ∈ Stmt.withinBlock (p.afterEntry.filter (!·.isFunction)),
    s.Meets (p.VisibleAfter main) (· ≠ moduleName)

theorem withinBlock_filter_subset {ss : List Stmt} {f : Stmt → Bool} {s : Stmt}
    (h : s ∈ Stmt.withinBlock (ss.filter f)) : s ∈ Stmt.withinBlock ss := by
  obtain ⟨s₀, hs₀, hs⟩ := Stmt.mem_withinBlock.1 h
  exact Stmt.mem_withinBlock.2 ⟨s₀, List.mem_of_mem_filter hs₀, hs⟩

namespace Parted

variable {main : Function}

theorem defs_before (h : p.Parted main) :
    ∀ fn ∈ p.beforeEntry.filterMap function?, p.defined fn.name = some fn := by
  intro fn hfn
  obtain ⟨s, hs, hs'⟩ := List.mem_filterMap.1 hfn
  exact h.defs s (mem_started_of_mem_beforeEntry hs) fn hs'

theorem defs_after (h : p.Parted main) :
    ∀ fn ∈ p.afterEntry.filterMap function?, p.defined fn.name = some fn := by
  intro fn hfn
  obtain ⟨s, hs, hs'⟩ := List.mem_filterMap.1 hfn
  exact h.defs s (mem_started_of_mem_afterEntry hs) fn hs'

end Parted

namespace Spliceable

variable {main : Function} {source : String}

theorem eq_main (h : p.Spliceable main) (hmain : p.entryFunction? = some main) {fn : Function}
    (hfn : fn ∈ p.functions) (hname : fn.name = entryName) : fn = main := by
  have hcount := h.single
  rw [List.countP_eq_length_filter] at hcount
  have hfn' : fn ∈ p.functions.filter (·.name = entryName) := by simp [hfn, hname]
  have hmain' : main ∈ p.functions.filter (·.name = entryName) := by
    rw [entryFunction?, ← List.head?_filter] at hmain
    exact List.mem_of_mem_head? hmain
  obtain ⟨c, hc⟩ := List.length_eq_one_iff.1 (le_antisymm hcount (List.length_pos_of_mem hfn'))
  rw [hc] at hfn' hmain'
  rw [List.mem_singleton.1 hfn', List.mem_singleton.1 hmain']

theorem defs (h : p.Spliceable main) (hmain : p.entryFunction? = some main)
    (hread : readSource source = .ok p) (hinfer : p.infer = .ok t) {s : Stmt}
    (hs : s ∈ p.started.unguarded) {fn : Function} (hfn : function? s = some fn) :
    p.defined fn.name = some fn := by
  have hfunction : s.isFunction = true := by
    cases s with
    | funcDef name params body => rfl
    | _ => cases hfn
  have hmem : fn ∈ p.functions :=
    List.mem_filterMap.2 ⟨s, mem_of_mem_started hread hs hfunction, hfn⟩
  by_cases hname : fn.name = entryName
  · obtain rfl := h.eq_main hmain hmem hname
    rw [hname]
    exact hmain
  · rw [defined_eq_find? hname, find?_eq_some_iff_of_nodup (infer_eq_ok_iff.1 hinfer).2.1]
    exact ⟨List.mem_filter.2 ⟨hmem, decide_eq_true hname⟩, rfl⟩

/-- The body of the entry function, which is run as a function and as a part of the entry
routine. -/
theorem whole (h : p.Spliceable main)
    (hbody : ∀ s ∈ Stmt.withinBlock main.body, s.isFunction = false) :
    main.Meets fun _ => True := by
  intro s hs
  have hparts : ∀ e ∈ s.operands, ∀ e' ∈ e.parts, e'.Meets fun _ => True := by
    intro e he e' he'
    cases e' with
    | call name args =>
      have hcall := h.outer _ (Stmt.mem_nodes.2 ⟨s, hs, Expr.mem_partsOf.2 ⟨e, he, he'⟩⟩)
      exact of_decide_eq_false hcall
    | _ => trivial
  refine ⟨⟨fun x hx => Function.mem_own.2 (.inr (Stmt.mem_boundNames hs hx)), hbody s hs,
    fun _ => hparts⟩, ?_⟩
  rintro e rfl
  exact hparts e List.mem_cons_self

theorem parted (h : p.Spliceable main) (hmain : p.entryFunction? = some main)
    (hread : readSource source = .ok p) (hinfer : p.infer = .ok t) (hemit : p.emit t = .ok u) :
    p.Parted main := by
  have hentry : ∀ s ∈ Stmt.withinBlock p.entryStatements,
      s.Meets (· ≠ moduleName) (· ≠ moduleName) := by
    intro s hs
    have hnamed : ∀ x ∈ Stmt.boundNames p.entryStatements, x ≠ moduleName := fun x hx heq =>
      h.unnamed (heq ▸ hx)
    exact (meets_entryStatements hinfer hemit hs).mono hnamed hnamed
  rw [entryStatements_eq hmain h.once, Stmt.withinBlock_append, Stmt.withinBlock_append,
    List.forall_mem_append, List.forall_mem_append] at hentry
  obtain ⟨hbefore, hbody, hafter⟩ := hentry
  constructor
  case params =>
    have hparams := (infer_eq_ok_iff.1 hinfer).1
    rw [hmain] at hparams
    simpa using hparams
  case closed => exact closed_defined hinfer hemit
  case defs => exact fun s hs fn hfn => h.defs hmain hread hinfer hs hfn
  case once => exact h.once
  case before =>
    intro s hs
    refine ⟨fun x hx => ⟨(hbefore s hs).binds x hx, ?_⟩, (hbefore s hs).flat, (hbefore s hs).reads⟩
    exact Stmt.mem_boundNames (withinBlock_filter_subset hs) hx
  case body =>
    intro s hs
    refine ⟨fun x hx => ?_, (hbody s hs).flat, (hbody s hs).reads⟩
    exact Function.mem_own.2 (.inr (Stmt.mem_boundNames hs hx))
  case whole => exact h.whole fun s hs => (hbody s hs).flat
  case after =>
    intro s hs
    refine ⟨(hafter s hs).binds, (hafter s hs).flat, fun hreturn e he e' he' => ?_⟩
    have hmeets := (hafter s hs).reads hreturn e he e' he'
    cases e' with
    | var x =>
      have hnode : .var x ∈ Stmt.nodes p.afterEntry :=
        Stmt.mem_nodes.2 ⟨s, withinBlock_filter_subset hs, Expr.mem_partsOf.2 ⟨e, he, he'⟩⟩
      exact ⟨hmeets, fun hx hbound => of_decide_eq_false (h.apart x hx hbound _ hnode) rfl⟩
    | call name args => exact hmeets
    | _ => trivial

end Spliceable

end Program

end Braces
