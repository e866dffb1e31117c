import Braces.Proofs.Balance
import Braces.Proofs.Reordering.Programs
import Braces.Proofs.Splicing.Statements

/-!
# What becomes of definitions

Every function but the entry function is declared once and emitted as a routine of its own, with the
parameters of its definition. The body of the entry function is put among the statements of the
module. Names are compared only where a signature is declared, so two things go unnoticed: a second
definition of the entry function, which is dropped, and a parameter that is named twice, which is
declared twice.
-/

namespace Braces

namespace Program

variable {p : Program} {t : Table} {u : Cpp.Unit}

/-! ## Definitions of the entry function -/

/-- The definitions in a program, at any depth. -/
def definitions (p : Program) : List Function := (allStmts p).filterMap function?

/-- The definitions of the entry function. -/
def entries (p : Program) : List Function := p.functions.filter (·.name = entryName)

/-- The definitions that are emitted. -/
def emitted (p : Program) : List Function := p.routines ++ p.entryFunction?.toList

theorem entryFunction?_eq_head? (p : Program) : p.entryFunction? = p.entries.head? :=
  (List.head?_filter ..).symm

theorem perm_functions (p : Program) : (p.routines ++ p.entries).Perm p.functions := by
  have hperm :=
    List.filter_append_perm (fun f : Function => decide (f.name ≠ entryName)) p.functions
  simpa [routines, entries] using hperm

theorem ne_entryName_of_mem_routines {fn : Function} (h : fn ∈ p.routines) :
    fn.name ≠ entryName := by
  simpa using (List.mem_filter.1 h).2

/-- If the other names are distinct, all names are, exactly if the entry function is defined at most
once. -/
theorem nodup_functions_iff (h : (p.routines.map (·.name)).Nodup) :
    (p.functions.map (·.name)).Nodup ↔ p.entries.length ≤ 1 := by
  have hentries : p.entries.map (·.name) = List.replicate p.entries.length entryName := by
    rw [← List.length_map (f := Function.name)]
    refine List.eq_replicate_of_mem fun name hname => ?_
    obtain ⟨fn, hfn, rfl⟩ := List.mem_map.1 hname
    simpa using (List.mem_filter.1 hfn).2
  rw [← (p.perm_functions.map _).nodup_iff, List.map_append, hentries, List.nodup_append]
  constructor
  · rintro ⟨-, hnodup, -⟩
    exact List.nodup_replicate.1 hnodup
  · intro hlength
    refine ⟨h, List.nodup_replicate.2 hlength, ?_⟩
    rintro a ha b hb rfl
    obtain ⟨fn, hfn, rfl⟩ := List.mem_map.1 ha
    exact ne_entryName_of_mem_routines hfn (List.eq_of_mem_replicate hb)

theorem functions_cons (s : Stmt) (rest : List Stmt) :
    functions (s :: rest) = (function? s).toList ++ functions rest := by
  rw [functions, functions]
  cases hs : function? s with
  | none => rw [List.filterMap_cons_none hs]; rfl
  | some fn => rw [List.filterMap_cons_some hs]; rfl

theorem definitions_cons (s : Stmt) (rest : List Stmt) :
    definitions (s :: rest) =
      (function? s).toList ++ (s.inner.filterMap function? ++ definitions rest) := by
  rw [definitions, definitions, allStmts, ← List.filterMap_append]
  exact functions_cons s _

/-- A program that is read defines functions at its top level only. -/
theorem definitions_of_readSource {source : String} (h : readSource source = .ok p) :
    p.definitions = p.functions := by
  have hinner : ∀ s ∈ p, s.inner.filterMap function? = [] := by
    intro s hs
    refine List.filterMap_eq_nil_iff.2 fun s' hs' => ?_
    have hfunction := isFunction_of_mem_inner h hs hs'
    cases s' with
    | funcDef name params body => cases hfunction
    | _ => rfl
  clear h
  induction p with
  | nil => rfl
  | cons s rest ih =>
    rw [List.forall_mem_cons] at hinner
    rw [definitions_cons, hinner.1, ih hinner.2, List.nil_append, functions_cons]

/-- Every definition is emitted exactly if the entry function is defined at most once. -/
theorem emitted_perm_iff (p : Program) : p.emitted.Perm p.functions ↔ p.entries.length ≤ 1 := by
  have hperm : p.emitted.Perm p.functions ↔ p.entries.head?.toList.Perm p.entries := by
    rw [emitted, entryFunction?_eq_head?]
    exact ⟨fun h => (List.perm_append_left_iff _).1 (h.trans p.perm_functions.symm),
      fun h => ((List.perm_append_left_iff _).2 h).trans p.perm_functions⟩
  rw [hperm]
  cases p.entries with
  | nil => simp
  | cons main rest => simp

/-- Whether a statement defines the entry function. -/
def isEntry (s : Stmt) : Bool := (function? s).any (·.name = entryName)

/-- A program without the definitions of the entry function that follow the first one. -/
def singleEntry : Program → Program
  | [] => []
  | s :: rest => if isEntry s then s :: rest.filter (!isEntry ·) else s :: singleEntry rest

theorem entryFunction?_cons_of_isEntry {s : Stmt} (h : isEntry s = true) (rest : List Stmt) :
    entryFunction? (s :: rest) = function? s := by
  rw [entryFunction?, functions_cons]
  cases hs : function? s with
  | none => simp [isEntry, hs] at h
  | some fn => exact List.find?_cons_of_pos (by simpa [isEntry, hs] using h)

theorem entryFunction?_cons_of_not_isEntry {s : Stmt} (h : isEntry s = false) (rest : List Stmt) :
    entryFunction? (s :: rest) = entryFunction? rest := by
  rw [entryFunction?, functions_cons]
  cases hs : function? s with
  | none => rfl
  | some fn => exact List.find?_cons_of_neg (by simpa [isEntry, hs] using h)

theorem routines_cons (s : Stmt) (rest : List Stmt) :
    routines (s :: rest) =
      ((function? s).filter (·.name ≠ entryName)).toList ++ routines rest := by
  rw [routines, functions_cons, List.filter_append, routines]
  cases function? s with
  | none => rfl
  | some fn =>
    rw [Option.toList_some, List.filter_cons, Option.filter_some]
    split <;> rfl

theorem routines_filter (ss : List Stmt) : routines (ss.filter (!isEntry ·)) = routines ss := by
  induction ss with
  | nil => rfl
  | cons s rest ih =>
    rw [List.filter_cons, routines_cons s rest, ← ih]
    split
    · rw [routines_cons]
    · next hentry =>
      have hnone : (function? s).filter (·.name ≠ entryName) = none := by
        cases hs : function? s with
        | none => rfl
        | some fn => simpa [isEntry, hs] using hentry
      rw [hnone]
      rfl

theorem routines_singleEntry (p : Program) : p.singleEntry.routines = p.routines := by
  induction p with
  | nil => rfl
  | cons s rest ih =>
    rw [singleEntry]
    split
    · rw [routines_cons, routines_filter, ← routines_cons]
    · rw [routines_cons, ih, ← routines_cons]

theorem entryFunction?_singleEntry (p : Program) :
    p.singleEntry.entryFunction? = p.entryFunction? := by
  induction p with
  | nil => rfl
  | cons s rest ih =>
    rw [singleEntry]
    split
    · next h => rw [entryFunction?_cons_of_isEntry h, entryFunction?_cons_of_isEntry h]
    · next h =>
      rw [entryFunction?_cons_of_not_isEntry (Bool.eq_false_of_not_eq_true h), ih,
        entryFunction?_cons_of_not_isEntry (Bool.eq_false_of_not_eq_true h)]

theorem filter_singleEntry (p : Program) :
    p.singleEntry.filter (fun s => (function? s).isNone) =
      p.filter fun s => (function? s).isNone := by
  induction p with
  | nil => rfl
  | cons s rest ih =>
    rw [singleEntry]
    split
    · have hfilter : (rest.filter (!isEntry ·)).filter (fun s => (function? s).isNone) =
          rest.filter fun s => (function? s).isNone := by
        rw [List.filter_filter]
        refine List.filter_congr fun s _ => ?_
        cases hs : function? s <;> simp [isEntry, hs]
      simp only [List.filter_cons, hfilter]
    · simp only [List.filter_cons, ih]

theorem entryStatements_singleEntry (p : Program) :
    p.singleEntry.entryStatements = p.entryStatements := by
  rw [entryStatements, entryStatements, entryFunction?_singleEntry, ← splice_filter _ p.singleEntry,
    filter_singleEntry, splice_filter]

end Program

/-- Later definitions of the entry function decide nothing. -/
theorem compileProgram_singleEntry (p : Program) :
    compileProgram p.singleEntry = compileProgram p := by
  simp only [compileProgram, Program.infer, Program.declared, Program.nestedFunction?, Program.emit,
    Program.routines_singleEntry, Program.entryFunction?_singleEntry,
    Program.entryStatements_singleEntry]

/-! ## Where definitions are emitted -/

namespace Program

variable {p : Program} {t : Table} {u : Cpp.Unit}

/-- The statements of the module itself: guards are replaced by what they guard, and definitions
and, where there is an entry function, its calls are left out. -/
def ownStatements (p : Program) : List Stmt :=
  p.unguarded.filter fun s => !s.isFunction && !(p.entryFunction?.isSome && s.isEntryCall)

/-- After the first call, further calls of the entry function are left out. -/
theorem splice_called (body : List Stmt) {ss : List Stmt} (hguard : ∀ s ∈ ss, s.isGuard = false) :
    splice (some body) true ss = (ss.filter fun s => !s.isFunction && !s.isEntryCall, true) := by
  induction ss with
  | nil => rfl
  | cons s ss ih =>
    rw [List.forall_mem_cons] at hguard
    cases hcall : s.isEntryCall with
    | true =>
      obtain rfl := eq_entryCall hcall
      rw [splice_cons]
      exact congrArg (fun r => ([] ++ r.1, r.2)) (ih hguard.2)
    | false =>
      rw [splice_cons, spliceStmt_plain hguard.1 hcall, ih hguard.2]
      cases hfunction : s.isFunction <;> simp [hcall, hfunction]

/-- The body is put in once: where the entry function is first called, or else nowhere yet. -/
theorem splice_uncalled (body : List Stmt) {ss : List Stmt}
    (hguard : ∀ s ∈ ss, s.isGuard = false) :
    ∃ pre post, ss.filter (fun s => !s.isFunction && !s.isEntryCall) = pre ++ post ∧
      (splice (some body) false ss = (pre ++ (body ++ post), true) ∨
        post = [] ∧ splice (some body) false ss = (pre, false)) := by
  induction ss with
  | nil => exact ⟨[], [], rfl, .inr ⟨rfl, rfl⟩⟩
  | cons s ss ih =>
    rw [List.forall_mem_cons] at hguard
    cases hcall : s.isEntryCall with
    | true =>
      obtain rfl := eq_entryCall hcall
      refine ⟨[], ss.filter fun s => !s.isFunction && !s.isEntryCall, rfl, .inl ?_⟩
      rw [splice_cons]
      show (body ++ (splice (some body) true ss).1, (splice (some body) true ss).2) = _
      rw [splice_called body hguard.2]
      rfl
    | false =>
      obtain ⟨pre, post, hsplit, hsplice⟩ := ih hguard.2
      refine ⟨[s].filter (!·.isFunction) ++ pre, post, ?_, ?_⟩
      · rw [List.filter_cons, hsplit, hcall]
        cases hfunction : s.isFunction <;> simp [hfunction]
      · rw [splice_cons, spliceStmt_plain hguard.1 hcall]
        rcases hsplice with hsplice | ⟨hpost, hsplice⟩
        · exact .inl (by rw [hsplice, List.append_assoc])
        · exact .inr ⟨hpost, by rw [hsplice]⟩

/-- The body of the entry function stands once among the statements of the module. -/
theorem entryStatements_of_main {main : Function} (hmain : p.entryFunction? = some main) :
    ∃ pre post, p.ownStatements = pre ++ post ∧ p.entryStatements = pre ++ (main.body ++ post) := by
  have hguard : ∀ s ∈ p.unguarded, s.isGuard = false := fun s => Stmt.isGuard_of_mem_unguardBlock p
  obtain ⟨pre, post, hsplit, hsplice⟩ := splice_uncalled main.body hguard
  rw [unguarded, splice_unguardBlock] at hsplice
  refine ⟨pre, post, ?_, ?_⟩
  · rw [← hsplit, ownStatements, hmain]
    rfl
  · rw [entryStatements, hmain, Option.map_some]
    rcases hsplice with hsplice | ⟨rfl, hsplice⟩
    · rw [hsplice]
      rfl
    · rw [hsplice, List.append_nil]
      rfl

end Program

theorem Frame.exists_of_block_append {f : Frame} {inLoop : Bool} {st st' : Progress}
    {ss ss' : List Stmt} {cs : List Cpp.Stmt} (h : f.block inLoop st (ss ++ ss') = .ok (cs, st')) :
    ∃ cs₁ cs₂ st₁, f.block inLoop st ss = .ok (cs₁, st₁) ∧ f.block inLoop st₁ ss' = .ok (cs₂, st') ∧
      cs = cs₁ ++ cs₂ := by
  induction ss generalizing st cs with
  | nil => exact ⟨[], cs, st, rfl, h, rfl⟩
  | cons s ss ih =>
    rw [List.cons_append, Frame.block] at h
    obtain ⟨⟨here, st₀⟩, hs, h⟩ := exists_of_bind_eq_ok h
    obtain ⟨⟨later, st₂⟩, hlater, h⟩ := exists_of_bind_eq_ok h
    cases h
    obtain ⟨cs₁, cs₂, st₁, hcs₁, hcs₂, rfl⟩ := ih hlater
    refine ⟨here ++ cs₁, cs₂, st₁, ?_, hcs₂, (List.append_assoc ..).symm⟩
    rw [Frame.block, hs]
    show (do let x ← f.block inLoop st₀ ss; pure (here ++ x.1, x.2)) = _
    rw [hcs₁]
    rfl

theorem forall₂_of_mapM {ε α β : Type} {g : α → Except ε β} {l : List α} {l' : List β}
    (h : l.mapM g = .ok l') : List.Forall₂ (fun a b => g a = .ok b) l l' := by
  induction l generalizing l' with
  | nil =>
    cases h
    exact .nil
  | cons a l ih =>
    obtain ⟨b, bs, rfl, hb, hbs⟩ := exists_of_mapM_cons h
    exact .cons hb (ih hbs)

/-- A routine with the name, the parameters and the body of a definition. -/
structure EmittedAs (t : Table) (fn : Function) (r : Cpp.Routine) : Prop where
  name : r.signature.name = fn.name
  params : r.signature.params.map (·.name) = fn.params
  body : Frame.body ⟨t, fn.name⟩ r.signature.params fn.body = .ok r.body

/-- Among some statements of the entry routine stands what the body of a definition becomes. -/
def SplicedInto (t : Table) (own : List Stmt) (fn : Function) (entry : List Cpp.Stmt) : Prop :=
  ∃ pre post, own = pre ++ post ∧ ∃ before body after st₁ st₂ st₃,
    Frame.block ⟨t, entryName⟩ false (Frame.start ⟨t, entryName⟩ []) pre = .ok (before, st₁) ∧
    Frame.block ⟨t, entryName⟩ false st₁ fn.body = .ok (body, st₂) ∧
    Frame.block ⟨t, entryName⟩ false st₂ post = .ok (after, st₃) ∧
    entry = Frame.reserved ⟨t, entryName⟩ ++ (before ++ (body ++ after)) ++ [.ret (some (.int 0))]

namespace Program

variable {p : Program} {t : Table} {u : Cpp.Unit}

/-- A unit that declares and emits the definitions that `emitted` lists, each once and in order. -/
structure EmitsDefinitions (p : Program) (t : Table) (u : Cpp.Unit) : Prop where
  prototypes : u.prototypes = u.routines.map (·.signature)
  routines : List.Forall₂ (EmittedAs t) p.routines u.routines
  entry : ∀ main, p.entryFunction? = some main → SplicedInto t p.ownStatements main u.entry

theorem emittedAs_of_emitFunction (h : p.infer = .ok t) {fn : Function} (hfn : fn ∈ p.routines)
    {r : Cpp.Routine} (hr : emitFunction t fn = .ok r) : EmittedAs t fn r where
  name := name_of_emitFunction hr
  params := by
    rw [← map_name_paramsOf_routine h hfn, Table.paramsOf, (emitFunction_ok hr).1]
    rfl
  body := (emitFunction_ok hr).2

theorem splicedInto_of_emitEntry {main : Function} (hmain : p.entryFunction? = some main)
    {entry : List Cpp.Stmt} (h : emitEntry t p.entryStatements = .ok entry) :
    SplicedInto t p.ownStatements main entry := by
  obtain ⟨cs, hbody, h⟩ := exists_of_bind_eq_ok h
  cases h
  obtain ⟨cs, st₃, hblock, rfl⟩ := Frame.exists_block_of_body hbody
  obtain ⟨pre, post, hown, hentry⟩ := entryStatements_of_main hmain
  rw [hentry] at hblock
  obtain ⟨before, cs, st₁, hbefore, hrest, rfl⟩ := Frame.exists_of_block_append hblock
  obtain ⟨body, after, st₂, hmid, hafter, rfl⟩ := Frame.exists_of_block_append hrest
  exact ⟨pre, post, hown, before, body, after, st₁, st₂, st₃, hbefore, hmid, hafter, rfl⟩

theorem emitsDefinitions_of_emit (h : p.infer = .ok t) (hemit : p.emit t = .ok u) :
    p.EmitsDefinitions t u := by
  obtain ⟨hsignatures, -⟩ := signatures_of_unit h hemit
  obtain ⟨rs, hrs, hemit⟩ := exists_of_bind_eq_ok hemit
  obtain ⟨entry, hentry, hemit⟩ := exists_of_bind_eq_ok hemit
  cases hemit
  refine ⟨hsignatures.symm, ?_, fun main hmain => splicedInto_of_emitEntry hmain hentry⟩
  refine List.forall₂_iff_get.2 ?_
  obtain ⟨hlength, hget⟩ := List.forall₂_iff_get.1 (forall₂_of_mapM hrs)
  exact ⟨hlength, fun i hi hi' => emittedAs_of_emitFunction h (List.get_mem ..) (hget i hi hi')⟩

/-! ## Programs that define everything once -/

/-- No name is defined twice, and no parameter of a definition is named twice. All definitions are
emitted, and no signature declares a parameter twice. -/
structure DefinedOnce (p : Program) (u : Cpp.Unit) : Prop where
  names : (p.functions.map (·.name)).Nodup
  params : ∀ fn ∈ p.definitions, fn.params.Nodup
  emitted : p.emitted.Perm p.definitions
  declared : ∀ s ∈ u.prototypes, (s.params.map (Cpp.spell ·.name)).Nodup

theorem params_of_emittedAs {fns : List Function} {rs : List Cpp.Routine}
    (h : List.Forall₂ (EmittedAs t) fns rs) :
    rs.map (·.signature.params.map (·.name)) = fns.map (·.params) := by
  induction h with
  | nil => rfl
  | cons hfirst _ ih => rw [List.map_cons, List.map_cons, ih, hfirst.params]

/-- A signature declares a parameter twice exactly if a definition names one twice. -/
theorem nodup_declared_iff (h : p.EmitsDefinitions t u) :
    (∀ s ∈ u.prototypes, (s.params.map (Cpp.spell ·.name)).Nodup) ↔
      ∀ fn ∈ p.routines, fn.params.Nodup := by
  have hspelled : ∀ s : Signature,
      (s.params.map (Cpp.spell ·.name)).Nodup ↔ (s.params.map (·.name)).Nodup := by
    intro s
    have hmap : s.params.map (Cpp.spell ·.name) = (s.params.map (·.name)).map Cpp.spell := by
      rw [List.map_map, Function.comp_def]
    rw [hmap, List.nodup_map_iff fun _ _ => Cpp.spell_inj]
  calc (∀ s ∈ u.prototypes, (s.params.map (Cpp.spell ·.name)).Nodup)
      ↔ ∀ names ∈ u.routines.map (·.signature.params.map (·.name)), names.Nodup := by
        simp only [h.prototypes, hspelled, List.forall_mem_map]
    _ ↔ ∀ fn ∈ p.routines, fn.params.Nodup := by
        rw [params_of_emittedAs h.routines, List.forall_mem_map]

theorem definedOnce_of_entries (h : p.EmitsDefinitions t u)
    (hnodup : (p.routines.map (·.name)).Nodup)
    (hdefinitions : p.definitions = p.functions)
    (hmain : p.entryFunction?.any (!·.params.isEmpty) = false)
    (hentries : p.entries.length ≤ 1) (hparams : ∀ fn ∈ p.routines, fn.params.Nodup) :
    p.DefinedOnce u where
  names := (nodup_functions_iff hnodup).2 hentries
  params := by
    intro fn hfn
    rw [hdefinitions, ← ((emitted_perm_iff p).2 hentries).mem_iff] at hfn
    rcases List.mem_append.1 hfn with hfn | hfn
    · exact hparams fn hfn
    · rw [Option.mem_toList] at hfn
      rw [Option.mem_def.1 hfn] at hmain
      have hnil : fn.params = [] := by simpa using hmain
      exact hnil ▸ List.nodup_nil
  emitted := hdefinitions ▸ (emitted_perm_iff p).2 hentries
  declared := (nodup_declared_iff h).2 hparams

end Program

/-- In a program that compiles, functions other than the entry function have distinct names. A unit
that is emitted holds each of them once, and the body of the first definition of the entry function;
later ones decide nothing. So a definition is lost exactly if the entry function has a second one, a
parameter is declared twice exactly if it is named twice, and all is defined once exactly if neither
is the case. -/
theorem definedOnce_iff {source text : String} (h : compile source = .ok text) :
    ∃ p t u, readSource source = .ok p ∧ p.infer = .ok t ∧ p.emit t = .ok u ∧ text = u.text ∧
      (p.routines.map (·.name)).Nodup ∧ p.definitions = p.functions ∧ p.EmitsDefinitions t u ∧
      compileProgram p.singleEntry = .ok u ∧
      (p.emitted.Perm p.definitions ↔ p.entries.length ≤ 1) ∧
      ((∀ s ∈ u.prototypes, (s.params.map (Cpp.spell ·.name)).Nodup) ↔
        ∀ fn ∈ p.routines, fn.params.Nodup) ∧
      (p.DefinedOnce u ↔ p.entries.length ≤ 1 ∧ ∀ fn ∈ p.routines, fn.params.Nodup) := by
  obtain ⟨p, t, u, hread, hinfer, hemit, -, htext⟩ := exists_of_compile h
  obtain ⟨hmain, hnodup, -, -⟩ := Program.infer_eq_ok_iff.1 hinfer
  have hdefinitions := Program.definitions_of_readSource hread
  have hemits := Program.emitsDefinitions_of_emit hinfer hemit
  have hsingle : compileProgram p.singleEntry = .ok u := by
    rw [compileProgram_singleEntry, compileProgram, hinfer]
    exact hemit
  refine ⟨p, t, u, hread, hinfer, hemit, htext, hnodup, hdefinitions, hemits, hsingle,
    hdefinitions ▸ p.emitted_perm_iff, Program.nodup_declared_iff hemits, ?_⟩
  constructor
  · intro honce
    exact ⟨(Program.nodup_functions_iff hnodup).1 honce.names,
      (Program.nodup_declared_iff hemits).1 honce.declared⟩
  · rintro ⟨hentries, hparams⟩
    exact Program.definedOnce_of_entries hemits hnodup hdefinitions hmain hentries hparams

/-- A source that defines its entry function twice, and a function with two parameters of one
name. -/
def repeated : String :=
  "def f(a, a):\n    return a\ndef main():\n    print(f(1, 2))\ndef main(b, b):\n    print(3)\n"

/-- The second entry function is dropped, and both parameters of the other function are declared. -/
theorem definedOnce_iff_repeated :
    ∃ p u text, readSource repeated = .ok p ∧ compile repeated = .ok text ∧ text = u.text ∧
      compileProgram p.singleEntry = .ok u ∧ p.functions.length = 3 ∧
      p.singleEntry.functions.length = 2 ∧
      u.prototypes.map Signature.declaration = ["long long f(long long a, long long a)"] ∧
      ¬p.DefinedOnce u := by
  have hok : (compile repeated).toBool = true := by decide +kernel
  have hfacts : (readSource repeated).toOption.bind (fun p => p.infer.toOption.map fun t =>
      (p.functions.length, p.singleEntry.functions.length, p.entries.length,
        t.functions.map Signature.declaration)) =
      some (3, 2, 2, ["long long f(long long a, long long a)"]) := by decide +kernel
  obtain ⟨text, h⟩ := exists_of_toBool hok
  obtain ⟨p, t, u, hread, hinfer, hemit, htext, -, -, -, hsingle, -, -, hiff⟩ := definedOnce_iff h
  simp only [hread, hinfer, Except.toOption, Option.bind_some, Option.map_some, Option.some.injEq,
    Prod.mk.injEq] at hfacts
  obtain ⟨hfunctions, hkept, hentries, hdeclared⟩ := hfacts
  rw [← (Program.signatures_of_unit hinfer hemit).2] at hdeclared
  refine ⟨p, u, text, hread, h, htext, hsingle, hfunctions, hkept, hdeclared, fun honce => ?_⟩
  have hle := (hiff.1 honce).1
  rw [hentries] at hle
  exact absurd hle (by decide)

end Braces
