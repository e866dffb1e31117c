import Braces.Compile
import Braces.Proofs.Emission.Declared
import Braces.Proofs.Inference.Walks
import Braces.Proofs.Scoping

/-!
# Emitted routines are well scoped

`WellScoped` says what block scoping asks of the lines of a routine, for all of its variables and
for the hidden names of its loops. Every routine of an accepted source has it.
-/

namespace Braces

open Cpp (Mark Name Sound spell hiddenName declaredNames routineMarks visible)

namespace Frame

/-- What block scoping asks of an emitted routine. -/
structure WellScoped (f : Frame) (params : List Param) (body : List Cpp.Stmt) : Prop where
  /-- Where a local is used, just one declaration of its name is visible. -/
  in_scope : ∀ x, (f.table.local? f.routine x).isSome → ∀ before name after,
    (routineMarks params body).flatten = before ++ .uses name :: after → name.text = spell x →
    (visible before).count (spell x) = 1
  /-- Where a local is declared, no declaration of its name is visible. -/
  not_again : ∀ x, (f.table.local? f.routine x).isSome → ∀ before name after,
    (routineMarks params body).flatten = before ++ .declares name :: after → name.text = spell x →
    spell x ∉ visible before
  /-- A hoisted local is declared once, with nothing but declarations before it. -/
  hoisted : ∀ x l, f.table.local? f.routine x = some l → l.hoisted = true →
    ((declaredNames (routineMarks params body).flatten).map Name.text).count (spell x) = 1 ∧
      ∃ (earlier : List Name) (after : List Mark), (routineMarks params body).flatten =
        .opens :: earlier.map .declares ++ .declares (.source x) :: after
  /-- The body does not declare a parameter again. -/
  parameters : ∀ p ∈ params,
    spell p.name ∉ (declaredNames (Cpp.blockMarks body).flatten).map Name.text
  /-- No hidden name is declared twice. -/
  hidden_nodup : (((declaredNames (routineMarks params body).flatten).filterMap Name.hidden?).map
    fun h => hiddenName h.1 h.2).Nodup
  /-- No hidden name is how a variable of the routine is spelled. -/
  hidden_apart : ∀ h ∈ (declaredNames (routineMarks params body).flatten).filterMap Name.hidden?,
    ∀ x ∈ f.varNames, hiddenName h.1 h.2 ≠ spell x

end Frame

/-! ## Declarations at the top -/

/-- Declarations of variables, one after another. -/
def declareAll (names : List String) : List Mark := names.map fun n => .declares (.source n)

theorem after_declareAll (names b : List String) (sc : Cpp.Scopes) :
    Cpp.Scopes.after (b :: sc) (declareAll names) = ((names.map spell).reverse ++ b) :: sc := by
  induction names generalizing b with
  | nil => rfl
  | cons n names ih =>
    refine (ih (spell n :: b)).trans ?_
    simp

theorem count_map_spell (x : String) (names : List String) :
    (names.map spell).count (spell x) = names.count x := by
  induction names with
  | nil => simp
  | cons n names ih =>
    rw [List.map_cons, count_spell_cons, ih, List.count_cons, Nat.add_comm]
    simp

theorem sound_declareAll {x : String} {names b : List String} {sc : Cpp.Scopes}
    (h : names.count x + (b :: sc).flatten.count (spell x) ≤ 1) :
    Sound (spell x) (b :: sc) (declareAll names) := by
  induction names generalizing b with
  | nil => trivial
  | cons n names ih =>
    have hcount : (n :: names).count x = names.count x + if n = x then 1 else 0 := by
      simp [List.count_cons]
    refine ⟨fun hn => ?_, @ih (spell n :: b) ?_⟩
    · rw [hcount, if_pos (Cpp.spell_inj hn)] at h
      exact List.count_eq_zero.mp (by omega)
    · rw [List.flatten_cons, List.cons_append, count_spell_cons]
      rw [hcount, List.flatten_cons] at h
      omega

theorem blockMarks_reserved (f : Frame) :
    (Cpp.blockMarks f.reserved).flatten = declareAll ((f.table.hoisted f.routine).map (·.1)) := by
  rw [Frame.reserved, declareAll]
  induction f.table.hoisted f.routine with
  | nil => rfl
  | cons h rest ih => simp [Cpp.blockMarks, Cpp.Stmt.marks, ih]

theorem declaredNames_declareAll (names : List String) :
    declaredNames (declareAll names) = names.map .source := by
  induction names with
  | nil => rfl
  | cons n names ih => exact congrArg (Name.source n :: ·) ih

/-! ## Routines -/

theorem Table.mem_hoisted {t : Table} {r : String} {d : Dict Local} (hd : t.localsOf? r = some d)
    (hnodup : d.keys.Nodup) {x : String} :
    x ∈ (t.hoisted r).map (·.1) ↔ ∃ l, t.local? r x = some l ∧ l.hoisted = true := by
  simp only [Table.hoisted, Table.local?, hd, Option.map_some, Option.getD_some, Option.bind_some,
    Dict.get?_eq_some_iff hnodup, List.mem_map, List.mem_filter, Prod.exists, exists_and_right,
    exists_eq_right]

theorem Table.nodup_hoisted {t : Table} {r : String} {d : Dict Local} (hd : t.localsOf? r = some d)
    (hnodup : d.keys.Nodup) : ((t.hoisted r).map (·.1)).Nodup := by
  rw [Table.hoisted, hd]
  exact hnodup.sublist (List.filter_sublist.map _)

section Routine
variable {f : Frame} {params : List Param} {stmts : List Stmt} {t₀ : Table} {x : String}
  {cs tail : List Cpp.Stmt} {st' : Progress}

/-- The names declared before the first statement. -/
def Frame.top (f : Frame) (params : List Param) : List String :=
  params.map (·.name) ++ (f.table.hoisted f.routine).map (·.1)

theorem routineMarks_eq (f : Frame) (params : List Param) (cs tail : List Cpp.Stmt)
    (htail : (Cpp.blockMarks tail).flatten = []) :
    (routineMarks params (f.reserved ++ cs ++ tail)).flatten =
      .opens :: (declareAll (f.top params) ++ ((Cpp.blockMarks cs).flatten ++ [.closes])) := by
  simp [routineMarks, Cpp.blockMarks_append, blockMarks_reserved, htail, Frame.top, declareAll,
    Function.comp_def]

theorem count_flatten_top (f : Frame) (params : List Param) (x : String) :
    ([((f.top params).map spell).reverse ++ []] : Cpp.Scopes).flatten.count (spell x) =
      (f.top params).count x := by
  simp [List.count_reverse, count_map_spell]

theorem count_top {H : List String} (hH : H.Nodup) (hp : x ∉ params.map (·.name)) :
    (params.map (·.name) ++ H).count x = if x ∈ H then 1 else 0 := by
  rw [List.count_append, List.count_eq_zero.mpr hp, Nat.zero_add]
  exact hH.count

/-- Before the first statement inference and emission agree. -/
theorem agrees_start {H : List String} {ps : List Param} {st : Progress}
    (hst : st.declared = params.map (·.name) ++ H) (hH : H.Nodup)
    (hp : x ∉ params.map (·.name)) :
    Agrees H x (.ofParams ps) st ((params.map (·.name) ++ H).count x) := by
  rw [count_top hH hp]
  by_cases hx : x ∈ H
  · exact .hoisted hx (hst ▸ List.mem_append_right _ hx) (if_pos hx)
  · refine .unbound hx rfl ?_ (if_neg hx)
    rw [hst, List.mem_append]
    exact not_or.mpr ⟨hp, hx⟩

theorem mem_varNames_of_local {l : Local} (hx : f.table.local? f.routine x = some l) :
    x ∈ f.varNames := by
  obtain ⟨d, hd, hl⟩ := Option.bind_eq_some_iff.mp hx
  rw [Frame.varNames, hd]
  exact List.mem_append_left _ (List.mem_map.mpr ⟨_, Dict.mem_of_get? hl, rfl⟩)

/-- A local is no parameter. -/
theorem notMem_params_of_local
    (hlocals : f.table.localsOf? f.routine = some (t₀.walk f.routine stmts).scope.locals)
    (hparams : params.map (·.name) = (t₀.paramsOf f.routine).map (·.name)) {l : Local}
    (hx : f.table.local? f.routine x = some l) : x ∉ params.map (·.name) := by
  obtain ⟨htidy, hleads⟩ := Visit.leads_block f.routine stmts
    ⟨t₀, .ofParams (t₀.paramsOf f.routine)⟩ (Scope.tidy_ofParams _)
  rw [Table.local?, hlocals] at hx
  have hxp := ((Scope.get?_locals htidy.ordered).mp hx).1
  rw [hleads.params] at hxp
  rwa [hparams]

/-- The marks of a routine are sound for each of its locals. -/
theorem sound_routine
    (hlocals : f.table.localsOf? f.routine = some (t₀.walk f.routine stmts).scope.locals)
    (hparams : params.map (·.name) = (t₀.paramsOf f.routine).map (·.name))
    (hb : f.block false (f.start params) stmts = .ok (cs, st'))
    (htail : (Cpp.blockMarks tail).flatten = []) {l : Local}
    (hx : f.table.local? f.routine x = some l) :
    Sound (spell x) [] (routineMarks params (f.reserved ++ cs ++ tail)).flatten := by
  obtain ⟨htidy, hleads⟩ := Visit.leads_block f.routine stmts
    ⟨t₀, .ofParams (t₀.paramsOf f.routine)⟩ (Scope.tidy_ofParams _)
  have hnodup := Scope.nodup_locals htidy.ordered
  have hlocal : (t₀.walk f.routine stmts).scope.locals.get? x = some l := by
    rwa [Table.local?, hlocals] at hx
  obtain ⟨hxp, hty, hh⟩ := (Scope.get?_locals htidy.ordered).mp hlocal
  have hxp₁ := notMem_params_of_local hlocals hparams hx
  have hH := Table.nodup_hoisted hlocals hnodup
  have hsettled : Settled ((f.table.hoisted f.routine).map (·.1)) x
      (t₀.walk f.routine stmts).scope := by
    intro hn
    have hnot : x ∉ (t₀.walk f.routine stmts).scope.hoisted := fun hm =>
      hn ((Table.mem_hoisted hlocals hnodup).mpr ⟨l, hx, hh.trans (decide_eq_true hm)⟩)
    refine ⟨hnot, fun hread => hnot ?_⟩
    obtain ⟨b, hbound⟩ := Option.isSome_iff_exists.mp
      ((htidy.typed x (Option.isSome_of_eq_some hty)).resolve_left hxp)
    exact htidy.reads x b hbound hread
  have hagrees : Agrees _ x (.ofParams (t₀.paramsOf f.routine)) (f.start params)
      ((f.top params).count x) := agrees_start rfl hH hxp₁
  have hle : (f.top params).count x ≤ 1 := by
    rw [Frame.top, count_top hH hxp₁]
    split <;> omega
  rw [routineMarks_eq f params cs tail htail]
  refine ⟨trivial, Cpp.sound_append.mpr ⟨sound_declareAll hle, ?_⟩⟩
  refine Cpp.sound_append.mpr ⟨?_, trivial, trivial⟩
  rw [← count_flatten_top] at hagrees
  rw [Mark.step, after_declareAll]
  exact ((Frame.emits_of_block hb).keeps (mem_varNames_of_local hx) _ _ []
    (Scope.tidy_ofParams _) (hleads.params ▸ hxp) hsettled hagrees).1

theorem declaredNames_routine (htail : (Cpp.blockMarks tail).flatten = []) :
    declaredNames (routineMarks params (f.reserved ++ cs ++ tail)).flatten =
      (f.top params).map .source ++ Frame.declaredIn cs := by
  rw [routineMarks_eq f params cs tail htail]
  simp [declaredNames_declareAll, Frame.declaredIn]

/-- A name that is declared at the top is spelled by no declaration after it. -/
theorem spell_notMem_declaredIn (hd : f.Declares (f.start params) (Frame.declaredIn cs) st')
    (hx : x ∈ f.top params) (hvar : x ∈ f.varNames) :
    spell x ∉ (Frame.declaredIn cs).map Name.text := by
  intro hm
  obtain ⟨n, hn, ht⟩ := List.mem_map.mp hm
  cases n with
  | source y =>
    cases Cpp.spell_inj ht
    exact (hd.keeps x hx).2 hn
  | hidden stem k =>
    have hfree := hd.free (stem, k) (List.mem_filterMap.mpr ⟨_, hn, rfl⟩)
    exact hiddenName_ne_spell hvar hfree ht

theorem wellScoped_routine
    (hlocals : f.table.localsOf? f.routine = some (t₀.walk f.routine stmts).scope.locals)
    (hnames : t₀.names = f.table.names) (hparams : params = f.params)
    (hb : f.block false (f.start params) stmts = .ok (cs, st'))
    (htail : (Cpp.blockMarks tail).flatten = []) :
    f.WellScoped params (f.reserved ++ cs ++ tail) := by
  have htidy := (Visit.leads_block f.routine stmts
    ⟨t₀, .ofParams (t₀.paramsOf f.routine)⟩ (Scope.tidy_ofParams _)).1
  have hnodup := Scope.nodup_locals htidy.ordered
  have hpnames : params.map (·.name) = (t₀.paramsOf f.routine).map (·.name) := by
    rw [hparams, Frame.params, Table.map_name_paramsOf, Table.map_name_paramsOf, hnames]
  have hsound : ∀ x, (f.table.local? f.routine x).isSome →
      Sound (spell x) [] (routineMarks params (f.reserved ++ cs ++ tail)).flatten := by
    intro x hx
    obtain ⟨l, hl⟩ := Option.isSome_iff_exists.mp hx
    exact sound_routine hlocals hpnames hb htail hl
  have hdecl := (Frame.emits_of_block hb).declares
  have hhidden : (declaredNames (routineMarks params (f.reserved ++ cs ++ tail)).flatten).filterMap
      Name.hidden? = (Frame.declaredIn cs).filterMap Name.hidden? := by
    have hsource : ((f.top params).map Name.source).filterMap Name.hidden? = [] := by
      rw [List.filterMap_map]
      exact List.filterMap_eq_nil_iff.mpr fun _ _ => rfl
    rw [declaredNames_routine htail, List.filterMap_append, hsource, List.nil_append]
  refine ⟨?_, ?_, ?_, ?_, ?_, ?_⟩
  · intro x hx before name after heq ht
    exact (heq ▸ hsound x hx).fits ht
  · intro x hx before name after heq ht
    exact (heq ▸ hsound x hx).fits ht
  · intro x l hx hh
    have hH := (Table.mem_hoisted hlocals hnodup).mpr ⟨l, hx, hh⟩
    have htop : x ∈ f.top params := List.mem_append_right _ hH
    constructor
    · have hone : (f.top params).count x = 1 := by
        rw [Frame.top, count_top (Table.nodup_hoisted hlocals hnodup)
          (notMem_params_of_local hlocals hpnames hx), if_pos hH]
      have hspell : ((f.top params).map Name.source).map Name.text = (f.top params).map spell := by
        rw [List.map_map]
        rfl
      rw [declaredNames_routine htail, List.map_append, hspell, List.count_append, count_map_spell,
        hone, List.count_eq_zero.mpr
          (spell_notMem_declaredIn hdecl htop (mem_varNames_of_local hx))]
    · obtain ⟨pre, post, hsplit⟩ := List.append_of_mem htop
      refine ⟨pre.map .source, declareAll post ++ ((Cpp.blockMarks cs).flatten ++ [.closes]), ?_⟩
      rw [routineMarks_eq f params cs tail htail, hsplit]
      simp [declareAll]
  · intro p hp hm
    have hbody : declaredNames (Cpp.blockMarks (f.reserved ++ cs ++ tail)).flatten =
        ((f.table.hoisted f.routine).map (·.1)).map .source ++ Frame.declaredIn cs := by
      simp [Cpp.blockMarks_append, blockMarks_reserved, declaredNames_declareAll, htail,
        Frame.declaredIn]
    rw [hbody, List.map_append, List.mem_append] at hm
    have hpname : p.name ∈ params.map (·.name) := List.mem_map.mpr ⟨p, hp, rfl⟩
    rcases hm with hm | hm
    · obtain ⟨_, hmem, ht⟩ := List.mem_map.mp hm
      obtain ⟨y, hy, rfl⟩ := List.mem_map.mp hmem
      obtain ⟨l, hl, -⟩ := (Table.mem_hoisted hlocals hnodup).mp (Cpp.spell_inj ht ▸ hy)
      exact notMem_params_of_local hlocals hpnames hl hpname
    · refine spell_notMem_declaredIn hdecl (List.mem_append_left _ hpname) ?_ hm
      exact List.mem_append_right _ (hparams ▸ hpname)
  · rw [hhidden]
    refine List.pairwise_map.mpr (hdecl.nodup.imp ?_)
    intro a b hne heq
    obtain ⟨h₁, h₂⟩ := Cpp.hiddenName_inj heq
    exact hne (Prod.ext h₁ h₂)
  · rw [hhidden]
    intro h hm x hx
    exact hiddenName_ne_spell hx (hdecl.free h hm)

end Routine

/-! ## Accepted sources -/

theorem exists_of_compile {source text : String} (h : compile source = .ok text) :
    ∃ p t u, readSource source = .ok p ∧ p.infer = .ok t ∧ p.emit t = .ok u ∧
      compileUnit source = .ok u ∧ text = u.text := by
  rw [compile] at h
  cases hu : compileUnit source with
  | error e =>
    rw [hu] at h
    cases h
  | ok u =>
    rw [hu] at h
    have htext : u.text = text := Except.ok.inj h
    obtain ⟨p, hp, hu'⟩ := exists_of_bind_eq_ok hu
    obtain ⟨t, ht, hemit⟩ := exists_of_bind_eq_ok (eq_ok_of_mapError hu')
    exact ⟨p, t, u, hp, ht, hemit, rfl, htext.symm⟩

theorem exists_of_mapM_cons {ε α β : Type} {g : α → Except ε β} {a : α} {l : List α}
    {l' : List β} (h : (a :: l).mapM g = .ok l') :
    ∃ b bs, l' = b :: bs ∧ g a = .ok b ∧ l.mapM g = .ok bs := by
  rw [List.mapM_cons] at h
  obtain ⟨b, hb, h⟩ := exists_of_bind_eq_ok h
  obtain ⟨bs, hbs, h⟩ := exists_of_bind_eq_ok h
  cases h
  exact ⟨b, bs, rfl, hb, hbs⟩

theorem Frame.exists_block_of_body {f : Frame} {params : List Param} {stmts : List Stmt}
    {cs : List Cpp.Stmt} (h : f.body params stmts = .ok cs) :
    ∃ cs₀ st', f.block false (f.start params) stmts = .ok (cs₀, st') ∧ cs = f.reserved ++ cs₀ := by
  obtain ⟨⟨cs₀, st'⟩, hb, h⟩ := exists_of_bind_eq_ok h
  cases h
  exact ⟨cs₀, st', hb, rfl⟩

namespace Program

variable {p : Program} {t : Table}

/-- A variable that is declared at the top is a local. -/
theorem local?_of_mem_hoisted (h : p.infer = .ok t) {r : String} {body : List Stmt}
    (hw : (r, body) ∈ p.walks) {x : String} {v : Local} (hv : (x, v) ∈ t.hoisted r) :
    t.local? r x = some v := by
  obtain ⟨pre, post, hsplit⟩ := List.append_of_mem hw
  have hlocals := localsOf?_of_infer h hsplit
  obtain ⟨htidy, -⟩ := Visit.leads_block r body ((p.penultimate.visits pre).start r)
    (Scope.tidy_ofParams _)
  rw [Table.hoisted, hlocals] at hv
  rw [Table.local?, hlocals, Option.bind_some]
  exact (Dict.get?_eq_some_iff (Scope.nodup_locals htidy.ordered)).2 (List.mem_filter.1 hv).1

theorem emitFunction_ok {fn : Function} {r : Cpp.Routine} (h : emitFunction t fn = .ok r) :
    t.signature? fn.name = some r.signature ∧
      Frame.body ⟨t, fn.name⟩ r.signature.params fn.body = .ok r.body := by
  unfold emitFunction at h
  split at h
  · cases h
  · next s hs =>
    obtain ⟨cs, hcs, h⟩ := exists_of_bind_eq_ok h
    cases h
    exact ⟨hs, hcs⟩

theorem name_of_emitFunction {fn : Function} {r : Cpp.Routine} (h : emitFunction t fn = .ok r) :
    r.signature.name = fn.name := by
  simpa using List.find?_some (emitFunction_ok h).1

theorem wellScoped_function (ht : p.infer = .ok t) {fn : Function} (hfn : fn ∈ p.routines)
    {r : Cpp.Routine} (hr : emitFunction t fn = .ok r) :
    Frame.WellScoped ⟨t, r.signature.name⟩ r.signature.params r.body := by
  obtain ⟨hsig, hbody⟩ := emitFunction_ok hr
  have hwalk : (fn.name, fn.body) ∈ p.walks :=
    List.mem_append_left _ (List.mem_map.mpr ⟨fn, hfn, rfl⟩)
  obtain ⟨t₀, hnames, hlocals⟩ := exists_walk_of_infer ht hwalk
  obtain ⟨cs, st', hblock, hcs⟩ := Frame.exists_block_of_body hbody
  have hparams : r.signature.params = Frame.params ⟨t, fn.name⟩ := by
    rw [Frame.params, Table.paramsOf, hsig]
    rfl
  rw [name_of_emitFunction hr, hcs, ← List.append_nil (_ ++ cs)]
  exact wellScoped_routine hlocals hnames hparams hblock rfl

/-- Emitted functions stand in the order of their definitions, and each is well scoped. -/
theorem wellScoped_functions (ht : p.infer = .ok t) {fns : List Function}
    (hfns : ∀ fn ∈ fns, fn ∈ p.routines) {rs : List Cpp.Routine}
    (h : fns.mapM (emitFunction t) = .ok rs) :
    rs.map (·.signature.name) = fns.map (·.name) ∧
      ∀ r ∈ rs, Frame.WellScoped ⟨t, r.signature.name⟩ r.signature.params r.body := by
  induction fns generalizing rs with
  | nil =>
    cases h
    exact ⟨rfl, nofun⟩
  | cons fn fns ih =>
    obtain ⟨r, rs, rfl, hr, hrs⟩ := exists_of_mapM_cons h
    obtain ⟨hnames, hall⟩ := ih (fun fn' hm => hfns fn' (List.mem_cons_of_mem _ hm)) hrs
    refine ⟨?_, List.forall_mem_cons.mpr
      ⟨wellScoped_function ht (hfns fn List.mem_cons_self) hr, hall⟩⟩
    rw [List.map_cons, List.map_cons, hnames, name_of_emitFunction hr]

theorem wellScoped_entry (ht : p.infer = .ok t) {cs : List Cpp.Stmt}
    (hcs : emitEntry t p.entryStatements = .ok cs) : Frame.WellScoped ⟨t, entryName⟩ [] cs := by
  obtain ⟨body, hbody, h⟩ := exists_of_bind_eq_ok hcs
  cases h
  have hwalk : (entryName, p.entryStatements) ∈ p.walks :=
    List.mem_append_right _ List.mem_cons_self
  obtain ⟨t₀, hnames, hlocals⟩ := exists_walk_of_infer ht hwalk
  obtain ⟨cs, st', hblock, rfl⟩ := Frame.exists_block_of_body hbody
  exact wellScoped_routine hlocals hnames (paramsOf_entryName ht).symm hblock rfl

end Program

/-- Two loops side by side over one variable, the second of which counts with a hidden name, and a
variable of the first that is used after it. -/
def siblingLoops : String :=
  "def f(n):\n for i in range(n):\n  k = i\n for i in range(n):\n  n = n - i\n print(k)\nf(3)\n"

end Braces
