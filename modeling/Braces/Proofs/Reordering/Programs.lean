import Braces.Proofs.Reordering.Tables

/-!
# Programs with their functions in another order

The order of definitions decides neither which functions a program has, nor what runs when it
starts, nor whether its definitions are sound. Before the first round of inference it decides no
type either.
-/

namespace Braces

/-- Two programs with the same functions, no two of one name, and the same statements besides. -/
structure Reordered (p p' : Program) : Prop where
  functions : p.functions.Perm p'.functions
  statements : p.filter (fun s => (Program.function? s).isNone) =
    p'.filter fun s => (Program.function? s).isNone
  distinct : (p.functions.map (·.name)).Nodup

namespace Program

/-- Definitions are skipped where the statements of a program are gathered. -/
theorem splice_filter (main? : Option (List Stmt)) (p : Program) (spliced : Bool) :
    splice main? spliced (p.filter fun s => (function? s).isNone) = splice main? spliced p := by
  induction p generalizing spliced with
  | nil => rfl
  | cons s p ih =>
    cases s with
    | funcDef name params body =>
      rw [List.filter_cons_of_neg (by simp [function?]), ih, splice]
      simp [spliceStmt]
    | _ =>
      rw [List.filter_cons_of_pos rfl, splice, splice]
      simp only [ih]

end Program

/-! ## Marks -/

theorem Reaches.of_subset {fs fs' : List Function} (h : fs ⊆ fs') {does : List Stmt → String → Prop}
    {a : Function × Nat} (hreach : Reaches fs does a) : Reaches fs' does a := by
  obtain ⟨b, x, hchain, hx, hdoes⟩ := hreach
  exact ⟨b, x, hchain.lift id fun c d hcd => ⟨h hcd.1, hcd.2⟩, hx, hdoes⟩

namespace Table

variable {t : Table} {fs : List Function}

/-- Of the parameters nothing is known, or that they are lists. -/
def Open (t : Table) : Prop :=
  ∀ (function : String) (i : Nat) (q : Param), (t.paramsOf function)[i]? = some q →
    q.ty = .list ∨ q.ty = .unknown

theorem open_declared (fs : List Function) : Open ⟨fs.map Function.signature, .empty⟩ := by
  intro function i q hq
  rw [getElem?_paramsOf, signature?, List.find?_map] at hq
  obtain ⟨_, hs, hq⟩ := Option.bind_eq_some_iff.1 hq
  obtain ⟨f, -, rfl⟩ := Option.map_eq_some_iff.1 hs
  rw [Function.signature, List.getElem?_map] at hq
  obtain ⟨x, -, rfl⟩ := Option.map_eq_some_iff.1 hq
  exact .inr rfl

theorem Open.markAll (h : Open t) (fs : List Function) : Open (t.markAll fs) := by
  rw [markAll_eq_foldl]
  induction places fs generalizing t with
  | nil => exact h
  | cons pl pls ih =>
    refine ih fun function i q' hq' => ?_
    obtain ⟨q, hq, rfl⟩ := exists_of_markParam hq'
    split
    · simp only [Usage.mark]
      split
      · exact .inl rfl
      · exact h function i q hq
    · exact h function i q hq

theorem Open.markUsage (h : Open t) (fs : List Function) : Open (t.markUsage fs) := by
  fun_induction Table.markUsage fs t with
  | case1 t marked _ ih => exact ih (h.markAll fs)
  | case2 t marked _ => exact h.markAll fs

/-- Marking leaves the results alone. -/
theorem slotTy?_result_markUsage (fs : List Function) (t : Table) (function : String) :
    (t.markUsage fs).slotTy? (.result function) = t.slotTy? (.result function) := by
  have hall : ∀ t : Table,
      (t.markAll fs).slotTy? (.result function) = t.slotTy? (.result function) := by
    intro t
    rw [markAll_eq_foldl]
    induction places fs generalizing t with
    | nil => rfl
    | cons pl pls ih => exact (ih _).trans (result_modifyParam _ _ _ function)
  fun_induction Table.markUsage fs t with
  | case1 t marked _ ih => exact ih.trans (hall t)
  | case2 t marked _ => exact hall t

end Table

namespace Reordered

variable {p p' : Program}

theorem symm (h : Reordered p p') : Reordered p' p where
  functions := h.functions.symm
  statements := h.statements.symm
  distinct := (h.functions.map _).nodup_iff.1 h.distinct

theorem routines (h : Reordered p p') : p.routines.Perm p'.routines := h.functions.filter _

theorem nodup_routines (h : Reordered p p') : (p.routines.map (·.name)).Nodup :=
  h.distinct.sublist (List.filter_sublist.map _)

theorem entryFunction? (h : Reordered p p') : p.entryFunction? = p'.entryFunction? := by
  refine Option.ext fun f => ?_
  rw [Program.entryFunction?, Program.entryFunction?, find?_eq_some_iff_of_nodup h.distinct,
    find?_eq_some_iff_of_nodup h.symm.distinct, h.functions.mem_iff]

theorem entryStatements (h : Reordered p p') : p.entryStatements = p'.entryStatements := by
  rw [Program.entryStatements, Program.entryStatements, h.entryFunction?,
    ← Program.splice_filter _ p, ← Program.splice_filter _ p', h.statements]

theorem mem_walks (h : Reordered p p') {w : String × List Stmt} (hw : w ∈ p.walks) :
    w ∈ p'.walks := by
  rw [Program.walks, Table.walks, ← h.entryStatements, List.mem_append]
  rcases List.mem_append.1 hw with hw | hw
  · exact .inl ((h.routines.map _).mem_iff.1 hw)
  · exact .inr hw

theorem nestedFunction?_eq_none (h : Reordered p p') (hnone : p.nestedFunction? = none) :
    p'.nestedFunction? = none := by
  rw [Program.nestedFunction?, Option.or_eq_none_iff, List.findSome?_eq_none_iff] at hnone ⊢
  exact ⟨fun f hf => hnone.1 f (h.routines.mem_iff.2 hf), h.entryStatements ▸ hnone.2⟩

/-- Whether inference gives a table does not depend on the order. -/
theorem exists_infer (h : Reordered p p') {t : Table} (ht : p.infer = .ok t) :
    ∃ t', p'.infer = .ok t' := by
  obtain ⟨hentry, -, hnested, -⟩ := Program.infer_eq_ok_iff.1 ht
  exact ⟨_, Program.infer_eq_ok_iff.2 ⟨h.entryFunction? ▸ hentry, h.symm.nodup_routines,
    h.nestedFunction?_eq_none hnested, rfl⟩⟩

theorem find?_routines (h : Reordered p p') (name : String) :
    p.routines.find? (·.name = name) = p'.routines.find? (·.name = name) := by
  refine Option.ext fun f => ?_
  rw [find?_eq_some_iff_of_nodup h.nodup_routines, find?_eq_some_iff_of_nodup h.symm.nodup_routines,
    h.routines.mem_iff]

/-- A parameter is marked as a list in one order only if it is in the other. -/
theorem slotTy?_marked (h : Reordered p p') {function : String} {i : Nat} {a : Ty}
    (ha : p.marked.slotTy? (.param function i) = some a) :
    p'.marked.slotTy? (.param function i) = some a := by
  obtain ⟨q, hq, rfl⟩ := Option.map_eq_some_iff.1 ha
  obtain ⟨f, hf, rfl, hx⟩ := Table.Lists.exists_function
    ((Table.names_markUsage p.routines _).trans (Table.lists_declared p.routines)) hq
  obtain ⟨q₁, hq₁, hmarks⟩ := Table.exists_marksOf h.nodup_routines hf hx
  obtain ⟨q', hq', hmarks'⟩ :=
    Table.exists_marksOf h.symm.nodup_routines (h.routines.mem_iff.1 hf) hx
  obtain rfl : q = q₁ := Option.some.inj (hq.symm.trans hq₁)
  have hlist : q.ty = .list ↔ q'.ty = .list := by
    rw [hmarks.list_iff, hmarks'.list_iff]
    exact ⟨.of_subset h.routines.subset, .of_subset h.symm.routines.subset⟩
  have hopen : q.ty = .list ∨ q.ty = .unknown :=
    ((Table.open_declared _).markUsage p.routines) f.name i q hq
  have hopen' : q'.ty = .list ∨ q'.ty = .unknown :=
    ((Table.open_declared _).markUsage p'.routines) f.name i q' hq'
  have hty : q'.ty = q.ty := by
    rcases hopen with hq | hq <;> rcases hopen' with hq' | hq' <;> simp_all
  rw [Table.slotTy?, Program.marked, hq', Option.map_some, hty]

/-- Before the first round both programs have the same parameters and take them for the same. -/
theorem agree_marked (h : Reordered p p') : p.marked.Agree p'.marked := by
  have hsig : ∀ (fs : List Function) (name : String),
      Table.signature? ⟨fs.map Function.signature, .empty⟩ name =
        (fs.find? (·.name = name)).map Function.signature := by
    intro fs name
    rw [Table.signature?, List.find?_map]
    rfl
  refine ⟨fun r => ?_, fun c => ?_⟩
  · have hnames : ∀ p : Program, p.marked.names = p.routines.map fun f => (f.name, f.params) :=
      fun p => p.names_after 0
    rw [Table.map_name_paramsOf, Table.map_name_paramsOf, hnames, hnames, List.find?_map,
      List.find?_map]
    simp only [Function.comp_def, h.find?_routines r]
  · cases c with
    | var => rfl
    | param function i =>
      exact Option.ext fun a => ⟨h.slotTy?_marked, h.symm.slotTy?_marked⟩
    | result function =>
      rw [Program.marked, Program.marked, Table.slotTy?_result_markUsage,
        Table.slotTy?_result_markUsage, Table.slotTy?, Table.slotTy?, hsig, hsig,
        h.find?_routines]

end Reordered

end Braces
