import Braces.Proofs.Inference.Climbing
import Braces.Proofs.Inference.Turns
import Braces.Proofs.Usage.Deeds

/-!
# The marks of parameters

Marking goes over all parameters again and again, each seeing the marks set before it, until a pass
sets none. A pass that sets none has seen one and the same set of marks all along, so every
parameter is then marked as its usage under these marks calls for.
-/

namespace Braces

/-- The two marks that are passed on from callees to callers. -/
def Param.marks (p : Param) : Bool × Bool := (decide (p.ty = .list), p.mutated)

namespace Table

/-- What a table says of the parameters of its functions. -/
def view {β : Type} (κ : Param → β) (t : Table) : List (String × List β) :=
  t.functions.map fun s => (s.name, s.params.map κ)

variable {β : Type} {κ : Param → β} {t t' : Table}

theorem view_modify {name : String} {g : Signature → Signature}
    (h : ∀ s, (g s).name = s.name ∧ (g s).params.map κ = s.params.map κ) :
    (t.modify name g).view κ = t.view κ := by
  simp only [view, modify, List.map_map]
  refine List.map_congr_left fun s _ => ?_
  simp only [Function.comp_apply]
  split
  · rw [(h s).1, (h s).2]
  · rfl

theorem map_modify_eq_modify_map {α β : Type} {f : α → β} {g : α → α} {g' : β → β}
    (h : ∀ a, f (g a) = g' (f a)) (l : List α) (index : Nat) :
    (l.modify index g).map f = (l.map f).modify index g' := by
  apply List.ext_getElem?
  intro i
  simp only [List.getElem?_map, List.getElem?_modify]
  cases l[i]? with
  | none => rfl
  | some a =>
    simp only [Option.map_eq_map, Option.map_some]
    split
    · rw [h]
    · rfl

/-- A change of one parameter, as the view shows it. -/
theorem view_modifyParam {name : String} {index : Nat} {g : Param → Param} {g' : β → β}
    (h : ∀ p, κ (g p) = g' (κ p)) :
    (t.modifyParam name index g).view κ =
      (t.view κ).map fun s => if s.1 = name then (s.1, s.2.modify index g') else s := by
  simp only [view, modifyParam, modify, List.map_map]
  refine List.map_congr_left fun s _ => ?_
  simp only [Function.comp_apply]
  split
  · rw [map_modify_eq_modify_map h]
  · rfl

theorem map_getElem?_paramsOf (t : Table) (function : String) (index : Nat) :
    (t.paramsOf function)[index]?.map κ =
      ((t.view κ).find? (·.1 = function)).bind (·.2[index]?) := by
  have hfind : (t.view κ).find? (·.1 = function) =
      (t.signature? function).map fun s => (s.name, s.params.map κ) := by
    rw [view, List.find?_map]
    rfl
  rw [hfind, getElem?_paramsOf]
  cases t.signature? function with
  | none => rfl
  | some s => simp

/-- Tables with one view have parameters that look the same. -/
theorem exists_param_of_view_eq (h : t.view κ = t'.view κ) {function : String} {index : Nat}
    {q : Param} (hq : (t.paramsOf function)[index]? = some q) :
    ∃ q', (t'.paramsOf function)[index]? = some q' ∧ κ q' = κ q := by
  have hmap := @map_getElem?_paramsOf β κ t function index
  rw [h, ← map_getElem?_paramsOf, hq] at hmap
  cases hq' : (t'.paramsOf function)[index]? with
  | none => simp [hq'] at hmap
  | some q' => exact ⟨q', rfl, by simpa [hq'] using hmap.symm⟩

theorem Refined.view (h : Refined t t') (hκ : ∀ p ty, κ { p with ty := ty } = κ p) :
    t'.view κ = t.view κ := by
  induction h with
  | refl => rfl
  | param _ ih =>
    rw [← ih]
    exact view_modify fun s => ⟨rfl, (map_modify_eq_modify_map (fun p => hκ p _) _ _).trans
      (List.modify_id _ _)⟩
  | result _ ih =>
    rw [← ih]
    exact view_modify fun _ => ⟨rfl, rfl⟩

/-! ## Levels -/

/-- How many marks are set. -/
def markLevel (ms : List (String × List (Bool × Bool))) : Nat :=
  (ms.map fun s => (s.2.map fun m => m.1.toNat + m.2.toNat).sum).sum

theorem raises_marks (a b : Bool) :
    Raises (fun m : Bool × Bool => m.1.toNat + m.2.toNat) fun m => (m.1 || a, m.2 || b) := by
  rintro ⟨l, m⟩
  revert a b l m
  decide

/-- A table has the marks of another and perhaps more. -/
def MoreMarks (t t' : Table) : Prop :=
  markLevel (t.view Param.marks) ≤ markLevel (t'.view Param.marks) ∧
    (markLevel (t'.view Param.marks) = markLevel (t.view Param.marks) →
      t'.view Param.marks = t.view Param.marks)

theorem MoreMarks.trans {t'' : Table} (h : MoreMarks t t') (h' : MoreMarks t' t'') :
    MoreMarks t t'' := by
  obtain ⟨hle, hkeep⟩ := h
  obtain ⟨hle', hkeep'⟩ := h'
  refine ⟨Nat.le_trans hle hle', fun heq => ?_⟩
  rw [hkeep' (by omega), hkeep (by omega)]

/-- If no mark was set in the end, none was on the way. -/
theorem MoreMarks.between {t'' : Table} (h : MoreMarks t t') (h' : MoreMarks t' t'')
    (heq : t''.view Param.marks = t.view Param.marks) : t'.view Param.marks = t.view Param.marks :=
  h.2 (Nat.le_antisymm (heq ▸ h'.1) h.1)

theorem moreMarks_markParam (t : Table) (function : String) (index : Nat) (u : Usage) :
    MoreMarks t (t.markParam function index u) := by
  have hmarks : (t.markParam function index u).view Param.marks =
      (t.view Param.marks).map fun s =>
        if s.1 = function then
          (s.1, s.2.modify index fun m => (m.1 || u.asSequence, m.2 || u.mutated))
        else s := by
    refine view_modifyParam fun p => ?_
    cases u.asSequence <;> simp [Param.marks]
  have hraises := (raises_marks u.asSequence u.mutated).modify index
  rw [MoreMarks, hmarks]
  refine Raises.map (fun s => ?_) (t.view Param.marks)
  split
  · obtain ⟨hle, hkeep⟩ := hraises s.2
    exact ⟨hle, fun heq => Prod.ext rfl (hkeep heq)⟩
  · exact ⟨Nat.le_refl _, fun _ => rfl⟩

theorem unmarked_add_markLevel (t : Table) :
    t.unmarked + markLevel (t.view Param.marks) = 2 * (t.functions.flatMap (·.params)).length := by
  have hparams : ∀ ps : List Param, ps.countP (·.ty ≠ .list) + ps.countP (!·.mutated) +
      ((ps.map Param.marks).map fun m => m.1.toNat + m.2.toNat).sum = 2 * ps.length := by
    intro ps
    induction ps with
    | nil => rfl
    | cons p ps ih =>
      by_cases hty : p.ty = .list <;> cases hm : p.mutated <;>
        simp [Param.marks, hty, hm] at ih ⊢ <;> omega
  have hlevel : markLevel (t.view Param.marks) =
      (((t.functions.flatMap (·.params)).map Param.marks).map
        fun m => m.1.toNat + m.2.toNat).sum := by
    rw [markLevel, view]
    induction t.functions with
    | nil => rfl
    | cons s sigs ih =>
      rw [List.map_cons, List.map_cons, List.sum_cons, ih, List.flatMap_cons, List.map_append,
        List.map_append, List.sum_append]
  rw [unmarked, hlevel]
  exact hparams _

/-! ## Passes -/

/-- The parameters of some functions, each with its function and position. -/
def places (fs : List Function) : List (Function × String × Nat) :=
  fs.flatMap fun f => f.params.zipIdx.map fun x => (f, x)

/-- Sets the marks of one parameter. -/
def markPlace (t : Table) (pl : Function × String × Nat) : Table :=
  t.markParam pl.1.name pl.2.2 (Stmt.blockUsage t pl.2.1 pl.1.body)

theorem mem_places {fs : List Function} {f : Function} {x : String} {i : Nat} :
    (f, x, i) ∈ places fs ↔ f ∈ fs ∧ f.params[i]? = some x := by
  simp only [places, List.mem_flatMap, List.mem_map, Prod.mk.injEq, List.mem_zipIdx_iff_getElem?]
  constructor
  · rintro ⟨g, hg, ⟨y, j⟩, hy, rfl, rfl, rfl⟩
    exact ⟨hg, hy⟩
  · rintro ⟨hf, hx⟩
    exact ⟨f, hf, (x, i), hx, rfl, rfl⟩

theorem markAll_eq_foldl (fs : List Function) (t : Table) :
    t.markAll fs = (places fs).foldl markPlace t := by
  rw [markAll, places, List.foldl_flatMap]
  congr 1
  funext t f
  rw [markFunction, List.foldl_map]
  rfl

theorem moreMarks_foldl (pls : List (Function × String × Nat)) (t : Table) :
    MoreMarks t (pls.foldl markPlace t) := by
  induction pls generalizing t with
  | nil => exact ⟨Nat.le_refl _, fun _ => rfl⟩
  | cons pl pls ih => exact (moreMarks_markParam t _ _ _).trans (ih _)

/-- A pass that sets no mark leaves all of them as they were. -/
theorem view_markAll_of_not_lt {fs : List Function}
    (h : ¬(t.markAll fs).unmarked < t.unmarked) :
    (t.markAll fs).view Param.marks = t.view Param.marks := by
  have hmore := moreMarks_foldl (places fs) t
  have hlen : ((t.markAll fs).functions.flatMap (·.params)).length =
      (t.functions.flatMap (·.params)).length := by
    have hcount : ∀ t : Table, (t.functions.flatMap (·.params)).length =
        (t.names.map fun s => s.2.length).sum := by
      intro t
      simp [names, List.length_flatMap, Function.comp_def]
    rw [hcount, hcount, names_markAll]
  have hbefore := t.unmarked_add_markLevel
  have hafter := (t.markAll fs).unmarked_add_markLevel
  rw [← markAll_eq_foldl] at hmore
  exact hmore.2 (by have := hmore.1; omega)

/-! ## What a pass leaves -/

end Table

namespace Usage

/-- A parameter has all the marks that a usage calls for. -/
structure MarkedIn (u : Usage) (q : Param) : Prop where
  asSequence : u.asSequence = true → q.ty = .list
  mutated : u.mutated = true → q.mutated = true
  reassigned : u.reassigned = true → q.reassigned = true

/-- Sets the marks that a usage calls for. -/
def mark (u : Usage) (q : Param) : Param :=
  { q with
    ty := if u.asSequence then .list else q.ty
    mutated := q.mutated || u.mutated
    reassigned := q.reassigned || u.reassigned }

theorem markedIn_mark (u : Usage) (q : Param) : u.MarkedIn (u.mark q) := by
  constructor <;> intro h <;> simp [mark, h]

theorem MarkedIn.mark {u : Usage} {q : Param} (h : u.MarkedIn q) (u' : Usage) :
    u.MarkedIn (u'.mark q) := by
  constructor
  · intro hu
    simp [Usage.mark, h.asSequence hu]
  · intro hu
    simp [Usage.mark, h.mutated hu]
  · intro hu
    simp [Usage.mark, h.reassigned hu]

end Usage

namespace Table

variable {t t' : Table} {fs : List Function}

/-- What marking one parameter does to any parameter. -/
theorem exists_of_markParam {function f : String} {index i : Nat} {u : Usage} {q' : Param}
    (h : ((t.markParam function index u).paramsOf f)[i]? = some q') :
    ∃ q, (t.paramsOf f)[i]? = some q ∧
      q' = if function = f ∧ index = i then u.mark q else q := by
  rw [markParam, getElem?_paramsOf_modifyParam] at h
  obtain ⟨q, hq, rfl⟩ := Option.map_eq_some_iff.1 h
  exact ⟨q, hq, rfl⟩

theorem markedIn_foldl (pls : List (Function × String × Nat)) {f : String} {i : Nat} {u : Usage}
    (ht : ∀ q, (t.paramsOf f)[i]? = some q → u.MarkedIn q) {q : Param}
    (hq : ((pls.foldl markPlace t).paramsOf f)[i]? = some q) : u.MarkedIn q := by
  induction pls generalizing t with
  | nil => exact ht q hq
  | cons pl pls ih =>
    refine ih (fun q' hq' => ?_) hq
    obtain ⟨q, hq, rfl⟩ := exists_of_markParam hq'
    split
    · exact (ht q hq).mark _
    · exact ht q hq

/-- What a usage calls for depends on the marks alone. -/
theorem MarkedIn.congr (h : t.view Param.marks = t'.view Param.marks) {x : String}
    {body : List Stmt} {q : Param} (hq : (Stmt.blockUsage t x body).MarkedIn q) :
    (Stmt.blockUsage t' x body).MarkedIn q := by
  constructor
  · rw [asSequence_blockUsage_iff]
    rintro (huse | ⟨callee, j, r, hpass, hr, hlist⟩)
    · exact hq.asSequence (asSequence_blockUsage_iff.2 (.inl huse))
    · obtain ⟨r', hr', heq⟩ := exists_param_of_view_eq h.symm hr
      simp only [Param.marks, Prod.mk.injEq, hlist, decide_true, decide_eq_true_eq] at heq
      exact hq.asSequence (asSequence_blockUsage_iff.2 (.inr ⟨callee, j, r', hpass, hr', heq.1⟩))
  · rw [mutated_blockUsage_iff]
    rintro (huse | ⟨callee, j, r, hpass, hr, hlist, hmut⟩)
    · exact hq.mutated (mutated_blockUsage_iff.2 (.inl huse))
    · obtain ⟨r', hr', heq⟩ := exists_param_of_view_eq h.symm hr
      simp only [Param.marks, Prod.mk.injEq, hlist, hmut, decide_true, decide_eq_true_eq] at heq
      exact hq.mutated
        (mutated_blockUsage_iff.2 (.inr ⟨callee, j, r', hpass, hr', heq.1, heq.2⟩))
  · rw [reassigned_blockUsage_iff]
    exact fun huse => hq.reassigned (reassigned_blockUsage_iff.2 huse)

/-- Every parameter has the marks that its usage calls for. -/
def Closed (fs : List Function) (t : Table) : Prop :=
  ∀ f ∈ fs, ∀ (i : Nat) (x : String) (q : Param), f.params[i]? = some x →
    (t.paramsOf f.name)[i]? = some q → (Stmt.blockUsage t x f.body).MarkedIn q

/-- Each parameter is marked under the marks of its turn, and these are the marks of the end. -/
theorem markedIn_of_view_eq (pls : List (Function × String × Nat))
    (h : (pls.foldl markPlace t).view Param.marks = t.view Param.marks) {f : Function}
    {x : String} {i : Nat} (hmem : (f, x, i) ∈ pls) {q : Param}
    (hq : ((pls.foldl markPlace t).paramsOf f.name)[i]? = some q) :
    (Stmt.blockUsage (pls.foldl markPlace t) x f.body).MarkedIn q := by
  induction pls generalizing t with
  | nil => cases hmem
  | cons pl pls ih =>
    have hstep : (t.markPlace pl).view Param.marks = t.view Param.marks :=
      (moreMarks_markParam t _ _ _).between (moreMarks_foldl pls _) h
    rcases List.mem_cons.1 hmem with rfl | hmem
    · refine MarkedIn.congr h.symm (markedIn_foldl pls (fun q' hq' => ?_) hq)
      obtain ⟨q, -, rfl⟩ := exists_of_markParam hq'
      rw [if_pos ⟨rfl, rfl⟩]
      exact Usage.markedIn_mark _ q
    · exact ih (h.trans hstep.symm) hmem hq

/-- Marking ends after a pass that sets no mark, and there is one among the first `unmarked + 1`. -/
theorem markUsage_eq_iterate (fs : List Function) (t : Table) :
    ∃ n ≤ t.unmarked, t.markUsage fs = (markAll fs)^[n + 1] t ∧
      ((markAll fs)^[n + 1] t).view Param.marks = ((markAll fs)^[n] t).view Param.marks := by
  fun_induction markUsage fs t with
  | case1 t marked hlt ih =>
    obtain ⟨n, hn, heq, hview⟩ := ih
    exact ⟨n + 1, by omega, heq, hview⟩
  | case2 t marked hlt => exact ⟨0, Nat.zero_le _, rfl, view_markAll_of_not_lt hlt⟩

theorem closed_markUsage (fs : List Function) (t : Table) : Closed fs (t.markUsage fs) := by
  obtain ⟨n, -, heq, hview⟩ := markUsage_eq_iterate fs t
  rw [Function.iterate_succ_apply', markAll_eq_foldl] at heq hview
  rw [heq]
  intro f hf i x q hx hq
  exact markedIn_of_view_eq _ hview (mem_places.2 ⟨hf, hx⟩) hq

end Table

end Braces
