import Mathlib.Algebra.GroupWithZero.Nat
import Braces.Proofs.Inference.Steps
import Braces.Proofs.Inference.Walks

/-!
# Signatures climb

A type that is joined into a slot leaves it as it is or raises it, and no slot can be raised more
than three times. So the heights of all slots together tell how far inference has come: a walk never
lowers them, and one that keeps them keeps the signatures. What a walk makes of a routine depends on
the signatures alone, so a round that keeps them all leaves nothing for the next round to change.
-/

namespace Braces

namespace Ty

/-- How often a slot was raised at least, to hold this type. -/
def height : Ty → Nat
  | unknown => 0
  | bool => 1
  | int => 2
  | float | void | str | list => 3

theorem height_le (a : Ty) : a.height ≤ 3 := by cases a <;> decide

theorem height_join (a b : Ty) :
    a.height ≤ (a.join b).height ∧ ((a.join b).height = a.height → a.join b = a) := by
  cases a <;> cases b <;> decide

end Ty

section
variable {α : Type} {height : α → Nat} {raise : α → α}

/-- A change raises a value or keeps it, as its height tells. -/
def Raises (height : α → Nat) (raise : α → α) : Prop :=
  ∀ a, height a ≤ height (raise a) ∧ (height (raise a) = height a → raise a = a)

theorem Raises.map (h : Raises height raise) :
    Raises (fun l => (l.map height).sum) (List.map raise) := by
  intro l
  induction l with
  | nil => exact ⟨Nat.le_refl _, fun _ => rfl⟩
  | cons a l ih =>
    obtain ⟨ha, hkeep⟩ := h a
    obtain ⟨hl, hkeeps⟩ := ih
    simp only [List.map_cons, List.sum_cons] at hl hkeeps ⊢
    refine ⟨by omega, fun heq => ?_⟩
    rw [hkeep (by omega), hkeeps (by omega)]

theorem Raises.modify (h : Raises height raise) (index : Nat) :
    Raises (fun l => (l.map height).sum) (List.modify · index raise) := by
  intro l
  induction l generalizing index with
  | nil => cases index <;> exact ⟨Nat.le_refl _, fun _ => rfl⟩
  | cons a l ih =>
    cases index with
    | zero =>
      obtain ⟨ha, hkeep⟩ := h a
      simp only [List.modify_zero_cons, List.map_cons, List.sum_cons]
      refine ⟨by omega, fun heq => ?_⟩
      rw [hkeep (by omega)]
    | succ index =>
      obtain ⟨hl, hkeeps⟩ := ih index
      simp only [List.modify_succ_cons, List.map_cons, List.sum_cons] at hl hkeeps ⊢
      refine ⟨by omega, fun heq => ?_⟩
      rw [hkeeps (by omega)]

end

namespace Signature

def height (s : Signature) : Nat := (s.params.map (·.ty.height)).sum + s.result.height

/-- How many types a signature holds. -/
def slots (s : Signature) : Nat := s.params.length + 1

theorem height_le (s : Signature) : s.height ≤ 3 * s.slots := by
  have hparams : (s.params.map (·.ty.height)).sum ≤ 3 * s.params.length := by
    induction s.params with
    | nil => exact Nat.le_refl _
    | cons p ps ih =>
      have := p.ty.height_le
      simp only [List.map_cons, List.sum_cons, List.length_cons]
      omega
  have := s.result.height_le
  simp only [height, slots]
  omega

end Signature

namespace Table

variable {t t' t'' : Table}

def height (t : Table) : Nat := (t.functions.map (·.height)).sum

def slots (t : Table) : Nat := (t.functions.map (·.slots)).sum

theorem height_le (t : Table) : t.height ≤ 3 * t.slots := by
  rw [height, slots]
  induction t.functions with
  | nil => exact Nat.le_refl _
  | cons s sigs ih =>
    have := s.height_le
    simp only [List.map_cons, List.sum_cons]
    omega

/-- The signatures of a table are kept or raised. -/
def Climbs (t t' : Table) : Prop :=
  t.height ≤ t'.height ∧ (t'.height = t.height → t'.functions = t.functions)

theorem Climbs.refl (t : Table) : Climbs t t := ⟨Nat.le_refl _, fun _ => rfl⟩

theorem Climbs.trans (h : Climbs t t') (h' : Climbs t' t'') : Climbs t t'' := by
  obtain ⟨hle, hkeep⟩ := h
  obtain ⟨hle', hkeep'⟩ := h'
  refine ⟨Nat.le_trans hle hle', fun heq => ?_⟩
  rw [hkeep' (by omega), hkeep (by omega)]

/-- If the end of a climb has the signatures of its start, so has every table on the way. -/
theorem Climbs.between (h : Climbs t t') (h' : Climbs t' t'')
    (heq : t''.functions = t.functions) : t'.functions = t.functions := by
  have hheight : t''.height = t.height := by rw [height, heq, height]
  exact h.2 (Nat.le_antisymm (hheight ▸ h'.1) h.1)

theorem Climbs.lt (h : Climbs t t') (hne : t'.functions ≠ t.functions) : t.height < t'.height :=
  Nat.lt_of_le_of_ne h.1 fun heq => hne (h.2 heq.symm)

theorem climbs_modify {name : String} {g : Signature → Signature}
    (h : Raises Signature.height g) : Climbs t (t.modify name g) := by
  have hname : Raises Signature.height (fun s => if s.name = name then g s else s) := by
    intro s
    dsimp only
    split
    · exact h s
    · exact ⟨Nat.le_refl _, fun _ => rfl⟩
  exact hname.map t.functions

theorem climbs_refineParam (name : String) (index : Nat) (ty : Ty) :
    Climbs t (t.refineParam name index ty).1 := by
  have hparam : Raises (fun p : Param => p.ty.height) fun p => { p with ty := p.ty.join ty } := by
    intro p
    obtain ⟨hle, hkeep⟩ := p.ty.height_join ty
    exact ⟨hle, fun heq => congrArg (fun ty => { p with ty }) (hkeep heq)⟩
  refine climbs_modify fun s => ?_
  obtain ⟨hle, hkeep⟩ := hparam.modify index s.params
  refine ⟨Nat.add_le_add_right hle _, fun heq => ?_⟩
  exact congrArg (fun params => { s with params }) (hkeep (Nat.add_right_cancel heq))

theorem climbs_refineResult (name : String) (ty : Ty) :
    Climbs t (t.refineResult name ty).1 := by
  refine climbs_modify fun s => ?_
  have hresult : s.result.height ≤ (if s.result = .void then .void else s.result.join ty).height ∧
      ((if s.result = .void then .void else s.result.join ty).height = s.result.height →
        (if s.result = .void then .void else s.result.join ty) = s.result) := by
    split
    · next hvoid =>
      rw [hvoid]
      exact ⟨Nat.le_refl _, fun _ => rfl⟩
    · exact s.result.height_join ty
  refine ⟨Nat.add_le_add_left hresult.1 _, fun heq => ?_⟩
  exact congrArg (fun result => { s with result }) (hresult.2 (Nat.add_left_cancel heq))

theorem Refined.climbs (h : Refined t t') : Climbs t t' := by
  induction h with
  | refl => exact .refl t
  | param _ ih => exact ih.trans (climbs_refineParam _ _ _)
  | result _ ih => exact ih.trans (climbs_refineResult _ _)

theorem climbs_visit (t : Table) (routine : String) (body : List Stmt) :
    Climbs t (t.visit routine body) :=
  (Visit.refined_block routine body (t.start routine)).climbs

theorem climbs_visits (t : Table) (ws : List (String × List Stmt)) : Climbs t (t.visits ws) := by
  induction ws generalizing t with
  | nil => exact .refl t
  | cons w ws ih => exact (climbs_visit t w.1 w.2).trans (ih _)

theorem climbs_round (fs : List Function) (entry : List Stmt) (t : Table) :
    Climbs t (t.round fs entry) := by
  rw [round_eq_visits]
  exact climbs_visits t _

/-! ## Walks read signatures only -/

/-- A table with other locals. -/
def withLocals (t : Table) (locals : Dict (Dict Local)) : Table := { t with locals }

theorem typeOf_withLocals (t : Table) (locals : Dict (Dict Local)) (lookup : String → Ty) :
    ∀ e : Expr, (t.withLocals locals).typeOf lookup e = t.typeOf lookup e
  | .int _ | .float _ | .str _ | .bool _ | .var _ | .len _ | .list _ | .range _ _ _
  | .call _ _ => by simp only [typeOf] <;> rfl
  | .index target _ => by rw [typeOf, typeOf, typeOf_withLocals t locals lookup target]
  | .binary op l r => by
    rw [typeOf, typeOf, typeOf_withLocals t locals lookup l, typeOf_withLocals t locals lookup r]
  | .unary op e => by rw [typeOf, typeOf, typeOf_withLocals t locals lookup e]

end Table

namespace Visit

def withLocals (v : Visit) (locals : Dict (Dict Local)) : Visit :=
  { v with table := v.table.withLocals locals }

theorem typeOf_withLocals (v : Visit) (locals : Dict (Dict Local)) (e : Expr) :
    (v.withLocals locals).typeOf e = v.typeOf e :=
  v.table.typeOf_withLocals locals v.scope.lookup e

theorem step_withLocals (v : Visit) (locals : Dict (Dict Local)) (st : Step) :
    (v.withLocals locals).step st = (v.step st).withLocals locals := by
  cases st with
  | touch | enter | exit => rfl
  | bind name origin =>
    have hty : origin.ty (v.withLocals locals).typeOf = origin.ty v.typeOf := by
      cases origin <;> simp only [Origin.ty, typeOf_withLocals]
    rw [step, step, hty]
    rfl
  | pass function index arg =>
    rw [step, step, typeOf_withLocals]
    rfl
  | give function value =>
    rw [step, step, typeOf_withLocals]
    rfl

theorem run_withLocals (steps : List Step) (v : Visit) (locals : Dict (Dict Local)) :
    (v.withLocals locals).run steps = (v.run steps).withLocals locals := by
  induction steps generalizing v with
  | nil => rfl
  | cons st steps ih => rw [run_cons, run_cons, step_withLocals, ih]

end Visit

namespace Table

variable {t t' : Table}

theorem walk_withLocals (t : Table) (locals : Dict (Dict Local)) (routine : String)
    (body : List Stmt) :
    (t.withLocals locals).walk routine body = (t.walk routine body).withLocals locals := by
  have hstart : (t.withLocals locals).start routine = (t.start routine).withLocals locals := rfl
  rw [walk, walk, Visit.block_eq_run, Visit.block_eq_run, hstart, Visit.run_withLocals]

/-- Tables with the same signatures make the same of a routine. -/
theorem scope_walk_congr (h : t'.functions = t.functions) (routine : String) (body : List Stmt) :
    (t'.walk routine body).scope = (t.walk routine body).scope := by
  have heq : t' = t.withLocals t'.locals := by
    cases t'
    cases h
    rfl
  rw [heq, walk_withLocals]
  rfl

theorem functions_visit_congr (h : t'.functions = t.functions) (routine : String)
    (body : List Stmt) :
    (t'.visit routine body).functions = (t.visit routine body).functions := by
  have heq : t' = t.withLocals t'.locals := by
    cases t'
    cases h
    rfl
  show (t'.walk routine body).table.functions = (t.walk routine body).table.functions
  rw [heq, walk_withLocals]
  rfl

theorem ordered_visit (h : t.locals.Ordered) (routine : String) (body : List Stmt) :
    (t.visit routine body).locals.Ordered := by
  have hlocals : (t.walk routine body).table.locals = t.locals :=
    (Visit.refined_block routine body _).locals
  rw [visit_eq]
  show ((t.walk routine body).table.locals.insert routine _).Ordered
  rw [hlocals]
  exact h.insert routine _

theorem ordered_visits (h : t.locals.Ordered) (ws : List (String × List Stmt)) :
    (t.visits ws).locals.Ordered := by
  induction ws generalizing t with
  | nil => exact h
  | cons w ws ih => exact ih (ordered_visit h w.1 w.2)

theorem locals_markUsage (fs : List Function) (t : Table) : (t.markUsage fs).locals = t.locals := by
  have hfunction : ∀ (t : Table) (f : Function), (t.markFunction f).locals = t.locals := by
    intro t f
    rw [markFunction]
    induction f.params.zipIdx generalizing t with
    | nil => rfl
    | cons p ps ih => exact ih _
  have hall : ∀ t : Table, (t.markAll fs).locals = t.locals := by
    intro t
    rw [markAll]
    induction fs generalizing t with
    | nil => rfl
    | cons f fs ih => exact (ih _).trans (hfunction t f)
  fun_induction markUsage fs t with
  | case1 t marked _ ih => exact ih.trans (hall t)
  | case2 t marked _ => exact hall t

/-- A walk that keeps the signatures and finds the locals that are there changes nothing. -/
theorem visit_eq_self (hordered : t.locals.Ordered) {routine : String} {body : List Stmt}
    (hfunctions : (t.visit routine body).functions = t.functions)
    (hlocals : t.localsOf? routine = some (t.walk routine body).scope.locals) :
    t.visit routine body = t := by
  have htable : (t.visit routine body).locals = t.locals := by
    have hkept : (t.walk routine body).table.locals = t.locals :=
      (Visit.refined_block routine body _).locals
    rw [visit_eq]
    show (t.walk routine body).table.locals.insert routine _ = _
    rw [hkept]
    exact hordered.insert_eq_self hlocals
  cases hv : t.visit routine body with
  | mk functions locals =>
    rw [hv] at hfunctions htable
    cases t
    cases hfunctions
    cases htable
    rfl

theorem visits_eq_self (ws : List (String × List Stmt))
    (h : ∀ w ∈ ws, t.visit w.1 w.2 = t) : t.visits ws = t := by
  induction ws with
  | nil => rfl
  | cons w ws ih =>
    show (t.visit w.1 w.2).visits ws = t
    rw [h w List.mem_cons_self]
    exact ih fun w' hw' => h w' (List.mem_cons_of_mem w hw')

/-- Walking once more changes nothing after a pass that kept the signatures. -/
theorem visits_visits {ws : List (String × List Stmt)} (hnodup : (ws.map (·.1)).Nodup)
    (hordered : t.locals.Ordered) (hkept : (t.visits ws).functions = t.functions) :
    (t.visits ws).visits ws = t.visits ws := by
  refine visits_eq_self ws fun w hw => ?_
  obtain ⟨pre, post, hsplit⟩ := List.append_of_mem hw
  have hpost : w.1 ∉ post.map (·.1) := by
    rw [hsplit, List.map_append, List.map_cons, List.nodup_append] at hnodup
    exact (List.nodup_cons.mp hnodup.2.1).1
  have hvisits : t.visits ws = ((t.visits pre).visit w.1 w.2).visits post := by
    rw [hsplit, visits, List.foldl_append]
    rfl
  have hrest : Climbs (t.visits pre) (t.visits ws) := by
    rw [hvisits]
    exact (climbs_visit _ w.1 w.2).trans (climbs_visits _ post)
  -- The signatures were the same all along, so the walk of this routine saw those of the end.
  have hpre : (t.visits pre).functions = t.functions := (climbs_visits t pre).between hrest hkept
  have hsame : (t.visits ws).functions = (t.visits pre).functions := hkept.trans hpre.symm
  have hstep : ((t.visits pre).visit w.1 w.2).functions = (t.visits pre).functions := by
    refine (climbs_visit _ w.1 w.2).between (climbs_visits _ post) ?_
    rw [← hvisits]
    exact hsame
  refine visit_eq_self (ordered_visits hordered ws) ?_ ?_
  · rw [functions_visit_congr hsame, hstep, hsame]
  · rw [scope_walk_congr hsame, hsplit]
    exact localsOf?_visits hpost t

end Table

end Braces
