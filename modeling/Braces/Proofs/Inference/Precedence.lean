import Braces.Proofs.Inference.Climbing
import Braces.Proofs.Inference.Rounds

/-!
# Types that may still become others

While inference knows less, it takes an expression for a type that it may give up later: nothing for
a number, a number for a wider one, any of these for a list, and a list for a text, as an operator
with a text or an index into one shows. The more is known of variables, parameters and results, the
further along this order is every expression. A slot follows, as long as the values that it takes in
mix with what it holds.
-/

namespace Braces

namespace Ty

/-- Where a type stands among those that expressions are taken for. -/
def precedence : Ty → Nat
  | unknown => 0
  | bool => 1
  | int => 2
  | float => 3
  | list => 4
  | str | void => 5

/-- Whether what is taken for the first type may turn out to be of the second. No value is void, so
a void result is never anything else. -/
def mayBecome (a b : Ty) : Bool :=
  a = b || a = unknown || (b ≠ void && a.precedence < b.precedence)

variable {a a' b b' : Ty}

theorem mayBecome_refl (a : Ty) : a.mayBecome a = true := by cases a <;> rfl

theorem unknown_mayBecome (a : Ty) : unknown.mayBecome a = true := by cases a <;> rfl

theorem mayBecome_antisymm (h : a.mayBecome b = true) (h' : b.mayBecome a = true) : a = b := by
  revert h h'
  cases a <;> cases b <;> decide

theorem mayBecome_trans {c : Ty} (h : a.mayBecome b = true) (h' : b.mayBecome c = true) :
    a.mayBecome c = true := by
  revert h h'
  cases a <;> cases b <;> cases c <;> decide

theorem mayBecome_foldl_join (tys : List Ty) (a : Ty) : a.mayBecome (tys.foldl join a) = true := by
  induction tys generalizing a with
  | nil => exact mayBecome_refl a
  | cons b tys ih =>
    have hjoin : a.mayBecome (a.join b) = true := by cases a <;> cases b <;> rfl
    exact mayBecome_trans hjoin (ih _)

theorem arithmetic_mayBecome (ha : a.mayBecome a' = true) (hb : b.mayBecome b' = true) :
    (a.arithmetic b).mayBecome (a'.arithmetic b') = true := by
  cases a <;> cases a' <;> first
    | (cases ha; done)
    | (cases b <;> cases b' <;> first | (cases hb; done) | rfl)

/-- A slot keeps up with another one that takes in only what mixes with it. -/
theorem join_mayBecome (ha : a.mayBecome a' = true) (hb : b.mayBecome b' = true)
    (h : a'.accepts b' = true) : (a.join b).mayBecome (a'.join b') = true := by
  cases a' <;> cases b' <;> first
    | (cases h; done)
    | (cases a <;> first
        | (cases ha; done)
        | (cases b <;> first | (cases hb; done) | rfl))

theorem elementTy_mayBecome (h : a.mayBecome a' = true) :
    (Visit.elementTy a).mayBecome (Visit.elementTy a') = true := by
  revert h
  cases a <;> cases a' <;> decide

theorem sign_mayBecome (h : a.mayBecome a' = true) :
    (if a = bool then int else a).mayBecome (if a' = bool then int else a') = true := by
  revert h
  cases a <;> cases a' <;> decide

end Ty

/-! ## Tables -/

namespace Table

variable {t t' : Table}

/-- What a table takes its parameters and results for may become what another one does. -/
structure Below (t t' : Table) : Prop where
  names : ∀ routine, (t.paramsOf routine).map (·.name) = (t'.paramsOf routine).map (·.name)
  slots : ∀ c a, t.slotTy? c = some a → ∃ b, t'.slotTy? c = some b ∧ a.mayBecome b = true

theorem typeOf_mayBecome {lookup lookup' : String → Ty}
    (hslots : ∀ c a, t.slotTy? c = some a → ∃ b, t'.slotTy? c = some b ∧ a.mayBecome b = true)
    (hlookup : ∀ x, (lookup x).mayBecome (lookup' x) = true) :
    ∀ e : Expr, (t.typeOf lookup e).mayBecome (t'.typeOf lookup' e) = true
  | .int _ | .float _ | .str _ | .bool _ | .len _ | .list _ | .range _ _ _ => by
    simp only [typeOf]
    exact Ty.mayBecome_refl _
  | .var name => hlookup name
  | .index target _ => by
    have h := typeOf_mayBecome hslots hlookup target
    rw [typeOf, typeOf]
    exact Ty.elementTy_mayBecome h
  | .binary op l r => by
    rw [typeOf, typeOf]
    split
    · rfl
    · split
      · rfl
      · exact Ty.arithmetic_mayBecome (typeOf_mayBecome hslots hlookup l)
          (typeOf_mayBecome hslots hlookup r)
  | .unary op e => by
    rw [typeOf, typeOf]
    split
    · rfl
    · exact Ty.sign_mayBecome (typeOf_mayBecome hslots hlookup e)
  | .call name _ => by
    rw [typeOf, typeOf]
    split
    · rfl
    · cases hs : (t.signature? name).map (·.result) with
      | none => exact Ty.unknown_mayBecome _
      | some a =>
        obtain ⟨b, hb, hab⟩ := hslots (.result name) a hs
        rw [slotTy?] at hb
        rw [hb]
        exact hab

end Table

/-! ## Walks -/

theorem Step.routine_of_store? {routine : String} {st : Step} {s : Store}
    (h : st.store? routine = some s) : s.routine = routine := by
  cases st <;> cases h <;> rfl

namespace Turn

/-- The value mixes with what the cell holds by then. -/
def mixes (τ : Turn) : Bool := (τ.visit.cellTy? τ.routine τ.cell).all (·.accepts τ.seen)

end Turn

namespace Visit

variable {routine : String} {v v' : Visit}

/-- What a walk takes its cells for may become what another walk does. -/
def Below (routine : String) (v v' : Visit) : Prop :=
  ∀ c a, v.cellTy? routine c = some a → ∃ b, v'.cellTy? routine c = some b ∧ a.mayBecome b = true

theorem Below.typeOf (h : Below routine v v') (e : Expr) :
    (v.typeOf e).mayBecome (v'.typeOf e) = true := by
  refine Table.typeOf_mayBecome (fun c a hc => ?_) (fun x => ?_) e
  · cases c with
    | var => cases hc
    | param function index => exact h (.param function index) a hc
    | result function => exact h (.result function) a hc
  · obtain ⟨b, hb, hab⟩ := h (.var routine x) _ (if_pos rfl)
    rw [cellTy?, if_pos rfl] at hb
    cases hb
    exact hab

theorem Below.seen (h : Below routine v v') (s : Store) :
    (Turn.seen ⟨s, v⟩).mayBecome (Turn.seen ⟨s, v'⟩) = true := by
  rw [Turn.seen, Turn.seen]
  cases s.origin with
  | value e => exact h.typeOf e
  | elements e => exact Ty.elementTy_mayBecome (h.typeOf e)

/-- A step keeps the order, if what it stores mixes with what the upper walk holds. -/
theorem Below.step (h : Below routine v v') {st : Step}
    (hmixes : ∀ τ ∈ turns routine [st] v', τ.mixes = true) :
    Below routine (v.step st) (v'.step st) := by
  intro c a hc
  rw [cellTy?_step] at hc ⊢
  obtain ⟨old, hold, rfl⟩ := Option.map_eq_some_iff.1 hc
  obtain ⟨old', hold', hle⟩ := h c old hold
  refine ⟨_, by rw [hold']; rfl, ?_⟩
  cases hs : st.store? routine with
  | none => simpa [turns, hs, Turn.typesAt] using hle
  | some s =>
    simp only [turns, hs, Option.map_some, Option.toList_some, List.append_nil,
      Turn.foldl_typesAt_singleton] at hmixes ⊢
    have hroutine := Step.routine_of_store? hs
    split
    · next hcell =>
      have hmix := hmixes _ (List.mem_singleton.2 rfl)
      simp only [Turn.mixes, hroutine, hcell, hold', Option.all_some] at hmix
      exact Ty.join_mayBecome hle (h.seen s) hmix
    · exact hle

theorem Below.run (h : Below routine v v') (steps : List Step)
    (hmixes : ∀ τ ∈ turns routine steps v', τ.mixes = true) :
    Below routine (v.run steps) (v'.run steps) := by
  induction steps generalizing v v' with
  | nil => exact h
  | cons st steps ih =>
    rw [turns_cons] at hmixes
    rw [run_cons, run_cons]
    exact ih (h.step fun τ hτ => hmixes τ (List.mem_append_left _ hτ))
      fun τ hτ => hmixes τ (List.mem_append_right _ hτ)

end Visit

namespace Scope

/-- What a walk starts with follows the parameters. -/
theorem lookup_ofParams_mayBecome {ps ps' : List Param}
    (hnames : ps.map (·.name) = ps'.map (·.name))
    (htypes : ∀ (i : Nat) (a : Ty), ps[i]?.map (·.ty) = some a →
      ∃ b, ps'[i]?.map (·.ty) = some b ∧ a.mayBecome b = true) (x : String) :
    ((ofParams ps).lookup x).mayBecome ((ofParams ps').lookup x) = true := by
  -- The entries go into two dictionaries, one by one.
  suffices hfold : ∀ d d' : Dict Ty,
      ((d.get? x).getD .unknown).mayBecome ((d'.get? x).getD .unknown) = true →
      ((((ps.map fun q => (q.name, q.ty)).foldl (fun d e => d.insert e.1 e.2) d).get? x).getD
        .unknown).mayBecome
      ((((ps'.map fun q => (q.name, q.ty)).foldl (fun d e => d.insert e.1 e.2) d').get? x).getD
        .unknown) = true from hfold .empty .empty rfl
  induction ps generalizing ps' with
  | nil =>
    obtain rfl : ps' = [] := List.map_eq_nil_iff.1 hnames.symm
    exact fun _ _ h => h
  | cons q ps ih =>
    cases ps' with
    | nil => cases hnames
    | cons q' ps' =>
      obtain ⟨hname, hrest⟩ := List.cons.inj hnames
      obtain ⟨b, hb, hty⟩ := htypes 0 q.ty rfl
      cases hb
      intro d d' h
      refine ih hrest (fun i a ha => htypes (i + 1) a ha) _ _ ?_
      simp only [Dict.get?_insert, hname]
      split
      · exact hty
      · exact h

end Scope

namespace Table

variable {t t' : Table}

theorem Below.start (h : t.Below t') (routine : String) :
    Visit.Below routine (t.start routine) (t'.start routine) := by
  intro c a hc
  cases c with
  | param function index => exact h.slots (.param function index) a hc
  | result function => exact h.slots (.result function) a hc
  | var r x =>
    simp only [Visit.cellTy?] at hc ⊢
    split at hc
    · next hr =>
      cases hc
      refine ⟨_, if_pos hr, ?_⟩
      exact Scope.lookup_ofParams_mayBecome (h.names routine)
        (fun i a ha => h.slots (.param routine i) a ha) x
    · cases hc

/-- A walk keeps the order, if all that the upper one stores mixes. -/
theorem Below.visit (h : t.Below t') {routine : String} {body : List Stmt}
    (hmixes : ∀ τ ∈ t'.turnsOf routine body, τ.mixes = true) :
    (t.visit routine body).Below (t'.visit routine body) := by
  have hrun := (h.start routine).run (Stmt.blockSteps routine body) hmixes
  rw [← walk_eq_run, ← walk_eq_run] at hrun
  refine ⟨fun r => ?_, fun c a hc => ?_⟩
  · rw [map_name_paramsOf, map_name_paramsOf, names_visit, names_visit, ← map_name_paramsOf,
      ← map_name_paramsOf]
    exact h.names r
  · cases c with
    | var => cases hc
    | param function index => exact hrun (.param function index) a hc
    | result function => exact hrun (.result function) a hc

/-! ## Rounds -/

theorem Below.trans {t'' : Table} (h : t.Below t') (h' : t'.Below t'') : t.Below t'' := by
  refine ⟨fun r => (h.names r).trans (h'.names r), fun c a hc => ?_⟩
  obtain ⟨b, hb, hab⟩ := h.slots c a hc
  obtain ⟨d, hd, hbd⟩ := h'.slots c b hb
  exact ⟨d, hd, Ty.mayBecome_trans hab hbd⟩

/-- Walks only take slots further. -/
theorem below_visits (t : Table) (ws : List (String × List Stmt)) : t.Below (t.visits ws) := by
  refine ⟨fun r => ?_, fun c a hc => ?_⟩
  · rw [map_name_paramsOf, map_name_paramsOf, names_visits]
  · rw [slotTy?_visits, hc]
    exact ⟨_, rfl, Ty.mayBecome_foldl_join _ a⟩

/-- A table that walks do not change, and in which all that they store mixes with its cell. -/
structure Rests (ws : List (String × List Stmt)) (t : Table) : Prop where
  kept : t.visits ws = t
  mixes : ∀ τ ∈ turns ws t, τ.mixes = true

theorem Below.congr {t'' : Table} (h : t.Below t') (heq : t'.functions = t''.functions) :
    t.Below t'' := by
  have hslot : ∀ c, t''.slotTy? c = t'.slotTy? c := by
    intro c
    cases c with
    | var => rfl
    | _ => simp only [slotTy?, paramsOf, signature?, heq]
  refine ⟨fun r => (h.names r).trans ?_, fun c a hc => ?_⟩
  · simp only [paramsOf, signature?, heq]
  · rw [hslot]
    exact h.slots c a hc

variable {ws : List (String × List Stmt)}

/-- A table that rests has the same signatures all along its walks. -/
theorem Rests.functions_visits (h : t.Rests ws) {pre post : List (String × List Stmt)}
    (hsplit : ws = pre ++ post) : (t.visits pre).functions = t.functions := by
  refine (climbs_visits t pre).between (climbs_visits _ post) ?_
  rw [visits, visits, ← List.foldl_append, ← hsplit]
  exact congrArg functions h.kept

/-- No walk gets beyond a table that rests. -/
theorem Below.visit_of_rests (h : t.Below t') (hrests : t'.Rests ws) {w : String × List Stmt}
    (hw : w ∈ ws) : (t.visit w.1 w.2).Below t' := by
  obtain ⟨pre, post, hsplit⟩ := List.append_of_mem hw
  have hbefore : (t'.visits pre).functions = t'.functions := hrests.functions_visits hsplit
  have hafter : ((t'.visits pre).visit w.1 w.2).functions = t'.functions := by
    have hpost : ws = (pre ++ [w]) ++ post := by
      rw [hsplit, List.append_assoc, List.singleton_append]
    have hfunctions := hrests.functions_visits hpost
    rw [visits, List.foldl_append] at hfunctions
    exact hfunctions
  refine ((h.congr hbefore.symm).visit fun τ hτ => hrests.mixes τ ?_).congr hafter
  rw [hsplit, turns_append, turns]
  exact List.mem_append_right _ (List.mem_append_left _ hτ)

theorem Below.visits_of_rests (h : t.Below t') (hrests : t'.Rests ws)
    {ws' : List (String × List Stmt)} (hws : ws' ⊆ ws) : (t.visits ws').Below t' := by
  induction ws' generalizing t with
  | nil => exact h
  | cons w ws' ih =>
    rw [List.cons_subset] at hws
    exact ih (h.visit_of_rests hrests hws.1) hws.2

end Table

end Braces
