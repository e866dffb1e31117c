import Braces.Proofs.Running.Contents

/-!
# Bounds that are evaluated on every pass

An expression that is stable for a block reads no name that the block assigns. After a run of the
block it is made of the same scalars as before and of lists of the same lengths, since no run
changes the length of a list. So it keeps its value as far as its comparisons of lists keep theirs:
these are the only operators that see the elements of a list, and a run may change elements.
-/

namespace Braces

open Attempt Run

variable {S : Type}

/-! ## Parts of stable expressions -/

namespace Expr

variable {names : List String}

theorem operands_mem_parts {e left right : Expr} {op : BinOp}
    (h : .binary op left right ∈ e.parts) :
    left ∈ e.parts ∧ right ∈ e.parts :=
  ⟨parts_trans h (List.mem_cons_of_mem _ (List.mem_append_left _ left.mem_parts_self)),
    parts_trans h (List.mem_cons_of_mem _ (List.mem_append_right _ right.mem_parts_self))⟩

theorem isStable_of_mem_parts :
    ∀ {e e' : Expr}, e.isStable names → e' ∈ e.parts → e'.isStable names ∧ e'.vars ⊆ e.vars
  | .int _, e', hstable, hmem | .float _, e', hstable, hmem | .bool _, e', hstable, hmem
  | .var _, e', hstable, hmem => by
    obtain rfl := List.mem_singleton.1 hmem
    exact ⟨hstable, List.Subset.refl _⟩
  | .unary op e, e', hstable, hmem | .len e, e', hstable, hmem => by
    obtain rfl | hmem := List.mem_cons.1 hmem
    · exact ⟨hstable, List.Subset.refl _⟩
    · exact isStable_of_mem_parts (e := e) hstable hmem
  | .binary op l r, e', hstable, hmem => by
    obtain rfl | hmem := List.mem_cons.1 hmem
    · exact ⟨hstable, List.Subset.refl _⟩
    have hboth := Bool.and_eq_true_iff.1 hstable
    obtain hmem | hmem := List.mem_append.1 hmem
    · have hpart := isStable_of_mem_parts hboth.1 hmem
      exact ⟨hpart.1, List.subset_append_of_subset_left _ hpart.2⟩
    · have hpart := isStable_of_mem_parts hboth.2 hmem
      exact ⟨hpart.1, List.subset_append_of_subset_right _ hpart.2⟩
  | .str _, _, hstable, _ | .list _, _, hstable, _ | .index _ _, _, hstable, _
  | .call _ _, _, hstable, _
  | .range _ _ _, _, hstable, _ => by cases hstable

/-- A stable expression reads no name that is assigned, and every name that it reads is a part of
it. -/
theorem of_mem_vars_of_isStable {x : String} :
    ∀ {e : Expr}, e.isStable names → x ∈ e.vars → x ∉ names ∧ Expr.var x ∈ e.parts
  | .var y, hstable, hx => by
    obtain rfl := List.mem_singleton.1 hx
    exact ⟨of_decide_eq_true hstable, List.mem_cons_self⟩
  | .unary op e, hstable, hx | .len e, hstable, hx =>
    (of_mem_vars_of_isStable (e := e) hstable hx).imp_right (List.mem_cons_of_mem _)
  | .binary op l r, hstable, hx => by
    have hboth := Bool.and_eq_true_iff.1 hstable
    obtain hx | hx := List.mem_append.1 hx
    · exact (of_mem_vars_of_isStable hboth.1 hx).imp_right
        fun h => List.mem_cons_of_mem _ (List.mem_append_left _ h)
    · exact (of_mem_vars_of_isStable hboth.2 hx).imp_right
        fun h => List.mem_cons_of_mem _ (List.mem_append_right _ h)
  | .int _, _, hx | .float _, _, hx | .bool _, _, hx => by cases hx
  | .str _, hstable, _ | .list _, hstable, _ | .index _ _, hstable, _ | .call _ _, hstable, _
  | .range _ _ _, hstable, _ => by cases hstable

end Expr

/-! ## Before and after a run -/

/-- What an expression comes to. -/
def Machine.value (M : Machine (Datum S) (List (List S))) (r : Region (Datum S))
    (m : Memory (Datum S) (List (List S))) (e : Expr) : Except Fault (Content S) :=
  ((M.eval r e).on m).1.bind fun v => orRaised (v.content? ((M.eval r e).on m).2.heap)

theorem Shows.value_eq {M : Machine (Datum S) (List (List S))} {r : Region (Datum S)}
    {m : Memory (Datum S) (List (List S))} {e : Expr} {d : Except Fault (Content S)}
    (h : Shows m ((M.eval r e).on m) d) : M.value r m e = d := by
  have hvalue := h.value
  rw [Machine.value]
  generalize (M.eval r e).on m = o at hvalue
  obtain ⟨result, m₁⟩ := o
  cases result with
  | error f =>
    cases d with
    | error f' =>
      cases hvalue
      rfl
    | ok c => cases hvalue
  | ok v =>
    cases d with
    | error f => cases hvalue
    | ok c =>
      change orRaised (v.content? m₁.heap) = .ok c
      rw [Except.ok.inj hvalue]
      rfl

namespace Region

variable (r : Region (Datum S)) (m : Memory (Datum S) (List (List S)))

/-- What the variables stand for. -/
def contents (x : String) : Option (Content S) := (r.lookup m.vars x).bind (Datum.content? m.heap)

/-- A variable does not refer to a list that is missing. -/
def Sound (x : String) : Prop := ∀ v, r.lookup m.vars x = some v → (v.content? m.heap).isSome

variable {r m}

theorem Sound.knows {x : String} (h : r.Sound m x) : r.Knows m (r.contents m) x := by
  rw [Knows, contents]
  cases hv : r.lookup m.vars x with
  | none => rfl
  | some v =>
    obtain ⟨c, hc⟩ := Option.isSome_iff_exists.1 (h v hv)
    rw [Option.bind_some, hc, Option.map_some, hc]
    rfl

/-- A variable that is not rebound stands for the same scalar, or for a list of the same length. -/
theorem Sound.kept {m₁ : Memory (Datum S) (List (List S))} {names : List String} {x : String}
    (h : r.Sound m x) (hkept : m.Kept lengths names m₁) (hx : x ∉ names) (A : Arithmetic S) :
    r.Sound m₁ x ∧
      Alike (A.denote (r.contents m) (.var x)) (A.denote (r.contents m₁) (.var x)) := by
  have hlookup := hkept.lookup r hx
  rw [Sound, Arithmetic.denote, Arithmetic.denote, contents, contents, hlookup]
  cases hv : r.lookup m.vars x with
  | none => exact ⟨fun v hv' => (Option.some_ne_none v hv'.symm).elim, .refl _⟩
  | some v =>
    obtain ⟨c, hc⟩ := Option.isSome_iff_exists.1 (h v hv)
    have hafter : ∃ d, v.content? m₁.heap = some d ∧ c.Like d := by
      cases v with
      | scalar s =>
        cases hc
        exact ⟨.scalar s, rfl, .scalar s⟩
      | list place =>
        obtain ⟨xs, hxs, rfl⟩ := Option.map_eq_some_iff.1 hc
        obtain ⟨ys, hys, hlen⟩ := hkept.heap place xs hxs
        exact ⟨.list ys, congrArg (Option.map Content.list) hys, .list hlen.symm⟩
    obtain ⟨d, hd, hlike⟩ := hafter
    rw [Option.bind_some, Option.bind_some, hc, hd]
    refine ⟨fun w hw => ?_, .value hlike⟩
    cases hw
    exact Option.isSome_of_eq_some hd

end Region

/-- The values of an expression before and after a run are what it stands for in both memories. -/
theorem Arithmetic.value_eq (A : Arithmetic S) {n : Nat} {r : Region (Datum S)}
    {m : Memory (Datum S) (List (List S))} {e : Expr} {names : List String}
    (hstable : e.isStable names) (hsound : ∀ x ∈ e.vars, r.Sound m x) :
    (machine A.runtime n).value r m e = A.denote (r.contents m) e :=
  (A.shows_eval e hstable m fun x hx => (hsound x hx).knows).value_eq

/-- However a block runs and ends, it rebinds only names that it assigns. An expression that is
stable for the block, with all its parts, then comes to the same scalars and to lists of the same
lengths as before, exactly if those of its comparisons that compare two lists come to the same; and
it comes to the same elements too, exactly if the lists that its variables hold have the same
elements as before. -/
theorem stable_iff_comparisons_stable {A : Arithmetic S} {n : Nat} {r : Region (Datum S)}
    {b : List Stmt} {m after : Memory (Datum S) (List (List S))}
    {result : Except Fault (Flow (Datum S))}
    {e : Expr} (hstable : e.isStable (Stmt.assignedIn b)) (hsound : ∀ x ∈ e.vars, r.Sound m x)
    (hrun : ((machine A.runtime n).block r b).on m = (result, after)) :
    (∀ x, x ∉ Stmt.assignedIn b → r.lookup after.vars x = r.lookup m.vars x) ∧
    ((∀ e' ∈ e.parts,
        Alike ((machine A.runtime n).value r m e') ((machine A.runtime n).value r after e')) ↔
      ∀ op left right xs ys, Expr.binary op left right ∈ e.parts → op.isComparison →
        (machine A.runtime n).value r m left = .ok (.list xs) →
        (machine A.runtime n).value r m right = .ok (.list ys) →
        (machine A.runtime n).value r m (.binary op left right) =
          (machine A.runtime n).value r after (.binary op left right)) ∧
    ((∀ e' ∈ e.parts, (machine A.runtime n).value r m e' = (machine A.runtime n).value r after e') ↔
      ∀ x ∈ e.vars, ∀ xs, (machine A.runtime n).value r m (.var x) = .ok (.list xs) →
        (machine A.runtime n).value r after (.var x) = .ok (.list xs)) := by
  have hkept : m.Kept lengths (Stmt.assignedIn b) after := by
    have htouches := (A.grows.contained n).block r b m
    rwa [hrun] at htouches
  have hvar : ∀ x ∈ e.vars, r.Sound after x ∧
      Alike (A.denote (r.contents m) (.var x)) (A.denote (r.contents after) (.var x)) := by
    intro x hx
    exact (hsound x hx).kept hkept (Expr.of_mem_vars_of_isStable hstable hx).1 A
  have hvalue : ∀ e' ∈ e.parts,
      (machine A.runtime n).value r m e' = A.denote (r.contents m) e' ∧
      (machine A.runtime n).value r after e' = A.denote (r.contents after) e' := by
    intro e' he'
    obtain ⟨hstable', hvars⟩ := Expr.isStable_of_mem_parts hstable he'
    exact ⟨A.value_eq hstable' fun x hx => hsound x (hvars hx),
      A.value_eq hstable' fun x hx => (hvar x (hvars hx)).1⟩
  refine ⟨fun x hx => hkept.lookup r hx, ⟨?_, ?_⟩, ?_, ?_⟩
  · intro halike op left right xs ys hmem hop hl hr
    obtain ⟨hleft, hright⟩ := Expr.operands_mem_parts hmem
    have hlike := halike _ hmem
    obtain ⟨xs', hl'⟩ := (hl ▸ halike _ hleft).exists_list
    obtain ⟨ys', hr'⟩ := (hr ▸ halike _ hright).exists_list
    rw [(hvalue _ hleft).1] at hl
    rw [(hvalue _ hright).1] at hr
    rw [(hvalue _ hleft).2] at hl'
    rw [(hvalue _ hright).2] at hr'
    rw [(hvalue _ hmem).1, (hvalue _ hmem).2, Arithmetic.denote_comparison hop hl hr,
      Arithmetic.denote_comparison hop hl' hr'] at hlike ⊢
    rw [hlike.eq_of_scalar]
  · intro hcompare e' he'
    obtain ⟨-, hvars⟩ := Expr.isStable_of_mem_parts hstable he'
    rw [(hvalue e' he').1, (hvalue e' he').2]
    refine A.alike_denote e' (fun x hx => (hvar x (hvars hx)).2) ?_
    intro op left right xs ys hmem hop hl hr
    have hmem' := Expr.parts_trans he' hmem
    obtain ⟨hleft, hright⟩ := Expr.operands_mem_parts hmem'
    have hsame := hcompare op left right xs ys hmem' hop ((hvalue _ hleft).1.trans hl)
      ((hvalue _ hright).1.trans hr)
    rw [(hvalue _ hmem').1, (hvalue _ hmem').2] at hsame
    rw [hsame]
    exact .refl _
  · intro hsame x hx xs hxs
    rw [← hsame _ (Expr.of_mem_vars_of_isStable hstable hx).2, hxs]
  · intro helements e' he'
    obtain ⟨-, hvars⟩ := Expr.isStable_of_mem_parts hstable he'
    rw [(hvalue e' he').1, (hvalue e' he').2]
    refine A.denote_congr e' fun x hx => ?_
    have hpart := (Expr.of_mem_vars_of_isStable hstable (hvars hx)).2
    have hlists := helements x (hvars hx)
    rw [(hvalue _ hpart).1, (hvalue _ hpart).2] at hlists
    exact (hvar x (hvars hx)).2.eq_of_list hlists

/-- The number that a scalar counts as. -/
def Scalar.number? : Scalar → Option Int
  | .int n => some n
  | .bool b => some (if b then 1 else 0)
  | _ => Option.none

/-- Numbers that are added and compared, and lists of them. -/
def Scalar.arithmetic : Arithmetic Scalar where
  int := .int
  float _ := .none
  str := .str
  bool := .bool
  none := .none
  truth v := scalars.truth v ()
  text v := scalars.text v ()
  binary op v w :=
    match op with
    | .equal => some (.bool (v = w))
    | .add => v.number?.bind fun a => w.number?.map fun b => .int (a + b)
    | _ => Option.none
  signed _ _ := Option.none
  length _ := Option.none
  element _ _ := Option.none
  walked _ _ := Option.none
  range _ _ _ := Option.none
  count v := v.number?.map Int.toNat
  place v _ := v.number?.map Int.toNat
  compare op xs ys := if op = .equal then some (.bool (xs = ys)) else Option.none
  listText xs := ", ".intercalate (xs.map (scalars.text · ()))
  truth_bool _ := rfl
  equal_str a b := by simp

/-- Two variables that hold lists of the same elements. -/
def twins : Memory (Datum Scalar) (List (List Scalar)) where
  vars x := if x = "a" then some (.list 0) else if x = "b" then some (.list 1) else none
  functions _ := none
  heap := [[.int 1], [.int 1]]
  printed := []

/-- The bound `(a == b) + 1` of a loop that stores to `a[0]` is stable, but a pass changes it from
two to one, since it changes what the comparison of the lists comes to. -/
theorem stable_bound_changes :
    let bound : Expr := .binary .add (.binary .equal (.var "a") (.var "b")) (.int 1)
    let body : List Stmt := [.assignAt (.var "a") (.int 0) (.int 2)]
    let M := machine Scalar.arithmetic.runtime 1
    ∃ after, bound.isStable (Stmt.assignedIn body) ∧
      (∀ x ∈ bound.vars, Region.module.Sound twins x) ∧
      (M.block .module body).on twins = (.ok .next, after) ∧
      M.value .module twins bound = .ok (.scalar (.int 2)) ∧
      M.value .module after bound = .ok (.scalar (.int 1)) ∧
      ¬ ∀ op left right xs ys, Expr.binary op left right ∈ bound.parts → op.isComparison →
        M.value .module twins left = .ok (.list xs) → M.value .module twins right = .ok (.list ys) →
        M.value .module twins (.binary op left right) =
          M.value .module after (.binary op left right) := by
  intro bound body M
  have hsound : ∀ x ∈ bound.vars, Region.module.Sound twins x := by
    intro x hx v hv
    obtain rfl | rfl := List.mem_pair.1 hx
    · cases hv
      rfl
    · cases hv
      rfl
  have hrun : (M.block .module body).on twins =
      (.ok .next, ((M.block .module body).on twins).2) := rfl
  have hbefore : M.value .module twins bound = .ok (.scalar (.int 2)) := rfl
  have hafter : M.value .module ((M.block .module body).on twins).2 bound =
      .ok (.scalar (.int 1)) := rfl
  refine ⟨_, rfl, hsound, hrun, hbefore, hafter, fun hcompare => ?_⟩
  have hiff := (stable_iff_comparisons_stable (e := bound) rfl hsound hrun).2.1
  have halike := hiff.2 hcompare bound bound.mem_parts_self
  rw [hbefore, hafter] at halike
  cases halike with
  | value hlike => cases hlike

end Braces
