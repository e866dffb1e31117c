import Braces.Proofs.Emission.Variables
import Braces.Proofs.Running.Lists

/-!
# What expressions stand for

The value of an expression of variables, numbers, operators and lengths depends on what its
variables stand for, and not on where their lists lie in the store. Of a list, a sign, a logical
operator, a length, a sum and a repetition see no more than its length; a comparison of two lists
sees their elements.
-/

namespace Braces

open Attempt Run

variable {S : Type}

/-! ## What expressions stand for -/

/-- An operation without a result raises an error. -/
def orRaised {α : Type} : Option α → Except Fault α
  | some a => .ok a
  | none => .error .raised

namespace Arithmetic

variable (A : Arithmetic S)

/-- What a stable expression stands for, given what its variables stand for. -/
def denote (env : String → Option (Content S)) : Expr → Except Fault (Content S)
  | .int n => return .scalar (A.int n)
  | .float x => return .scalar (A.float x)
  | .bool b => return .scalar (A.bool b)
  | .var x =>
    match env x with
    | some c => return c
    | Option.none => throw (.unbound x)
  | .binary op l r => do
    let c ← denote env l
    if op.isLogical then
      if A.truthOf c = decide (op = .or) then return c else denote env r
    else
      let d ← denote env r
      orRaised (A.combine op c d)
  | .unary op e => do
    let c ← denote env e
    if op = .not then return .scalar (A.bool (!A.truthOf c)) else orRaised (A.sign op c)
  | .len e => do
    let c ← denote env e
    orRaised ((A.lengthOf c).map .scalar)
  | _ => throw .raised

end Arithmetic

/-- Running on a memory has kept its variables and lists, and has come to what is meant. -/
structure Shows (m : Memory (Datum S) (List (List S)))
    (o : Except Fault (Datum S) × Memory (Datum S) (List (List S))) (d : Except Fault (Content S)) :
    Prop where
  vars : o.2.vars = m.vars
  heap : m.heap <+: o.2.heap
  value : o.1.map (Datum.content? o.2.heap) = d.map some

namespace Shows

variable {m m₁ : Memory (Datum S) (List (List S))} {d : Except Fault (Content S)}

theorem pure {v : Datum S} {c : Content S} (h : v.content? m.heap = some c) :
    Shows m ((Pure.pure v : Run (Datum S) (List (List S)) (Datum S)).on m) (.ok c) :=
  ⟨rfl, List.prefix_rfl, congrArg Except.ok h⟩

theorem bind {x : Run (Datum S) (List (List S)) (Datum S)}
    {f : Datum S → Run (Datum S) (List (List S)) (Datum S)}
    {g : Content S → Except Fault (Content S)} (hx : Shows m (x.on m) d)
    (hf : ∀ v c m₁, m₁.vars = m.vars → m.heap <+: m₁.heap → v.content? m₁.heap = some c →
      Shows m₁ ((f v).on m₁) (g c)) :
    Shows m ((x >>= f).on m) (d >>= g) := by
  obtain ⟨hvars, hheap, hvalue⟩ := hx
  generalize ho : x.on m = o at hvars hheap hvalue
  obtain ⟨result, m₁⟩ := o
  cases result with
  | error e =>
    cases d with
    | ok c => cases hvalue
    | error e' =>
      cases hvalue
      rw [on_bind_error ho]
      exact ⟨hvars, hheap, rfl⟩
  | ok v =>
    cases d with
    | error e => cases hvalue
    | ok c =>
      rw [on_bind_ok ho]
      have hthen := hf v c m₁ hvars hheap (Except.ok.inj hvalue)
      exact ⟨hthen.vars.trans hvars, hheap.trans hthen.heap, hthen.value⟩

/-- An operation that makes a value of what it is meant to come to. -/
theorem operate {f : List (List S) → Option (Datum S × List (List S))} {o : Option (Content S)}
    (hf : f m.heap = o.map (Content.alloc m.heap)) :
    Shows m ((Run.operate f : Run (Datum S) (List (List S)) (Datum S)).on m) (orRaised o) := by
  cases o with
  | none =>
    rw [on_operate_none hf]
    exact ⟨rfl, List.prefix_rfl, rfl⟩
  | some c =>
    rw [on_operate_some hf]
    exact ⟨rfl, c.isPrefix_alloc m.heap, congrArg Except.ok (c.content?_alloc m.heap)⟩

end Shows

/-- The variables stand for what is given, and none for a list that is missing. -/
def Region.Knows (r : Region (Datum S)) (m : Memory (Datum S) (List (List S)))
    (env : String → Option (Content S)) (x : String) : Prop :=
  (r.lookup m.vars x).map (Datum.content? m.heap) = (env x).map some

theorem Region.Knows.mono {r : Region (Datum S)} {m m₁ : Memory (Datum S) (List (List S))}
    {env : String → Option (Content S)} {x : String} (h : r.Knows m env x)
    (hvars : m₁.vars = m.vars) (hheap : m.heap <+: m₁.heap) : r.Knows m₁ env x := by
  rw [Knows] at h ⊢
  rw [hvars]
  cases hv : r.lookup m.vars x with
  | none => rwa [hv] at h
  | some v =>
    rw [hv] at h
    cases hc : env x with
    | none =>
      rw [hc] at h
      cases h
    | some c =>
      rw [hc] at h
      exact congrArg some (Datum.content?_of_isPrefix hheap (Option.some.inj h))

namespace Arithmetic

variable (A : Arithmetic S)

theorem truth_eq {v : Datum S} {h : List (List S)} {c : Content S} (hc : v.content? h = some c) :
    A.runtime.truth v h = A.truthOf c := by
  change ((v.content? h).map A.truthOf).getD false = A.truthOf c
  rw [hc]
  rfl

/-- A logical operator and a condition look at a value without changing anything. -/
theorem on_isTrue_bind {α : Type} {n : Nat} {m : Memory (Datum S) (List (List S))} {v : Datum S}
    {c : Content S} (hc : v.content? m.heap = some c) (f : Bool → Run (Datum S) (List (List S)) α) :
    ((machine A.runtime n).isTrue v >>= f).on m = (f (A.truthOf c)).on m := by
  rw [← A.truth_eq hc]
  rfl

/-- Reading a variable comes to what it stands for. -/
theorem shows_read {r : Region (Datum S)} {m : Memory (Datum S) (List (List S))}
    {env : String → Option (Content S)} {x : String} (h : r.Knows m env x) :
    Shows m ((Run.read r x).on m) (A.denote env (.var x)) := by
  rw [Region.Knows] at h
  rw [denote]
  cases hv : r.lookup m.vars x with
  | none =>
    rw [hv] at h
    cases hc : env x with
    | none =>
      rw [show (Run.read r x : Run (Datum S) (List (List S)) _).on m = _ from on_read_none hv]
      exact ⟨rfl, List.prefix_rfl, rfl⟩
    | some c =>
      rw [hc] at h
      cases h
  | some v =>
    rw [hv] at h
    cases hc : env x with
    | none =>
      rw [hc] at h
      cases h
    | some c =>
      rw [hc] at h
      rw [show (Run.read r x : Run (Datum S) (List (List S)) _).on m = _ from on_read_some hv]
      exact ⟨rfl, List.prefix_rfl, congrArg Except.ok (Option.some.inj h)⟩

/-- Evaluating a stable expression comes to what it stands for. -/
theorem shows_eval {n : Nat} {r : Region (Datum S)} {env : String → Option (Content S)}
    {names : List String} :
    ∀ e : Expr, e.isStable names → ∀ m : Memory (Datum S) (List (List S)),
      (∀ x ∈ e.vars, r.Knows m env x) →
        Shows m (((machine A.runtime n).eval r e).on m) (A.denote env e)
  | .int k, _, m, _ | .float k, _, m, _ | .bool k, _, m, _ => by
    rw [Machine.eval, denote]
    exact .pure rfl
  | .var x, _, m, hknows => by
    rw [Machine.eval]
    exact A.shows_read (hknows x List.mem_cons_self)
  | .unary op e, hstable, m, hknows => by
    rw [Machine.eval, denote]
    refine (shows_eval e hstable m hknows).bind fun v c m₁ _ _ hc => ?_
    split
    · rw [A.on_isTrue_bind hc]
      exact .pure rfl
    · refine .operate ?_
      change (v.content? m₁.heap).bind _ = _
      rw [hc]
      rfl
  | .len e, hstable, m, hknows => by
    rw [Machine.eval, denote]
    refine (shows_eval e hstable m hknows).bind fun v c m₁ _ _ hc => .operate ?_
    change ((v.content? m₁.heap).bind fun c => (A.lengthOf c).map Datum.scalar).map (·, m₁.heap) = _
    rw [hc, Option.bind_some, Option.map_map, Option.map_map]
    rfl
  | .binary op l e, hstable, m, hknows => by
    have hboth := Bool.and_eq_true_iff.1 hstable
    rw [Machine.eval, denote]
    refine (shows_eval l hboth.1 m fun x hx => hknows x (List.mem_append_left _ hx)).bind
      fun v c m₁ hvars hheap hc => ?_
    have hright : ∀ x ∈ e.vars, r.Knows m₁ env x := fun x hx =>
      (hknows x (List.mem_append_right _ hx)).mono hvars hheap
    by_cases hlogical : op.isLogical
    · rw [if_pos hlogical, if_pos hlogical, A.on_isTrue_bind hc]
      split
      · exact .pure hc
      · exact shows_eval e hboth.2 m₁ hright
    · rw [if_neg hlogical, if_neg hlogical]
      refine (shows_eval e hboth.2 m₁ hright).bind fun w d m₂ _ hheap₂ hd => .operate ?_
      change (v.content? m₂.heap).bind (fun c => (w.content? m₂.heap).bind _) = _
      rw [Datum.content?_of_isPrefix hheap₂ hc, hd]
      rfl
  | .str _, hstable, _, _ | .list _, hstable, _, _ | .index _ _, hstable, _, _
  | .call _ _, hstable, _, _ | .range _ _ _, hstable, _, _ => by cases hstable

end Arithmetic

/-! ## What an operator sees of a list -/

/-- The same scalar, or lists of the same length. -/
inductive Content.Like : Content S → Content S → Prop
  | scalar (s : S) : Like (.scalar s) (.scalar s)
  | list {xs ys : List S} : xs.length = ys.length → Like (.list xs) (.list ys)

theorem Content.Like.refl (c : Content S) : c.Like c := by
  cases c with
  | scalar s => exact .scalar s
  | list xs => exact .list rfl

/-- Both fail alike, or come to the same scalar or to lists of the same length. -/
inductive Alike : Except Fault (Content S) → Except Fault (Content S) → Prop
  | fault (e : Fault) : Alike (.error e) (.error e)
  | value {c d : Content S} : c.Like d → Alike (.ok c) (.ok d)

namespace Alike

variable {x y : Except Fault (Content S)}

theorem refl (x : Except Fault (Content S)) : Alike x x := by
  cases x with
  | error e => exact .fault e
  | ok c => exact .value (.refl c)

theorem bind {f g : Content S → Except Fault (Content S)} (h : Alike x y)
    (hfg : ∀ c d, x = .ok c → y = .ok d → c.Like d → Alike (f c) (g d)) :
    Alike (x >>= f) (y >>= g) := by
  cases h with
  | fault e => exact .fault e
  | value hlike => exact hfg _ _ rfl rfl hlike

/-- What is alike to a list is one. -/
theorem exists_list {xs : List S} (h : Alike (.ok (.list xs)) y) : ∃ ys, y = .ok (.list ys) := by
  cases h with
  | value hlike =>
    cases hlike with
    | list hlen => exact ⟨_, rfl⟩

/-- What is alike is the same, if a list is the same list. -/
theorem eq_of_list (h : Alike x y)
    (hlist : ∀ xs, x = .ok (.list xs) → y = .ok (.list xs)) : x = y := by
  cases h with
  | fault e => rfl
  | value hlike =>
    cases hlike with
    | scalar s => rfl
    | list hlen => exact (hlist _ rfl).symm

/-- What comes to a scalar is the same if it is alike. -/
theorem eq_of_scalar {o o' : Option S}
    (h : Alike (orRaised (o.map .scalar)) (orRaised (o'.map .scalar))) :
    o = o' := by
  cases o with
  | none =>
    cases o' with
    | none => rfl
    | some t => cases h
  | some s =>
    cases o' with
    | none => cases h
    | some t =>
      cases h with
      | value hlike =>
        cases hlike
        rfl

end Alike

namespace Arithmetic

variable {A : Arithmetic S}

theorem truthOf_like {c d : Content S} (h : c.Like d) : A.truthOf c = A.truthOf d := by
  cases h with
  | scalar s => rfl
  | list hlen =>
    rw [truthOf, truthOf, Bool.eq_iff_iff, Bool.not_eq_true', Bool.not_eq_true', ← Bool.not_eq_true,
      ← Bool.not_eq_true, List.isEmpty_iff_length_eq_zero, List.isEmpty_iff_length_eq_zero, hlen]

theorem lengthOf_like {c d : Content S} (h : c.Like d) : A.lengthOf c = A.lengthOf d := by
  cases h with
  | scalar s => rfl
  | list hlen => rw [lengthOf, lengthOf, hlen]

theorem sign_like {op : UnOp} {c d : Content S} (h : c.Like d) : A.sign op c = A.sign op d := by
  cases h with
  | scalar s => rfl
  | list hlen => rfl

theorem alike_mix (op : BinOp) {xs ys : List S} (hlen : xs.length = ys.length) (s : S) :
    Alike (orRaised (A.mix op xs s)) (orRaised (A.mix op ys s)) := by
  cases op
  case mul =>
    rw [mix, mix]
    cases A.count s with
    | none => exact .fault .raised
    | some k => exact .value (.list (by simp [hlen]))
  all_goals exact .refl _

/-- Except for comparisons of lists, operators see no elements. -/
theorem alike_combine {op : BinOp} {c c' d d' : Content S} (hc : c.Like c') (hd : d.Like d')
    (hop : op.isComparison → ∀ xs ys, c = .list xs → d ≠ .list ys) :
    Alike (orRaised (A.combine op c d)) (orRaised (A.combine op c' d')) := by
  cases hc with
  | scalar s =>
    cases hd with
    | scalar t => exact .refl _
    | list hlen => exact alike_mix op hlen s
  | list hlen =>
    cases hd with
    | scalar t => exact alike_mix op hlen t
    | list hlen' =>
      have hcompare : ¬ op.isComparison := fun h => hop h _ _ rfl rfl
      rw [combine, combine, if_neg hcompare, if_neg hcompare]
      split
      · exact .value (.list (by simp [hlen, hlen']))
      · exact .refl _

/-- What two lists compare as is a scalar. -/
theorem denote_comparison {env : String → Option (Content S)} {op : BinOp} {l r : Expr}
    {xs ys : List S}
    (hop : op.isComparison) (hl : A.denote env l = .ok (.list xs))
    (hr : A.denote env r = .ok (.list ys)) :
    A.denote env (.binary op l r) = orRaised ((A.compare op xs ys).map .scalar) := by
  have hlogical : ¬ op.isLogical := by
    cases op <;> first | exact Bool.false_ne_true | cases hop
  rw [denote, hl, hr]
  change (if op.isLogical then _ else orRaised (A.combine op (.list xs) (.list ys))) = _
  rw [if_neg hlogical, combine, if_pos hop]

/-- Where the variables are alike and comparisons of lists too, the whole expression is. -/
theorem alike_denote {env env' : String → Option (Content S)} :
    ∀ e : Expr, (∀ x ∈ e.vars, Alike (A.denote env (.var x)) (A.denote env' (.var x))) →
      (∀ op l r xs ys, Expr.binary op l r ∈ e.parts → op.isComparison →
        A.denote env l = .ok (.list xs) → A.denote env r = .ok (.list ys) →
        Alike (A.denote env (.binary op l r)) (A.denote env' (.binary op l r))) →
      Alike (A.denote env e) (A.denote env' e)
  | .int _, _, _ | .float _, _, _ | .bool _, _, _ | .str _, _, _ | .list _, _, _ | .index _ _, _, _
  | .call _ _, _, _ | .range _ _ _, _, _ => .refl _
  | .var x, hvars, _ => hvars x List.mem_cons_self
  | .unary op e, hvars, hcompare => by
    rw [denote, denote]
    refine (alike_denote e hvars fun op l r xs ys hmem =>
      hcompare op l r xs ys (List.mem_cons_of_mem _ hmem)).bind fun c d _ _ hlike => ?_
    rw [truthOf_like hlike, sign_like hlike]
    exact .refl _
  | .len e, hvars, hcompare => by
    rw [denote, denote]
    refine (alike_denote e hvars fun op l r xs ys hmem =>
      hcompare op l r xs ys (List.mem_cons_of_mem _ hmem)).bind fun c d _ _ hlike => ?_
    rw [lengthOf_like hlike]
    exact .refl _
  | .binary op l r, hvars, hcompare => by
    have hleft := alike_denote l (fun x hx => hvars x (List.mem_append_left _ hx))
      fun op l' r' xs ys hmem => hcompare op l' r' xs ys
        (List.mem_cons_of_mem _ (List.mem_append_left _ hmem))
    have hright := alike_denote r (fun x hx => hvars x (List.mem_append_right _ hx))
      fun op l' r' xs ys hmem => hcompare op l' r' xs ys
        (List.mem_cons_of_mem _ (List.mem_append_right _ hmem))
    -- A comparison of two lists is one of those that are given.
    by_cases hlists : op.isComparison ∧ ∃ xs ys, A.denote env l = .ok (.list xs) ∧
        A.denote env r = .ok (.list ys)
    · obtain ⟨hop, xs, ys, hl, hr⟩ := hlists
      exact hcompare op l r xs ys List.mem_cons_self hop hl hr
    rw [denote, denote]
    refine hleft.bind fun c c' hc _ hlike => ?_
    split
    · rw [truthOf_like hlike]
      split
      · exact .value hlike
      · exact hright
    · refine hright.bind fun d d' hd _ hlike' => alike_combine hlike hlike' ?_
      rintro hop xs ys rfl rfl
      exact hlists ⟨hop, xs, ys, hc, hd⟩

/-- Only the variables that an expression reads matter. -/
theorem denote_congr {env env' : String → Option (Content S)} :
    ∀ e : Expr, (∀ x ∈ e.vars, A.denote env (.var x) = A.denote env' (.var x)) →
      A.denote env e = A.denote env' e
  | .int _, _ | .float _, _ | .bool _, _ | .str _, _ | .list _, _ | .index _ _, _ | .call _ _, _
  | .range _ _ _, _ => rfl
  | .var x, hvars => hvars x List.mem_cons_self
  | .unary op e, hvars => by rw [denote, denote, denote_congr e hvars]
  | .len e, hvars => by rw [denote, denote, denote_congr e hvars]
  | .binary op l r, hvars => by
    rw [denote, denote, denote_congr l fun x hx => hvars x (List.mem_append_left _ hx),
      denote_congr r fun x hx => hvars x (List.mem_append_right _ hx)]

end Arithmetic

end Braces
