import Braces.Infer.Round
import Braces.Proofs.Emission.Variables

/-!
# What a walk does to the scope of a routine

Walking an expression only notes uses (`Touched`), and every variable it reads is seen from there, a
parameter, or noted as hoisted or unbound (`Noted`). Walking statements keeps the block they stand
in, and binds a variable anew only where its old binding is not seen (`Leads`). The numbers of
blocks are never used twice, so a block that is entered is in no path noted before.
-/

namespace Braces

namespace Scope

/-! ## Uses -/

/-- Nothing but uses was noted between two scopes. -/
structure Touched (s s' : Scope) : Prop where
  types : s'.types = s.types
  params : s'.params = s.params
  bindings : s'.bindings = s.bindings
  path : s'.path = s.path
  blocks : s'.blocks = s.blocks
  hoisted : s.hoisted ⊆ s'.hoisted
  unbound : s.unboundReads ⊆ s'.unboundReads
  reads : ∀ x, (s.bindings.get? x).isSome → x ∈ s'.unboundReads → x ∈ s.unboundReads

theorem Touched.refl (s : Scope) : Touched s s :=
  ⟨rfl, rfl, rfl, rfl, rfl, List.Subset.refl _, List.Subset.refl _, fun _ _ h => h⟩

theorem Touched.trans {s s' s'' : Scope} (h : Touched s s') (h' : Touched s' s'') :
    Touched s s'' where
  types := h'.types.trans h.types
  params := h'.params.trans h.params
  bindings := h'.bindings.trans h.bindings
  path := h'.path.trans h.path
  blocks := h'.blocks.trans h.blocks
  hoisted := List.Subset.trans h.hoisted h'.hoisted
  unbound := List.Subset.trans h.unbound h'.unbound
  reads x hb hx := h.reads x hb (h'.reads x (h.bindings ▸ hb) hx)

theorem touched_touch (s : Scope) (name : String) : Touched s (s.touch name) := by
  unfold touch
  split
  · split
    · exact .refl s
    · exact ⟨rfl, rfl, rfl, rfl, rfl, List.subset_cons_self .., List.Subset.refl _, fun _ _ h => h⟩
  · next hnone =>
    split
    · exact .refl s
    · refine ⟨rfl, rfl, rfl, rfl, rfl, List.Subset.refl _, List.subset_cons_self .., ?_⟩
      intro x hb hx
      rcases List.mem_cons.mp hx with rfl | hx
      · simp [hnone] at hb
      · exact hx

/-- A variable is bound in a block around the current statement. -/
def Seen (s : Scope) (x : String) : Prop := ∃ b, s.bindings.get? x = some b ∧ s.sees b = true

/-- A use of a variable in one scope, as the later scope has it. -/
def Noted (s s' : Scope) (x : String) : Prop :=
  x ∈ s.params ∨ s.Seen x ∨ x ∈ s'.hoisted ∨ x ∈ s'.unboundReads

theorem Touched.seen_iff {s s' : Scope} (h : Touched s s') {x : String} : s'.Seen x ↔ s.Seen x := by
  simp only [Seen, sees, h.bindings, h.path]

theorem Noted.mono {s s' s'' : Scope} {x : String} (h : Noted s s' x) (h' : Touched s' s'') :
    Noted s s'' x := by
  rcases h with hp | hs | hh | hu
  · exact .inl hp
  · exact .inr (.inl hs)
  · exact .inr (.inr (.inl (h'.hoisted hh)))
  · exact .inr (.inr (.inr (h'.unbound hu)))

theorem Noted.of_touched {s s' s'' : Scope} {x : String} (h : Touched s s') (h' : Noted s' s'' x) :
    Noted s s'' x := by
  rcases h' with hp | hs | hh | hu
  · exact .inl (h.params ▸ hp)
  · exact .inr (.inl (h.seen_iff.mp hs))
  · exact .inr (.inr (.inl hh))
  · exact .inr (.inr (.inr hu))

theorem noted_touch (s : Scope) (name : String) : Noted s (s.touch name) name := by
  unfold touch
  split
  · next b hb =>
    split
    · next hs => exact .inr (.inl ⟨b, hb, hs⟩)
    · exact .inr (.inr (.inl List.mem_cons_self))
  · split
    · next hp => exact .inl hp
    · exact .inr (.inr (.inr List.mem_cons_self))

/-- Uses of some variables were noted between two scopes. -/
def Reads (xs : List String) (s s' : Scope) : Prop := Touched s s' ∧ ∀ x ∈ xs, Noted s s' x

theorem Reads.nil (s : Scope) : Reads [] s s := ⟨.refl s, fun _ h => nomatch h⟩

theorem Reads.append {xs ys : List String} {s s' s'' : Scope} (h : Reads xs s s')
    (h' : Reads ys s' s'') : Reads (xs ++ ys) s s'' := by
  refine ⟨h.1.trans h'.1, ?_⟩
  intro x hx
  rcases List.mem_append.mp hx with hx | hx
  · exact (h.2 x hx).mono h'.1
  · exact (h'.2 x hx).of_touched h.1

end Scope

namespace Visit

open Scope (Reads)

mutual

theorem reads_expr : ∀ (e : Expr) (v : Visit), Reads e.vars v.scope (expr e v).scope
  | .var name, v =>
    ⟨Scope.touched_touch v.scope name, fun x hx => by
      rw [List.mem_singleton.mp hx]
      exact Scope.noted_touch v.scope name⟩
  | .binary _ l r, v => (reads_expr l v).append (reads_expr r _)
  | .unary _ e, v | .len e, v => reads_expr e v
  | .list es, v => reads_exprs es v
  | .index target position, v => (reads_expr target v).append (reads_expr position _)
  | .call name args, v => reads_arguments name 0 args v
  | .range start stop step, v =>
    (reads_expr start v).append ((reads_option stop _).append (reads_option step _))
  | .int _, v | .float _, v | .str _, v | .bool _, v => .nil v.scope

theorem reads_exprs : ∀ (es : List Expr) (v : Visit),
    Reads (Expr.varsOf es) v.scope (exprs es v).scope
  | [], v => .nil v.scope
  | e :: es, v => (reads_expr e v).append (reads_exprs es _)

theorem reads_option : ∀ (e : Option Expr) (v : Visit),
    Reads (Expr.varsOfOption e) v.scope (option e v).scope
  | none, v => .nil v.scope
  | some e, v => reads_expr e v

theorem reads_arguments : ∀ (name : String) (index : Nat) (args : List Expr) (v : Visit),
    Reads (Expr.varsOf args) v.scope (arguments name index args v).scope
  | _, _, [], v => .nil v.scope
  | name, index, arg :: args, v =>
    (reads_expr arg v).append (reads_arguments name (index + 1) args
      ((expr arg v).refineParam name index ((expr arg v).typeOf arg)))

end

theorem touched_expr (e : Expr) (v : Visit) : v.scope.Touched (expr e v).scope :=
  (reads_expr e v).1

theorem touched_exprs (es : List Expr) (v : Visit) : v.scope.Touched (exprs es v).scope :=
  (reads_exprs es v).1

end Visit

namespace Scope

/-! ## Blocks -/

/-- What holds of every scope of a walk. -/
structure Tidy (s : Scope) : Prop where
  path_le : ∀ i ∈ s.path, i ≤ s.blocks
  bound_le : ∀ x b, s.bindings.get? x = some b → ∀ i ∈ b.path, i ≤ s.blocks
  /-- A variable that was read before its first store is hoisted once it is bound. -/
  reads : ∀ x b, s.bindings.get? x = some b → x ∈ s.unboundReads → x ∈ s.hoisted
  typed : ∀ x, (s.types.get? x).isSome → x ∈ s.params ∨ (s.bindings.get? x).isSome
  ordered : s.types.Ordered

theorem tidy_ofParams (ps : List Param) : Tidy (.ofParams ps) where
  path_le := nofun
  bound_le := nofun
  reads := nofun
  typed x hx := .inl (by
    obtain ⟨ty, hty⟩ := Option.isSome_iff_exists.mp hx
    have hmem := Dict.mem_ofList ((Dict.get?_eq_some_iff (Dict.ordered_ofList _).nodup).mp hty)
    obtain ⟨p, hp, heq⟩ := List.mem_map.mp hmem
    exact List.mem_map.mpr ⟨p, hp, congrArg Prod.fst heq⟩)
  ordered := Dict.ordered_ofList _

theorem Tidy.touched {s s' : Scope} (h : Tidy s) (t : Touched s s') : Tidy s' where
  path_le := by rw [t.path, t.blocks]; exact h.path_le
  bound_le := by rw [t.bindings, t.blocks]; exact h.bound_le
  reads x b hb hx := by
    rw [t.bindings] at hb
    exact t.hoisted (h.reads x b hb (t.reads x (by simp [hb]) hx))
  typed := by rw [t.types, t.params, t.bindings]; exact h.typed
  ordered := t.types ▸ h.ordered

theorem Tidy.enter {s : Scope} (h : Tidy s) : Tidy s.enter where
  path_le i hi := by
    rcases List.mem_cons.mp hi with rfl | hi
    · exact Nat.le_refl _
    · exact Nat.le_succ_of_le (h.path_le i hi)
  bound_le x b hb i hi := Nat.le_succ_of_le (h.bound_le x b hb i hi)
  reads := h.reads
  typed := h.typed
  ordered := h.ordered

theorem Tidy.exit {s : Scope} (h : Tidy s) : Tidy s.exit where
  path_le i hi := h.path_le i (List.mem_of_mem_tail hi)
  bound_le := h.bound_le
  reads := h.reads
  typed := h.typed
  ordered := h.ordered

theorem sees_iff {s : Scope} {b : Binding} : s.sees b = true ↔ b.path <:+ s.path :=
  List.isSuffixOf_iff_suffix

/-- Entering a block brings no binding into sight: the block is in no path yet. -/
theorem Tidy.sees_enter {s : Scope} (h : Tidy s) {x : String} {b : Binding}
    (hb : s.bindings.get? x = some b) : s.enter.sees b = s.sees b := by
  have hiff : s.enter.sees b = true ↔ s.sees b = true := by
    rw [sees_iff, sees_iff]
    refine ⟨?_, fun hs => hs.trans (List.suffix_cons _ _)⟩
    intro hs
    rcases List.suffix_cons_iff.mp hs with heq | hs
    · have hle := h.bound_le x b hb (s.blocks + 1) (heq ▸ List.mem_cons_self)
      omega
    · exact hs
  exact Bool.eq_iff_iff.mpr hiff

theorem not_enter_suffix (s : Scope) {path : List Nat} (h : path <:+ s.path) :
    ¬ s.enter.path <:+ path := by
  intro hs
  have hle := (hs.trans h).length_le
  simp only [enter, List.length_cons] at hle
  omega

/-- A binding that was made in the block of a scope, where no binding was in sight. -/
structure NewIn (s : Scope) (x : String) (b : Binding) : Prop where
  inside : s.path <:+ b.path
  /-- Loops bind their variable in a block of their own. -/
  own : b.path = s.path → b.byLoop = false
  unseen : ∀ b₀, s.bindings.get? x = some b₀ → s.sees b₀ = false

/-- What statements in one block do to a scope. -/
structure Leads (s s' : Scope) : Prop where
  params : s'.params = s.params
  path : s'.path = s.path
  blocks : s.blocks ≤ s'.blocks
  hoisted : s.hoisted ⊆ s'.hoisted
  unbound : s.unboundReads ⊆ s'.unboundReads
  bindings : ∀ x, s'.bindings.get? x = s.bindings.get? x ∨
    ∃ b, s'.bindings.get? x = some b ∧ NewIn s x b

theorem Touched.leads {s s' : Scope} (h : Touched s s') : Leads s s' where
  params := h.params
  path := h.path
  blocks := Nat.le_of_eq h.blocks.symm
  hoisted := h.hoisted
  unbound := h.unbound
  bindings x := .inl (by rw [h.bindings])

theorem Leads.refl (s : Scope) : Leads s s := (Touched.refl s).leads

theorem Leads.trans {s s' s'' : Scope} (h : Leads s s') (h' : Leads s' s'') : Leads s s'' where
  params := h'.params.trans h.params
  path := h'.path.trans h.path
  blocks := Nat.le_trans h.blocks h'.blocks
  hoisted := List.Subset.trans h.hoisted h'.hoisted
  unbound := List.Subset.trans h.unbound h'.unbound
  bindings x := by
    rcases h'.bindings x with hk' | ⟨b', hb', hn'⟩
    · rw [hk']
      exact h.bindings x
    · refine .inr ⟨b', hb', ?_⟩
      have hin := hn'.inside
      have hown := hn'.own
      rw [h.path] at hin hown
      refine ⟨hin, hown, ?_⟩
      intro b₀ hb₀
      rcases h.bindings x with hk | ⟨b, -, hn⟩
      · have := hn'.unseen b₀ (hk.trans hb₀)
        rwa [sees, h.path] at this
      · exact hn.unseen b₀ hb₀

/-- What a store does to the binding of its variable. -/
inductive Stored (s : Scope) (name : String) (byLoop : Bool) : Scope → Prop
  | param : name ∈ s.params → Stored s name byLoop s
  /-- The first store. -/
  | first : name ∉ s.params → s.bindings.get? name = none →
      Stored s name byLoop
        ((if name ∈ s.unboundReads then s.hoist name else s).rebind name byLoop)
  /-- A loop beside the loop that bound the variable before. -/
  | sibling {b} : name ∉ s.params → s.bindings.get? name = some b → byLoop = true →
      b.byLoop = true → s.sees b = false → Stored s name byLoop (s.rebind name byLoop)
  | again {b} : name ∉ s.params → s.bindings.get? name = some b →
      (byLoop = true → b.byLoop = true → name ∉ s.hoisted → s.sees b = true) →
      Stored s name byLoop (s.touch name)

theorem stored_bindName (s : Scope) (name : String) (byLoop : Bool) :
    Stored s name byLoop (s.bindName name byLoop) := by
  unfold bindName
  split
  · next hp => exact .param hp
  · next hp =>
    split
    · next hb => exact .first hp hb
    · next b hb =>
      split
      · next hc =>
        simp only [Bool.and_eq_true, Bool.not_eq_true', decide_eq_true_eq] at hc
        exact .sibling hp hb hc.1.1.1 hc.1.1.2 hc.2
      · next hc =>
        refine .again hp hb ?_
        intro hl hbl hh
        simpa [hl, hbl, hh] using hc

namespace Stored
variable {s s' : Scope} {name : String} {byLoop : Bool}

/-- A store keeps all bindings but that of its variable, which it makes anew only out of sight. -/
theorem bindings (h : Stored s name byLoop s') (x : String) :
    s'.bindings.get? x = s.bindings.get? x ∨
      x = name ∧ s'.bindings.get? x = some ⟨s.path, byLoop⟩ ∧
        ∀ b₀, s.bindings.get? x = some b₀ → s.sees b₀ = false := by
  by_cases hx : x = name
  · subst hx
    cases h with
    | param => exact .inl rfl
    | first _ hb =>
      refine .inr ⟨rfl, ?_, fun b₀ hb₀ => by simp [hb] at hb₀⟩
      split <;> simp [rebind, hoist]
    | sibling _ hb _ _ hs =>
      refine .inr ⟨rfl, by simp [rebind], fun b₀ hb₀ => ?_⟩
      rw [hb] at hb₀
      exact Option.some.inj hb₀ ▸ hs
    | again => exact .inl (by rw [(touched_touch s x).bindings])
  · left
    cases h with
    | param => rfl
    | first => split <;> simp [rebind, hoist, hx]
    | sibling => simp [rebind, hx]
    | again => rw [(touched_touch s name).bindings]

theorem params (h : Stored s name byLoop s') : s'.params = s.params := by
  cases h with
  | param | sibling => rfl
  | first => split <;> rfl
  | again => exact (touched_touch s name).params

theorem path (h : Stored s name byLoop s') : s'.path = s.path := by
  cases h with
  | param | sibling => rfl
  | first => split <;> rfl
  | again => exact (touched_touch s name).path

theorem blocks (h : Stored s name byLoop s') : s'.blocks = s.blocks := by
  cases h with
  | param | sibling => rfl
  | first => split <;> rfl
  | again => exact (touched_touch s name).blocks

theorem types (h : Stored s name byLoop s') : s'.types = s.types := by
  cases h with
  | param | sibling => rfl
  | first => split <;> rfl
  | again => exact (touched_touch s name).types

theorem hoisted (h : Stored s name byLoop s') : s.hoisted ⊆ s'.hoisted := by
  cases h with
  | param | sibling => exact List.Subset.refl _
  | first =>
    split
    · exact List.subset_cons_self ..
    · exact List.Subset.refl _
  | again => exact (touched_touch s name).hoisted

theorem unbound (h : Stored s name byLoop s') : s'.unboundReads = s.unboundReads := by
  cases h with
  | param | sibling => rfl
  | first => split <;> rfl
  | again _ hb =>
    simp only [touch, hb]
    split <;> rfl

/-- After a store the variable is a parameter or bound. -/
theorem bound (h : Stored s name byLoop s') :
    name ∈ s.params ∨ (s'.bindings.get? name).isSome := by
  cases h with
  | param hp => exact .inl hp
  | first => right; split <;> simp [rebind, hoist]
  | sibling => right; simp [rebind]
  | again _ hb => right; rw [(touched_touch s name).bindings, hb]; rfl

/-- The first store hoists a variable that was read before. -/
theorem reads (h : Stored s name byLoop s') (hname : s.bindings.get? name = none)
    (hp : name ∉ s.params) (hread : name ∈ s.unboundReads) : name ∈ s'.hoisted := by
  cases h with
  | param hp' => exact absurd hp' hp
  | first => simp [hread, rebind, hoist]
  | sibling _ hb => simp [hname] at hb
  | again _ hb => simp [hname] at hb

end Stored

theorem Tidy.stored {s s' : Scope} {name : String} {byLoop : Bool} (h : Tidy s)
    (hs : Stored s name byLoop s') : Tidy s' where
  path_le := by rw [hs.path, hs.blocks]; exact h.path_le
  bound_le x b hb := by
    rw [hs.blocks]
    rcases hs.bindings x with hk | ⟨-, hb', -⟩
    · exact h.bound_le x b (hk ▸ hb)
    · rw [hb'] at hb
      cases hb
      exact h.path_le
  reads x b hb hx := by
    rw [hs.unbound] at hx
    cases hold : s.bindings.get? x with
    | some b₀ => exact hs.hoisted (h.reads x b₀ hold hx)
    | none =>
      rcases hs.bindings x with hk | ⟨rfl, -, -⟩
      · simp [hk, hold] at hb
      · by_cases hp : x ∈ s.params
        · cases hs with
          | param => simp [hold] at hb
          | first hp' | sibling hp' | again hp' => exact absurd hp hp'
        · exact hs.reads hold hp hx
  typed x := by
    rw [hs.types, hs.params]
    intro ht
    rcases h.typed x ht with hp | hb
    · exact .inl hp
    · rcases hs.bindings x with hk | ⟨-, hb', -⟩
      · exact .inr (hk ▸ hb)
      · exact .inr (by simp [hb'])
  ordered := hs.types ▸ h.ordered

theorem Tidy.bind {s : Scope} (h : Tidy s) (name : String) (ty : Ty) (byLoop : Bool) :
    Tidy (s.bind name ty byLoop) := by
  have hs := stored_bindName s name byLoop
  have ht := h.stored hs
  refine ⟨ht.path_le, ht.bound_le, ht.reads, ?_, ht.ordered.insert ..⟩
  intro x hx
  by_cases hxn : x = name
  · subst hxn
    rcases hs.bound with hp | hb
    · exact .inl (hs.params ▸ hp)
    · exact .inr hb
  · apply ht.typed x
    simpa [Scope.bind, hxn] using hx

theorem leads_bind (s : Scope) (name : String) (ty : Ty) : Leads s (s.bind name ty false) := by
  have hs := stored_bindName s name false
  refine ⟨hs.params, hs.path, Nat.le_of_eq hs.blocks.symm, hs.hoisted,
    fun _ hx => hs.unbound ▸ hx, ?_⟩
  intro x
  rcases hs.bindings x with hk | ⟨-, hb, hunseen⟩
  · exact .inl hk
  · exact .inr ⟨_, hb, List.suffix_refl _, fun _ => rfl, hunseen⟩

/-- The bindings made in a block that was entered, seen from around it. -/
theorem NewIn.of_enter {s : Scope} (h : Tidy s) {x : String} {b : Binding}
    (hin : s.enter.path <:+ b.path)
    (hunseen : ∀ b₀, s.bindings.get? x = some b₀ → s.enter.sees b₀ = false) : NewIn s x b where
  inside := (List.suffix_cons _ _).trans hin
  own heq := absurd hin (s.not_enter_suffix (heq ▸ List.suffix_refl _))
  unseen b₀ hb₀ := (h.sees_enter hb₀) ▸ hunseen b₀ hb₀

theorem leads_block {s s₁ : Scope} (h : Tidy s) (hl : Leads s.enter s₁) : Leads s s₁.exit where
  params := hl.params
  path := by
    show s₁.path.tail = s.path
    rw [hl.path]
    rfl
  blocks := Nat.le_trans (Nat.le_succ _) hl.blocks
  hoisted := hl.hoisted
  unbound := hl.unbound
  bindings x := by
    rcases hl.bindings x with hk | ⟨b, hb, hn⟩
    · exact .inl hk
    · exact .inr ⟨b, hb, .of_enter h hn.inside hn.unseen⟩

theorem leads_loop {s s₁ : Scope} (h : Tidy s) {name : String} {ty : Ty}
    (hl : Leads (s.enter.bind name ty true) s₁) : Leads s s₁.exit := by
  have hs := stored_bindName s.enter name true
  have hpath : (s.enter.bind name ty true).path = s.enter.path := hs.path
  refine ⟨hl.params.trans hs.params, ?_, ?_, List.Subset.trans hs.hoisted hl.hoisted,
    fun x hx => hl.unbound (hs.unbound ▸ hx), ?_⟩
  · show s₁.path.tail = s.path
    rw [hl.path, hpath]
    rfl
  · have := hl.blocks
    have := hs.blocks
    exact Nat.le_trans (Nat.le_succ _) (Nat.le_trans (Nat.le_of_eq hs.blocks.symm) hl.blocks)
  · intro x
    rcases hl.bindings x with hk | ⟨b, hb, hn⟩
    · rcases hs.bindings x with hk' | ⟨-, hb', hunseen⟩
      · exact .inl (hk.trans hk')
      · exact .inr ⟨_, hk.trans hb', .of_enter h (List.suffix_refl _) hunseen⟩
    · refine .inr ⟨b, hb, .of_enter h (hpath ▸ hn.inside) ?_⟩
      intro b₀ hb₀
      rcases hs.bindings x with hk' | ⟨-, -, hunseen⟩
      · have := hn.unseen b₀ (hk'.trans hb₀)
        rwa [sees, hpath] at this
      · exact hunseen b₀ hb₀

theorem nodup_locals {s : Scope} (h : s.types.Ordered) : s.locals.keys.Nodup := by
  refine h.nodup.sublist ?_
  simp only [locals, Dict.keys, List.map_map, Function.comp_def]
  exact List.filter_sublist.map _

/-- What the table gets to know of a local. -/
theorem get?_locals {s : Scope} (h : s.types.Ordered) {x : String} {l : Local} :
    s.locals.get? x = some l ↔
      x ∉ s.params ∧ s.types.get? x = some l.ty ∧ l.hoisted = decide (x ∈ s.hoisted) := by
  rw [Dict.get?_eq_some_iff (nodup_locals h), Dict.get?_eq_some_iff h.nodup]
  simp only [locals, List.mem_map, List.mem_filter, decide_eq_true_eq, Prod.mk.injEq, Prod.exists]
  constructor
  · rintro ⟨_, ty, ⟨hm, hp⟩, rfl, rfl⟩
    exact ⟨hp, hm, rfl⟩
  · rintro ⟨hp, hm, hh⟩
    exact ⟨x, l.ty, ⟨hm, hp⟩, rfl, by cases l; simp_all⟩

end Scope

namespace Visit

open Scope (Tidy Leads)

mutual

theorem leads_stmt (routine : String) : ∀ (s : Stmt) (v : Visit), v.scope.Tidy →
    (stmt routine s v).scope.Tidy ∧ v.scope.Leads (stmt routine s v).scope
  | .assign name value, v, h => by
    have ht := touched_expr value v
    exact ⟨(h.touched ht).bind .., ht.leads.trans (Scope.leads_bind ..)⟩
  | .assignAt target position value, v, h => by
    have ht :=
      ((touched_expr target v).trans (touched_expr position _)).trans (touched_expr value _)
    exact ⟨h.touched ht, ht.leads⟩
  | .print args, v, h => by
    have ht := touched_exprs args v
    exact ⟨h.touched ht, ht.leads⟩
  | .ifElse cond body orelse, v, h => by
    have ht := touched_expr cond v
    have hb := leads_block routine body (expr cond v).enter (h.touched ht).enter
    have ho :=
      leads_otherwise routine orelse (block routine body (expr cond v).enter).exit hb.1.exit
    exact ⟨ho.1, (ht.leads.trans (Scope.leads_block (h.touched ht) hb.2)).trans ho.2⟩
  | .whileLoop cond body, v, h => by
    have ht := touched_expr cond v
    have hb := leads_block routine body (expr cond v).enter (h.touched ht).enter
    exact ⟨hb.1.exit, ht.leads.trans (Scope.leads_block (h.touched ht) hb.2)⟩
  | .forLoop name iterable body, v, h => by
    have ht := touched_expr iterable v
    have hb := leads_block routine body
      ((expr iterable v).enter.bind name (elementTy ((expr iterable v).typeOf iterable)) true)
      ((h.touched ht).enter.bind name _ true)
    exact ⟨hb.1.exit, ht.leads.trans (Scope.leads_loop (h.touched ht) hb.2)⟩
  | .ret (some e), v, h => by
    have ht := touched_expr e v
    rw [stmt]
    split
    · exact ⟨h.touched ht, ht.leads⟩
    · exact ⟨h.touched ht, ht.leads⟩
  | .eval e, v, h => by
    have ht := touched_expr e v
    exact ⟨h.touched ht, ht.leads⟩
  | .ret none, v, h | .funcDef _ _ _, v, h | .pass, v, h | .break_, v, h | .continue_, v, h =>
    ⟨h, .refl v.scope⟩

theorem leads_block (routine : String) : ∀ (body : List Stmt) (v : Visit), v.scope.Tidy →
    (block routine body v).scope.Tidy ∧ v.scope.Leads (block routine body v).scope
  | [], v, h => ⟨h, .refl v.scope⟩
  | s :: rest, v, h => by
    have hs := leads_stmt routine s v h
    have hr := leads_block routine rest _ hs.1
    exact ⟨hr.1, hs.2.trans hr.2⟩

theorem leads_otherwise (routine : String) : ∀ (orelse : Option (List Stmt)) (v : Visit),
    v.scope.Tidy → (otherwise routine orelse v).scope.Tidy ∧
      v.scope.Leads (otherwise routine orelse v).scope
  | none, v, h => ⟨h, .refl v.scope⟩
  | some body, v, h => by
    have hb := leads_block routine body v.enter h.enter
    exact ⟨hb.1.exit, Scope.leads_block h hb.2⟩

end

end Visit

end Braces
