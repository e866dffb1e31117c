import Braces.Proofs.Emission.Heads
import Braces.Proofs.Inference.Scope

/-!
# Inference and emission agree on scopes

Inference decides from the blocks of stores and uses which variables are declared at the top of
their routine. Emission keeps a flat set of the variables declared so far, and only takes the
variable of a loop out of it again. `Agrees` ties the two together for one variable, and every
statement keeps it.
-/

namespace Braces

open Cpp (Mark Name Sound spell)

/-- The names that the finished table has hoisted are the only ones that a walk hoists, and no other
variable is read before it is bound. -/
def Settled (hoisted : List String) (x : String) (s : Scope) : Prop :=
  x ∉ hoisted → x ∉ s.hoisted ∧ x ∉ s.unboundReads

theorem Settled.of_leads {hoisted : List String} {x : String} {s s' : Scope} (h : s.Leads s')
    (hs : Settled hoisted x s') : Settled hoisted x s :=
  fun hx => ⟨fun hm => (hs hx).1 (h.hoisted hm), fun hm => (hs hx).2 (h.unbound hm)⟩

/-- How the scope of a walk, the variables declared so far and the number of visible declarations of
a variable go together. -/
inductive Agrees (hoisted : List String) (x : String) (s : Scope) (st : Progress) (count : Nat) :
    Prop
  | hoisted : x ∈ hoisted → x ∈ st.declared → count = 1 → Agrees hoisted x s st count
  | unbound : x ∉ hoisted → s.bindings.get? x = none → x ∉ st.declared → count = 0 →
      Agrees hoisted x s st count
  | seen {b} : x ∉ hoisted → s.bindings.get? x = some b → s.sees b = true → x ∈ st.declared →
      count = 1 → Agrees hoisted x s st count
  /-- Only the variable of a loop is forgotten, and may be declared by the next loop. -/
  | unseen {b} : x ∉ hoisted → s.bindings.get? x = some b → s.sees b = false →
      (b.byLoop = true → x ∉ st.declared) → count = 0 → Agrees hoisted x s st count

namespace Agrees
variable {H : List String} {x : String} {s s' s₁ : Scope} {st st' st₁ : Progress} {n m : Nat}

theorem congr (h : Agrees H x s st n) (hb : x ∉ H → s'.bindings.get? x = s.bindings.get? x)
    (hp : s'.path = s.path) (hd : x ∈ st'.declared ↔ x ∈ st.declared) : Agrees H x s' st' n := by
  have hsees : s'.sees = s.sees := by
    funext b
    rw [Scope.sees, Scope.sees, hp]
  cases h with
  | hoisted hh hx hc => exact .hoisted hh (hd.mpr hx) hc
  | unbound hh hn hx hc => exact .unbound hh ((hb hh).trans hn) (mt hd.mp hx) hc
  | seen hh hs hsee hx hc => exact .seen hh ((hb hh).trans hs) (hsees ▸ hsee) (hd.mpr hx) hc
  | unseen hh hs hsee hx hc =>
    exact .unseen hh ((hb hh).trans hs) (hsees ▸ hsee) (fun hl => mt hd.mp (hx hl)) hc

theorem touched (h : Agrees H x s st n) (t : s.Touched s') : Agrees H x s' st n :=
  h.congr (fun _ => by rw [t.bindings]) t.path Iff.rfl

theorem of_mem (h : Agrees H x s st n) (hh : x ∈ H) : x ∈ st.declared ∧ n = 1 := by
  cases h with
  | hoisted _ hd hc => exact ⟨hd, hc⟩
  | unbound hn | seen hn | unseen hn => exact absurd hh hn

theorem count_eq_one (h : Agrees H x s st n) {b : Binding} (hb : s.bindings.get? x = some b)
    (hs : s.sees b = true) : n = 1 := by
  cases h with
  | hoisted _ _ hc | seen _ _ _ _ hc => exact hc
  | unbound _ hn => simp [hn] at hb
  | unseen _ hb' hs' =>
    rw [hb] at hb'
    cases hb'
    simp [hs] at hs'

theorem count_eq_zero (h : Agrees H x s st n) (hh : x ∉ H)
    (hu : ∀ b, s.bindings.get? x = some b → s.sees b = false) : n = 0 := by
  cases h with
  | hoisted hm => exact absurd hm hh
  | unbound _ _ _ hc | unseen _ _ _ _ hc => exact hc
  | seen _ hb hs => simp [hu _ hb] at hs

theorem enter (h : Agrees H x s st n) (ht : s.Tidy) : Agrees H x s.enter st n := by
  cases h with
  | hoisted hh hx hc => exact .hoisted hh hx hc
  | unbound hh hn hx hc => exact .unbound hh hn hx hc
  | seen hh hs hsee hx hc => exact .seen hh hs ((ht.sees_enter hs).trans hsee) hx hc
  | unseen hh hs hsee hx hc => exact .unseen hh hs ((ht.sees_enter hs).trans hsee) hx hc

/-- A variable that is used has one visible declaration. -/
theorem count_of_noted (h : Agrees H x s st n) (hx : x ∉ s.params) (hn : s.Noted s' x)
    (hs : Settled H x s') : n = 1 := by
  cases h with
  | hoisted _ _ hc => exact hc
  | seen _ _ _ _ hc => exact hc
  | unbound hh hnone =>
    rcases hn with hp | ⟨b, hb, -⟩ | hho | hu
    · exact absurd hp hx
    · simp [hnone] at hb
    · exact absurd hho (hs hh).1
    · exact absurd hu (hs hh).2
  | unseen hh hsome hsee =>
    rcases hn with hp | ⟨b, hb, hsee'⟩ | hho | hu
    · exact absurd hp hx
    · rw [hsome] at hb
      cases hb
      simp [hsee] at hsee'
    · exact absurd hho (hs hh).1
    · exact absurd hu (hs hh).2

/-- A use out of sight of the binding hoists the variable. -/
theorem not_settled_touch {b : Binding} (hh : x ∉ H) (hx : x ∉ s.params)
    (hb : s.bindings.get? x = some b) (hs : s.sees b = false) : ¬ Settled H x (s.touch x) := by
  intro hset
  rcases Scope.noted_touch s x with hp | ⟨b', hb', hs'⟩ | hho | hu
  · exact hx hp
  · rw [hb] at hb'
    cases hb'
    simp [hs] at hs'
  · exact (hset hh).1 hho
  · exact (hset hh).2 hu

/-- A store to a variable that is declared finds it in sight, and changes no binding. -/
theorem store (h : Agrees H x s st n) (hd : x ∈ st.declared) (hx : x ∉ s.params)
    {byLoop : Bool} (ho : Scope.Stored s x byLoop s') (hs : Settled H x s') :
    n = 1 ∧ (x ∉ H → s'.bindings.get? x = s.bindings.get? x) := by
  cases h with
  | hoisted hh _ hc => exact ⟨hc, fun hn => absurd hh hn⟩
  | unbound _ _ hnd => exact absurd hd hnd
  | seen hh hb hsee _ hc =>
    refine ⟨hc, fun _ => ?_⟩
    rcases ho.bindings x with hk | ⟨-, -, hun⟩
    · exact hk
    · simp [hun _ hb] at hsee
  | @unseen b hh hb hsee hnd =>
    have hl : b.byLoop = false := by
      cases hbl : b.byLoop with
      | false => rfl
      | true => exact absurd hd (hnd hbl)
    cases ho with
    | param hp => exact absurd hp hx
    | first _ hnone => simp [hb] at hnone
    | sibling _ hb' _ hbl =>
      rw [hb] at hb'
      cases hb'
      simp [hl] at hbl
    | again => exact absurd hs (not_settled_touch hh hx hb hsee)

/-- A store to a variable that is not declared binds it where it stands, with no declaration of it
in sight. -/
theorem fresh (h : Agrees H x s st n) (hd : x ∉ st.declared) (hx : x ∉ s.params)
    {byLoop : Bool} (ho : Scope.Stored s x byLoop s') (hs : Settled H x s') :
    n = 0 ∧ x ∉ H ∧ s'.bindings.get? x = some ⟨s.path, byLoop⟩ := by
  cases h with
  | hoisted _ hd' | seen _ _ _ hd' => exact absurd hd' hd
  | unbound hh hnone _ hc =>
    refine ⟨hc, hh, ?_⟩
    cases ho with
    | param hp => exact absurd hp hx
    | first => split <;> simp [Scope.rebind, Scope.hoist]
    | sibling _ hb | again _ hb => simp [hnone] at hb
  | unseen hh hb hsee _ hc =>
    refine ⟨hc, hh, ?_⟩
    cases ho with
    | param hp => exact absurd hp hx
    | first _ hnone => simp [hb] at hnone
    | sibling => simp [Scope.rebind]
    | again => exact absurd hs (not_settled_touch hh hx hb hsee)

theorem get?_bind_of_ne {name : String} (hne : x ≠ name) (ty : Ty) (byLoop : Bool) :
    (s.bind name ty byLoop).bindings.get? x = s.bindings.get? x :=
  ((Scope.stored_bindName s name byLoop).bindings x).resolve_right fun h => hne h.1

theorem path_bind (s : Scope) (name : String) (ty : Ty) (byLoop : Bool) :
    (s.bind name ty byLoop).path = s.path :=
  (Scope.stored_bindName s name byLoop).path

/-- A store to a declared variable, for any variable. -/
theorem bind_declared {name : String} {ty : Ty} {byLoop : Bool} (h : Agrees H x s st n)
    (hd : name ∈ st.declared) (hx : x ∉ s.params) (hs : Settled H x (s.bind name ty byLoop)) :
    (name = x → n = 1) ∧ Agrees H x (s.bind name ty byLoop) st n ∧
      (x ∉ H → (s.bind name ty byLoop).bindings.get? x = s.bindings.get? x) := by
  have hb : (name = x → n = 1) ∧
      (x ∉ H → (s.bind name ty byLoop).bindings.get? x = s.bindings.get? x) := by
    by_cases hne : name = x
    · subst hne
      have := h.store hd hx (Scope.stored_bindName s name byLoop) hs
      exact ⟨fun _ => this.1, this.2⟩
    · exact ⟨fun he => absurd he hne, fun _ => get?_bind_of_ne (Ne.symm hne) ty byLoop⟩
  exact ⟨hb.1, h.congr hb.2 (path_bind ..) Iff.rfl, hb.2⟩

/-- A store that declares another variable. -/
theorem bind_other {name : String} (h : Agrees H x s st n) (hne : x ≠ name) (ty : Ty)
    (byLoop : Bool) : Agrees H x (s.bind name ty byLoop) (st.declare name) n :=
  h.congr (fun _ => get?_bind_of_ne hne ty byLoop) (path_bind ..) (by simp [Progress.declare, hne])

/-- A store that declares the variable. -/
theorem bind_fresh {ty : Ty} {byLoop : Bool} (h : Agrees H x s st n) (hd : x ∉ st.declared)
    (hx : x ∉ s.params) (hs : Settled H x (s.bind x ty byLoop)) :
    n = 0 ∧ x ∉ H ∧ (s.bind x ty byLoop).bindings.get? x = some ⟨s.path, byLoop⟩ ∧
      Agrees H x (s.bind x ty byLoop) (st.declare x) 1 := by
  obtain ⟨hn, hh, hb⟩ := h.fresh hd hx (Scope.stored_bindName s x byLoop) hs
  have hsees : (s.bind x ty byLoop).sees ⟨s.path, byLoop⟩ = true :=
    Scope.sees_iff.mpr ((path_bind s x ty byLoop).symm ▸ List.suffix_refl _)
  exact ⟨hn, hh, hb, .seen hh hb hsees (by simp [Progress.declare]) rfl⟩

/-- Leaving a block takes what was bound in it out of sight, with its declaration. -/
theorem exit (ht : s.Tidy) (h : Agrees H x s st n) (h₁ : Agrees H x s₁ st₁ m)
    (hp : s₁.path = s.enter.path)
    (hb : x ∉ H → s₁.bindings.get? x = s.bindings.get? x ∨
      ∃ b, s₁.bindings.get? x = some b ∧ s.enter.NewIn x b) : Agrees H x s₁.exit st₁ n := by
  have hexit : s₁.exit.path = s.path := by
    show s₁.path.tail = s.path
    rw [hp]
    rfl
  by_cases hh : x ∈ H
  · exact .hoisted hh (h₁.of_mem hh).1 (h.of_mem hh).2
  rcases hb hh with hk | ⟨b, hb, hnew⟩
  · -- The binding is older than the block, so it is seen inside just when it is seen outside.
    have hsees : ∀ b, s₁.bindings.get? x = some b → s₁.sees b = s.sees b ∧
        s₁.exit.sees b = s.sees b := by
      intro b hb
      rw [← ht.sees_enter (hk ▸ hb)]
      simp only [Scope.sees, hp, hexit, true_and]
      exact (ht.sees_enter (hk ▸ hb)).symm
    cases h₁ with
    | hoisted hm => exact absurd hm hh
    | unbound _ hn hd =>
      exact .unbound hh hn hd (h.count_eq_zero hh fun b hb => by simp [← hk, hn] at hb)
    | seen _ hb hs hd =>
      obtain ⟨hin, hout⟩ := hsees _ hb
      exact .seen hh hb (hout ▸ hin ▸ hs) hd (h.count_eq_one (hk ▸ hb) (hin ▸ hs))
    | unseen _ hb hs hd =>
      obtain ⟨hin, hout⟩ := hsees _ hb
      refine .unseen hh hb (hout ▸ hin ▸ hs) hd (h.count_eq_zero hh fun b' hb' => ?_)
      rw [← hk, hb] at hb'
      cases hb'
      exact hin ▸ hs
  · have hn : n = 0 := h.count_eq_zero hh fun b₀ hb₀ => ht.sees_enter hb₀ ▸ hnew.unseen b₀ hb₀
    have hout : s₁.exit.sees b = false := by
      rw [Bool.eq_false_iff, Ne, Scope.sees_iff, hexit]
      exact fun hsuf => s.not_enter_suffix hsuf hnew.inside
    refine .unseen hh hb hout ?_ hn
    intro hl
    cases h₁ with
    | hoisted hm => exact absurd hm hh
    | unbound _ hn => simp [hb] at hn
    | unseen _ hb' _ hd =>
      rw [hb] at hb'
      cases hb'
      exact hd hl
    | seen _ hb' hs =>
      rw [hb] at hb'
      cases hb'
      rw [Scope.sees_iff, hp] at hs
      simp [hnew.own (hs.eq_of_length_le hnew.inside.length_le)] at hl

theorem exit_leads (ht : s.Tidy) (h : Agrees H x s st n) (h₁ : Agrees H x s₁ st₁ m)
    (hl : s.enter.Leads s₁) : Agrees H x s₁.exit st₁ n :=
  h.exit ht h₁ hl.path fun _ => hl.bindings x

/-- Leaving a loop that bound its variable anew. -/
theorem exit_fresh {ty : Ty} (hh : x ∉ H)
    (hb : (s.enter.bind x ty true).bindings.get? x = some ⟨s.enter.path, true⟩)
    (hl : (s.enter.bind x ty true).Leads s₁) : Agrees H x s₁.exit (st₁.forget x) 0 := by
  have hpath : (s.enter.bind x ty true).path = s.enter.path :=
    (Scope.stored_bindName s.enter x true).path
  have hb₁ : s₁.bindings.get? x = some ⟨s.enter.path, true⟩ := by
    rcases hl.bindings x with hk | ⟨b, -, hnew⟩
    · exact hk.trans hb
    · have hsees : (s.enter.bind x ty true).sees ⟨s.enter.path, true⟩ = true :=
        Scope.sees_iff.mpr (hpath.symm ▸ List.suffix_refl _)
      simp [hnew.unseen _ hb] at hsees
  have hexit : s₁.exit.path = s.path := by
    show s₁.path.tail = s.path
    rw [hl.path, hpath]
    rfl
  refine .unseen hh hb₁ ?_ (fun _ => by simp [Progress.forget]) rfl
  rw [Bool.eq_false_iff, Ne, Scope.sees_iff, hexit]
  exact s.not_enter_suffix (List.suffix_refl _)

end Agrees

/-! ## Lines that declare a variable -/

section Lines
variable {x name : String} {b : List String} {sc : Cpp.Scopes} {names : List Name}

theorem count_spell_cons (x name : String) (b : List String) :
    (spell name :: b).count (spell x) = (if name = x then 1 else 0) + b.count (spell x) := by
  by_cases h : name = x
  · simp [h, Nat.add_comm]
  · rw [List.count_cons_of_ne (fun hs => h (Cpp.spell_inj hs)), if_neg h, Nat.zero_add]

theorem sound_declares (hname : name = x → (b :: sc).flatten.count (spell x) = 0)
    (huse : (∃ n ∈ names, n.text = spell x) → name = x ∨ (b :: sc).flatten.count (spell x) = 1) :
    Sound (spell x) (b :: sc) (.declares (.source name) :: names.map .uses) := by
  refine ⟨fun ht => List.count_eq_zero.mp (hname (Cpp.spell_inj ht)), Cpp.sound_uses fun hex => ?_⟩
  show (spell name :: (b :: sc).flatten).count (spell x) = 1
  rw [count_spell_cons]
  by_cases hx : name = x
  · rw [if_pos hx, hname hx]
  · rw [if_neg hx, (huse hex).resolve_left hx]

theorem after_declares :
    Cpp.Scopes.after (b :: sc) (.declares (.source name) :: names.map .uses) =
      (spell name :: b) :: sc :=
  Cpp.Scopes.after_uses _ names

end Lines

/-! ## Heads of loops -/

section Heads
variable {f : Frame} {x name : String} {st st₁ : Progress} {iterable : Expr} {head : LoopHead}
  {first : List Cpp.Stmt} {b : List String} {sc : Cpp.Scopes}

/-- A hidden name that no variable has is not how one is spelled. -/
theorem hiddenName_ne_spell {stem : Cpp.Stem} {n : Nat} (hx : x ∈ f.varNames)
    (hfree : Cpp.hiddenName stem n ∉ f.varNames) : Cpp.hiddenName stem n ≠ spell x := by
  intro h
  exact hfree (Cpp.eq_of_spell_eq_hiddenName h.symm ▸ hx)

theorem sound_hiddenHead {n : Nat} {stems : List Cpp.Stem} (hx : x ∈ f.varNames)
    (hfree : ∀ s ∈ stems, Cpp.hiddenName s n ∉ f.varNames)
    (hd : Cpp.declaredNames head.marks = stems.map (.hidden · n))
    (hu : Cpp.usedNames head.marks ⊆ stems.map (.hidden · n) ++ iterable.vars.map .source)
    (hread : x ∈ iterable.vars → (b :: sc).flatten.count (spell x) = 1) :
    Sound (spell x) ([] :: b :: sc) head.marks ∧
      ∃ d, Cpp.Scopes.after ([] :: b :: sc) head.marks = d :: b :: sc ∧ d.count (spell x) = 0 := by
  have hne : ∀ n' ∈ stems.map (Name.hidden · n), n'.text ≠ spell x := by
    intro n' hn'
    obtain ⟨s, hs, rfl⟩ := List.mem_map.mp hn'
    exact hiddenName_ne_spell hx (hfree s hs)
  refine Cpp.sound_of_flat head.marks_flat (fun n' hn' => hne n' (hd ▸ hn')) ?_
  rintro ⟨n', hn', ht⟩
  rcases List.mem_append.mp (hu hn') with hm | hm
  · exact absurd ht (hne n' hm)
  · obtain ⟨y, hy, rfl⟩ := List.mem_map.mp hm
    exact hread (Cpp.spell_inj ht ▸ hy)

/-- The head and the first store of a loop that declares its variable. -/
theorem sound_freshHead (hh : f.HeadOf st name iterable head first st₁) (hx : x ∈ f.varNames)
    (hfresh : name ∉ st.declared)
    (hread : x ∈ iterable.vars → (b :: sc).flatten.count (spell x) = 1)
    (hname : name = x → (b :: sc).flatten.count (spell x) = 0) :
    Sound (spell x) ([] :: b :: sc) (head.marks ++ (Cpp.blockMarks first).flatten) ∧
      ∃ d, Cpp.Scopes.after ([] :: b :: sc) (head.marks ++ (Cpp.blockMarks first).flatten) =
        d :: b :: sc ∧ d.count (spell x) = if name = x then 1 else 0 := by
  cases hh with
  | own used _ hm hu =>
    simp only [hm, Cpp.blockMarks, List.flatten_nil, List.append_nil]
    refine ⟨sound_declares hname ?_, [spell name], after_declares, count_spell_cons x name []⟩
    rintro ⟨n, hn, ht⟩
    rcases List.mem_cons.mp (hu hn) with rfl | hn
    · exact .inl (Cpp.spell_inj ht)
    · obtain ⟨y, hy, rfl⟩ := List.mem_map.mp hn
      exact .inr (hread (Cpp.spell_inj ht ▸ hy))
  | @hidden value n stems _ _ hfree hd hu hv =>
    obtain ⟨hs, d, hafter, hcount⟩ := sound_hiddenHead hx hfree hd hu hread
    have hline : (Cpp.blockMarks [f.loopStore (name ∉ st.declared) name value]).flatten =
        .declares (.source name) :: value.names.map .uses := by
      simp [Frame.loopStore, hfresh, Cpp.blockMarks, Cpp.Stmt.marks, Cpp.Expr.uses]
    rw [hline, Cpp.sound_append, Cpp.Scopes.after_append, hafter]
    refine ⟨⟨hs, sound_declares ?_ ?_⟩, spell name :: d, after_declares, ?_⟩
    · intro h
      rw [List.flatten_cons, List.count_append, hcount, hname h]
    · rintro ⟨n', hn', ht⟩
      obtain ⟨stem, hstem, rfl⟩ := List.mem_map.mp (hv hn')
      exact absurd ht (hiddenName_ne_spell hx (hfree stem hstem))
    · rw [count_spell_cons, hcount, Nat.add_zero]

/-- The head and the first store of a loop over a variable that is declared before it. -/
theorem sound_storedHead (hh : f.HeadOf st name iterable head first st₁) (hx : x ∈ f.varNames)
    (hdecl : name ∈ st.declared)
    (hread : x ∈ iterable.vars → (b :: sc).flatten.count (spell x) = 1)
    (hname : name = x → (b :: sc).flatten.count (spell x) = 1) :
    Sound (spell x) ([] :: b :: sc) (head.marks ++ (Cpp.blockMarks first).flatten) ∧
      ∃ d, Cpp.Scopes.after ([] :: b :: sc) (head.marks ++ (Cpp.blockMarks first).flatten) =
        d :: b :: sc ∧ d.count (spell x) = 0 := by
  cases hh with
  | own _ hfresh => exact absurd hdecl hfresh
  | @hidden value n stems _ _ hfree hd hu hv =>
    obtain ⟨hs, d, hafter, hcount⟩ := sound_hiddenHead hx hfree hd hu hread
    have hline : (Cpp.blockMarks [f.loopStore (name ∉ st.declared) name value]).flatten =
        (.source name :: value.names).map .uses := by
      simp [Frame.loopStore, hdecl, Cpp.blockMarks, Cpp.Stmt.marks, Cpp.Expr.uses, Cpp.Expr.names]
    rw [hline, Cpp.sound_append, Cpp.Scopes.after_append, hafter]
    refine ⟨⟨hs, Cpp.sound_uses ?_⟩, d, Cpp.Scopes.after_uses _ _, hcount⟩
    rintro ⟨n', hn', ht⟩
    rcases List.mem_cons.mp hn' with rfl | hn'
    · rw [List.flatten_cons, List.count_append, hcount, hname (Cpp.spell_inj ht)]
    · obtain ⟨stem, hstem, rfl⟩ := List.mem_map.mp (hv hn')
      exact absurd ht (hiddenName_ne_spell hx (hfree stem hstem))

end Heads

/-! ## Statements -/

/-- Walking a statement and emitting its marks keeps a variable in agreement. -/
def Keeps (H : List String) (x : String) (walk : Visit → Visit) (st : Progress) (ms : List Mark)
    (st' : Progress) : Prop :=
  ∀ (v : Visit) (b : List String) (sc : Cpp.Scopes), v.scope.Tidy → x ∉ v.scope.params →
    Settled H x (walk v).scope → Agrees H x v.scope st ((b :: sc).flatten.count (spell x)) →
    Sound (spell x) (b :: sc) ms ∧
      Agrees H x (walk v).scope st' ((Cpp.Scopes.after (b :: sc) ms).flatten.count (spell x))

/-- The same of what follows the block of a condition, which is still open. -/
def KeepsElse (H : List String) (x : String) (walk : Visit → Visit) (st : Progress)
    (ms : List Mark) (st' : Progress) : Prop :=
  ∀ (v : Visit) (d b : List String) (sc : Cpp.Scopes), v.scope.Tidy → x ∉ v.scope.params →
    Settled H x (walk v).scope → Agrees H x v.scope st ((b :: sc).flatten.count (spell x)) →
    Sound (spell x) (d :: b :: sc) ms ∧
      Agrees H x (walk v).scope st' ((b :: sc).flatten.count (spell x))

section Statements
variable {f : Frame} {H : List String} {x r name : String} {s s' : Scope} {st st₁ st₂ : Progress}
  {b : List String} {sc : Cpp.Scopes} {xs : List String} {c : Cpp.Expr} {cond value iterable : Expr}
  {body : List Stmt} {orelse : Option (List Stmt)} {cbody first : List Cpp.Stmt} {celse : Cpp.Else}
  {head : LoopHead}

theorem sound_reads (ha : Agrees H x s st (sc.flatten.count (spell x))) (hx : x ∉ s.params)
    (hr : s.Reads xs s') (hs : Settled H x s') {names : List Name}
    (hn : names ⊆ xs.map .source) : Sound (spell x) sc (names.map .uses) := by
  apply Cpp.sound_uses
  rintro ⟨n, hmem, ht⟩
  obtain ⟨y, hy, rfl⟩ := List.mem_map.mp (hn hmem)
  cases Cpp.spell_inj ht
  exact ha.count_of_noted hx (hr.2 x hy) hs

theorem keeps_onlyUses {walk : Visit → Visit} {line : Cpp.Stmt} (h : Frame.OnlyUses xs line)
    (hr : ∀ v : Visit, v.scope.Reads xs (walk v).scope) :
    Keeps H x walk st (Cpp.blockMarks [line]).flatten st := by
  obtain ⟨names, hm, hn⟩ := h
  intro v b sc _ hx hs ha
  simp only [Cpp.blockMarks, hm, List.append_nil, List.flatten_cons, List.flatten_nil,
    Cpp.Scopes.after_uses]
  exact ⟨sound_reads ha hx (hr v) hs hn, ha.touched (hr v).1⟩

theorem keeps_store (hd : name ∈ st.declared) (hc : f.expr value = .ok c) :
    Keeps H x (Visit.stmt r (.assign name value)) st
      (Cpp.blockMarks [.store (.var (.source name)) c]).flatten st := by
  intro v b sc ht hx hs ha
  have hr := Visit.reads_expr value v
  have hline : (Cpp.blockMarks [.store (.var (.source name)) c]).flatten =
      (.source name :: c.names).map .uses := by
    simp [Cpp.blockMarks, Cpp.Stmt.marks, Cpp.Expr.uses, Cpp.Expr.names]
  obtain ⟨hone, ha', -⟩ := (ha.touched hr.1).bind_declared hd (hr.1.params ▸ hx) hs
  rw [hline, Cpp.Scopes.after_uses]
  refine ⟨⟨fun hn => hone (Cpp.spell_inj hn), ?_⟩, ha'⟩
  exact sound_reads ha hx hr (hs.of_leads (Scope.leads_bind ..)) (Frame.names_subset_of_expr hc)

theorem keeps_declare {ty : Cpp.DeclType} (hd : name ∉ st.declared)
    (hc : f.initial ty value = .ok c) :
    Keeps H x (Visit.stmt r (.assign name value)) st
      (Cpp.blockMarks [.declare ty (.source name) c]).flatten (st.declare name) := by
  intro v b sc ht hx hs ha
  have hr := Visit.reads_expr value v
  have ha₁ := ha.touched hr.1
  have hline : (Cpp.blockMarks [.declare ty (.source name) c]).flatten =
      .declares (.source name) :: c.names.map .uses := by
    simp [Cpp.blockMarks, Cpp.Stmt.marks, Cpp.Expr.uses]
  have huse : (∃ n ∈ c.names, n.text = spell x) → (b :: sc).flatten.count (spell x) = 1 := by
    rintro ⟨n, hn, ht⟩
    obtain ⟨y, hy, rfl⟩ := List.mem_map.mp (Frame.names_subset_of_initial hc hn)
    cases Cpp.spell_inj ht
    exact ha.count_of_noted hx (hr.2 x hy) (hs.of_leads (Scope.leads_bind ..))
  rw [hline, after_declares, List.flatten_cons, List.cons_append, count_spell_cons]
  by_cases hn : name = x
  · subst hn
    obtain ⟨hzero, -, -, ha'⟩ := ha₁.bind_fresh hd (hr.1.params ▸ hx) hs
    refine ⟨sound_declares (fun _ => hzero) fun _ => .inl rfl, ?_⟩
    rw [if_pos rfl, ← List.flatten_cons, hzero]
    exact ha'
  · refine ⟨sound_declares (fun h => absurd h hn) fun h => .inr (huse h), ?_⟩
    rw [if_neg hn, Nat.zero_add]
    exact ha₁.bind_other (Ne.symm hn) _ _

/-- A body in a block of its own. -/
theorem keeps_body {ms : List Mark} (hk : Keeps H x (Visit.block r body) st ms st₁) {v : Visit}
    (ht : v.scope.Tidy) (hx : x ∉ v.scope.params)
    (hs : Settled H x (Visit.block r body v.enter).exit.scope)
    (ha : Agrees H x v.scope st ((b :: sc).flatten.count (spell x))) :
    Sound (spell x) ([] :: b :: sc) ms ∧
      Agrees H x (Visit.block r body v.enter).exit.scope st₁
        ((b :: sc).flatten.count (spell x)) := by
  obtain ⟨hsound, ha₁⟩ := hk v.enter [] (b :: sc) ht.enter hx hs (ha.enter ht)
  exact ⟨hsound, ha.exit_leads ht ha₁ (Visit.leads_block r body v.enter ht.enter).2⟩

theorem keeps_ifElse (hc : f.expr cond = .ok c)
    (hb : Keeps H x (Visit.block r body) st (Cpp.blockMarks cbody).flatten st₁)
    (he : KeepsElse H x (Visit.otherwise r orelse) st₁ celse.marks.flatten st₂) :
    Keeps H x (Visit.stmt r (.ifElse cond body orelse)) st
      (Cpp.blockMarks [.ifElse (f.truth cond c) cbody celse]).flatten st₂ := by
  intro v b sc ht hx hs ha
  have hr := Visit.reads_expr cond v
  have ht₁ := ht.touched hr.1
  have hx₁ : x ∉ (Visit.expr cond v).scope.params := hr.1.params ▸ hx
  have hleads := Visit.leads_block r body (Visit.expr cond v).enter ht₁.enter
  have hleads₁ := Scope.leads_block ht₁ hleads.2
  have hleads₂ := Visit.leads_otherwise r orelse
    (Visit.block r body (Visit.expr cond v).enter).exit hleads.1.exit
  have hs₁ := hs.of_leads hleads₂.2
  obtain ⟨hsb, hab⟩ := keeps_body hb ht₁ hx₁ hs₁ (ha.touched hr.1)
  obtain ⟨hse, hae⟩ := he _ (Cpp.blockOwn cbody ++ []) b sc hleads.1.exit
    (hleads₁.params.symm ▸ hx₁) hs hab
  have hline : (Cpp.blockMarks [.ifElse (f.truth cond c) cbody celse]).flatten =
      c.names.map .uses ++ .opens :: ((Cpp.blockMarks cbody).flatten ++ celse.marks.flatten) := by
    simp [Cpp.blockMarks, Cpp.Stmt.marks, Cpp.Expr.uses]
  rw [Cpp.after_blockMarks, hline, Cpp.sound_append, Cpp.Scopes.after_uses]
  refine ⟨⟨?_, trivial, Cpp.sound_append.mpr ⟨hsb, ?_⟩⟩, hae⟩
  · exact sound_reads ha hx hr (hs₁.of_leads hleads₁) (Frame.names_subset_of_expr hc)
  · exact (Cpp.after_blockMarks [] (b :: sc) cbody).symm ▸ hse

theorem keeps_whileLoop (hc : f.expr cond = .ok c)
    (hb : Keeps H x (Visit.block r body) st (Cpp.blockMarks cbody).flatten st₁) :
    Keeps H x (Visit.stmt r (.whileLoop cond body)) st
      (Cpp.blockMarks [.whileLoop (f.truth cond c) cbody]).flatten st₁ := by
  intro v b sc ht hx hs ha
  have hr := Visit.reads_expr cond v
  have ht₁ := ht.touched hr.1
  have hleads := Visit.leads_block r body (Visit.expr cond v).enter ht₁.enter
  obtain ⟨hsb, hab⟩ := keeps_body hb ht₁ (hr.1.params.symm ▸ hx) hs (ha.touched hr.1)
  have hline : (Cpp.blockMarks [.whileLoop (f.truth cond c) cbody]).flatten =
      c.names.map .uses ++ .opens :: ((Cpp.blockMarks cbody).flatten ++ [.closes]) := by
    simp [Cpp.blockMarks, Cpp.Stmt.marks, Cpp.Expr.uses]
  rw [Cpp.after_blockMarks, hline, Cpp.sound_append, Cpp.Scopes.after_uses]
  refine ⟨⟨?_, trivial, Cpp.sound_append.mpr ⟨hsb, trivial, trivial⟩⟩, hab⟩
  exact sound_reads ha hx hr (hs.of_leads (Scope.leads_block ht₁ hleads.2))
    (Frame.names_subset_of_expr hc)

theorem marks_loop_first (head : LoopHead) (first cbody : List Cpp.Stmt) :
    (Cpp.blockMarks [head.loop (first ++ cbody)]).flatten =
      .opens :: ((head.marks ++ (Cpp.blockMarks first).flatten) ++
        ((Cpp.blockMarks cbody).flatten ++ [.closes])) := by
  simp [Cpp.blockMarks, LoopHead.marks_loop, Cpp.blockMarks_append]

/-- The marks of a loop, from those of its head and its body. -/
theorem sound_loop {d : List String}
    (hh : Sound (spell x) ([] :: b :: sc) (head.marks ++ (Cpp.blockMarks first).flatten))
    (hafter : Cpp.Scopes.after ([] :: b :: sc) (head.marks ++ (Cpp.blockMarks first).flatten) =
      d :: b :: sc)
    (hb : Sound (spell x) (d :: b :: sc) (Cpp.blockMarks cbody).flatten) :
    Sound (spell x) (b :: sc) (Cpp.blockMarks [head.loop (first ++ cbody)]).flatten := by
  rw [marks_loop_first]
  refine ⟨trivial, Cpp.sound_append.mpr ⟨hh, ?_⟩⟩
  refine Cpp.sound_append.mpr ⟨?_, trivial, trivial⟩
  exact hafter.symm ▸ hb

/-- A walk through a loop changes the binding of a variable only as a block does, if the loop does
not bind it anew. -/
theorem bindings_of_loop {ty : Ty} {s₁ : Scope} (hl : (s.enter.bind name ty true).Leads s₁)
    (hk : (s.enter.bind name ty true).bindings.get? x = s.bindings.get? x) :
    s₁.bindings.get? x = s.bindings.get? x ∨
      ∃ b, s₁.bindings.get? x = some b ∧ s.enter.NewIn x b := by
  have hpath := Agrees.path_bind s.enter name ty true
  rcases hl.bindings x with h | ⟨b, hb, hnew⟩
  · exact .inl (h.trans hk)
  · refine .inr ⟨b, hb, hpath ▸ hnew.inside, fun h => hnew.own (h.trans hpath.symm), ?_⟩
    intro b₀ hb₀
    have hunseen := hnew.unseen b₀ (hk.trans hb₀)
    rwa [Scope.sees, hpath] at hunseen

theorem keeps_loop (hh : f.HeadOf st name iterable head first st₁) (hvar : x ∈ f.varNames)
    (hd : name ∈ st₁.declared)
    (hb : Keeps H x (Visit.block r body) st₁ (Cpp.blockMarks cbody).flatten st₂) :
    Keeps H x (Visit.stmt r (.forLoop name iterable body)) st
      (Cpp.blockMarks [head.loop (first ++ cbody)]).flatten st₂ := by
  intro v b sc ht hx hs ha
  have hr := Visit.reads_expr iterable v
  have ht₁ := ht.touched hr.1
  have ha₁ := ha.touched hr.1
  have hx₁ : x ∉ (Visit.expr iterable v).scope.params := hr.1.params ▸ hx
  let w := (Visit.expr iterable v).enter.bind name
    (Visit.elementTy ((Visit.expr iterable v).typeOf iterable)) true
  have htw : w.scope.Tidy := ht₁.enter.bind ..
  have hleads : w.scope.Leads (Visit.block r body w).scope := (Visit.leads_block r body w htw).2
  obtain ⟨hone, haw, hk⟩ := (ha₁.enter ht₁).bind_declared (hh.declared ▸ hd) hx₁
    (hs.of_leads hleads)
  have hread : x ∈ iterable.vars → (b :: sc).flatten.count (spell x) = 1 := fun hm =>
    ha.count_of_noted hx (hr.2 x hm) (hs.of_leads (Scope.leads_loop ht₁ hleads))
  obtain ⟨hsh, d, hafter, hcount⟩ := sound_storedHead hh hvar (hh.declared ▸ hd) hread hone
  have haw₁ : Agrees H x w.scope st₁ ((d :: b :: sc).flatten.count (spell x)) := by
    rw [List.flatten_cons, List.count_append, hcount, Nat.zero_add]
    exact haw.congr (fun _ => rfl) rfl (by rw [hh.declared])
  obtain ⟨hsb, hab⟩ := hb w d (b :: sc) htw
    ((Scope.stored_bindName ..).params.symm ▸ hx₁) hs haw₁
  refine ⟨sound_loop hsh hafter hsb, ?_⟩
  rw [Cpp.after_blockMarks]
  simp only [Cpp.blockOwn, LoopHead.own_loop, List.nil_append]
  refine ha₁.exit ht₁ hab ?_ fun hn => bindings_of_loop hleads (hk hn)
  exact hleads.path.trans (Agrees.path_bind ..)

theorem keeps_freshLoop (hh : f.HeadOf st name iterable head first st₁) (hvar : x ∈ f.varNames)
    (hd : name ∉ st₁.declared)
    (hb : Keeps H x (Visit.block r body) (st₁.declare name) (Cpp.blockMarks cbody).flatten st₂) :
    Keeps H x (Visit.stmt r (.forLoop name iterable body)) st
      (Cpp.blockMarks [head.loop (first ++ cbody)]).flatten (st₂.forget name) := by
  intro v b sc ht hx hs ha
  have hr := Visit.reads_expr iterable v
  have ht₁ := ht.touched hr.1
  have ha₁ : Agrees H x (Visit.expr iterable v).scope st₁ ((b :: sc).flatten.count (spell x)) :=
    (ha.touched hr.1).congr (fun _ => rfl) rfl (by rw [hh.declared])
  have hx₁ : x ∉ (Visit.expr iterable v).scope.params := hr.1.params ▸ hx
  let w := (Visit.expr iterable v).enter.bind name
    (Visit.elementTy ((Visit.expr iterable v).typeOf iterable)) true
  have htw : w.scope.Tidy := ht₁.enter.bind ..
  have hleads : w.scope.Leads (Visit.block r body w).scope := (Visit.leads_block r body w htw).2
  have hread : x ∈ iterable.vars → (b :: sc).flatten.count (spell x) = 1 := fun hm =>
    ha.count_of_noted hx (hr.2 x hm) (hs.of_leads (Scope.leads_loop ht₁ hleads))
  have hxw : x ∉ w.scope.params := (Scope.stored_bindName ..).params.symm ▸ hx₁
  rw [Cpp.after_blockMarks]
  simp only [Cpp.blockOwn, LoopHead.own_loop, List.nil_append]
  by_cases hn : name = x
  · subst hn
    obtain ⟨hzero, hH, hbound, haw⟩ := (ha₁.enter ht₁).bind_fresh hd hx₁ (hs.of_leads hleads)
    obtain ⟨hsh, d, hafter, hcount⟩ := sound_freshHead hh hvar (hh.declared ▸ hd) hread
      fun _ => hzero
    have haw₁ : Agrees H name w.scope (st₁.declare name)
        ((d :: b :: sc).flatten.count (spell name)) := by
      rw [List.flatten_cons, List.count_append, hcount, if_pos rfl, hzero]
      exact haw
    refine ⟨sound_loop hsh hafter (hb w d (b :: sc) htw hxw hs haw₁).1, ?_⟩
    rw [hzero]
    exact Agrees.exit_fresh hH hbound hleads
  · obtain ⟨hsh, d, hafter, hcount⟩ := sound_freshHead hh hvar (hh.declared ▸ hd) hread
      fun h => absurd h hn
    have haw₁ : Agrees H x w.scope (st₁.declare name)
        ((d :: b :: sc).flatten.count (spell x)) := by
      rw [List.flatten_cons, List.count_append, hcount, if_neg hn, Nat.zero_add]
      exact (ha₁.enter ht₁).bind_other (Ne.symm hn) _ _
    obtain ⟨hsb, hab⟩ := hb w d (b :: sc) htw hxw hs haw₁
    refine ⟨sound_loop hsh hafter hsb, ?_⟩
    have hforget : x ∈ (st₂.forget name).declared ↔ x ∈ st₂.declared := by
      simp [Progress.forget, Ne.symm hn]
    have hab' := hab.congr (fun _ => rfl) rfl hforget
    refine ha₁.exit ht₁ hab' (hleads.path.trans (Agrees.path_bind ..)) fun _ => ?_
    exact bindings_of_loop hleads (Agrees.get?_bind_of_ne (Ne.symm hn) _ _)

theorem keepsElse_nothing :
    KeepsElse H x (Visit.otherwise r none) st (Cpp.Else.nothing).marks.flatten st :=
  fun _ _ _ _ _ _ _ ha => ⟨⟨trivial, trivial⟩, ha⟩

theorem keepsElse_elseIf (hc : f.expr cond = .ok c)
    (hb : Keeps H x (Visit.block r body) st (Cpp.blockMarks cbody).flatten st₁)
    (he : KeepsElse H x (Visit.otherwise r orelse) st₁ celse.marks.flatten st₂) :
    KeepsElse H x (Visit.otherwise r (some [.ifElse cond body orelse])) st
      (Cpp.Else.elseIf (f.truth cond c) cbody celse).marks.flatten st₂ := by
  intro v d b sc ht hx hs ha
  have hleads := Visit.leads_block r [.ifElse cond body orelse] v.enter ht.enter
  obtain ⟨hsound, ha₁⟩ := keeps_ifElse hc hb he v.enter b sc ht.enter hx hs (ha.enter ht)
  rw [Cpp.after_blockMarks] at ha₁
  refine ⟨⟨trivial, ?_⟩, ha.exit_leads ht ha₁ hleads.2⟩
  simpa [Cpp.blockMarks, Cpp.Stmt.marks, Mark.step] using hsound

theorem keepsElse_block
    (hb : Keeps H x (Visit.block r body) st (Cpp.blockMarks cbody).flatten st₁) :
    KeepsElse H x (Visit.otherwise r (some body)) st (Cpp.Else.block cbody).marks.flatten st₁ := by
  intro v d b sc ht hx hs ha
  obtain ⟨hsb, hab⟩ := keeps_body hb ht hx hs ha
  have hline : (Cpp.Else.block cbody).marks.flatten =
      .closes :: .opens :: ((Cpp.blockMarks cbody).flatten ++ [.closes]) := by
    simp [Cpp.Else.marks]
  rw [hline]
  exact ⟨⟨trivial, trivial, Cpp.sound_append.mpr ⟨hsb, trivial, trivial⟩⟩, hab⟩

theorem keeps_nil : Keeps H x (Visit.block r []) st (Cpp.blockMarks []).flatten st :=
  fun _ _ _ _ _ _ ha => ⟨trivial, ha⟩

theorem keeps_cons {here later : List Cpp.Stmt} {stmt : Stmt}
    (hs : Keeps H x (Visit.stmt r stmt) st (Cpp.blockMarks here).flatten st₁)
    (hb : Keeps H x (Visit.block r body) st₁ (Cpp.blockMarks later).flatten st₂) :
    Keeps H x (Visit.block r (stmt :: body)) st (Cpp.blockMarks (here ++ later)).flatten st₂ := by
  intro v b sc ht hx hset ha
  obtain ⟨ht₁, hleads⟩ := Visit.leads_stmt r stmt v ht
  have hleads₂ := (Visit.leads_block r body (Visit.stmt r stmt v) ht₁).2
  obtain ⟨hsound, ha₁⟩ := hs v b sc ht hx (hset.of_leads hleads₂) ha
  rw [Cpp.blockMarks_append, List.flatten_append, Cpp.sound_append, Cpp.Scopes.after_append]
  rw [Cpp.after_blockMarks] at ha₁ ⊢
  obtain ⟨hsound₂, ha₂⟩ := hb _ _ sc ht₁ (hleads.params.symm ▸ hx) hset ha₁
  exact ⟨⟨hsound, hsound₂⟩, ha₂⟩

theorem reads_ret (value : Option Expr) (v : Visit) :
    v.scope.Reads (Expr.varsOfOption value) (Visit.stmt r (.ret value) v).scope := by
  cases value with
  | none => exact .nil v.scope
  | some e =>
    rw [Visit.stmt]
    split <;> exact Visit.reads_expr e v

end Statements

namespace Frame
variable {f : Frame} {H : List String} {x r : String}

mutual

theorem EmitsStmt.keeps (hvar : x ∈ f.varNames) : ∀ {inLoop : Bool} {st st' : Progress} {s : Stmt}
    {cs : List Cpp.Stmt}, f.EmitsStmt inLoop st s cs st' →
    Keeps H x (Visit.stmt r s) st (Cpp.blockMarks cs).flatten st'
  | _, _, _, _, _, .store _ hd hc => keeps_store hd hc
  | _, _, _, _, _, .declare _ hd hc => keeps_declare hd hc
  | _, _, _, .assignAt target position value, _, .assignAt hc =>
    keeps_onlyUses (onlyUses_of_assignAt hc) fun v =>
      ((Visit.reads_expr target v).append (Visit.reads_expr position _)).append
        (Visit.reads_expr value _)
  | _, _, _, .print args, _, .print hc =>
    keeps_onlyUses (onlyUses_of_print hc) (Visit.reads_exprs args)
  | _, _, _, _, _, .ifElse hc hb he => keeps_ifElse hc (hb.keeps hvar) (he.keeps hvar)
  | _, _, _, _, _, .whileLoop hc hb => keeps_whileLoop hc (hb.keeps hvar)
  | _, _, _, _, _, .freshLoop hh hd hb =>
    keeps_freshLoop (headOf_of_loopHead hh) hvar hd (hb.keeps hvar)
  | _, _, _, _, _, .loop hh hd hb => keeps_loop (headOf_of_loopHead hh) hvar hd (hb.keeps hvar)
  | _, _, _, .ret value, _, .ret hc => keeps_onlyUses (onlyUses_of_ret hc) (reads_ret value)
  | _, _, _, .eval e, _, .eval hc =>
    keeps_onlyUses (onlyUses_of_eval hc) (Visit.reads_expr e)
  | _, _, _, _, _, .pass => fun _ _ _ _ _ _ ha => ⟨trivial, ha⟩
  | _, _, _, _, _, .break_ | _, _, _, _, _, .continue_ => fun _ _ _ _ _ _ ha => ⟨trivial, ha⟩

theorem EmitsBlock.keeps (hvar : x ∈ f.varNames) : ∀ {inLoop : Bool} {st st' : Progress}
    {body : List Stmt} {cs : List Cpp.Stmt}, f.EmitsBlock inLoop st body cs st' →
    Keeps H x (Visit.block r body) st (Cpp.blockMarks cs).flatten st'
  | _, _, _, _, _, .nil => keeps_nil
  | _, _, _, _, _, .cons hs hb => keeps_cons (hs.keeps hvar) (hb.keeps hvar)

theorem EmitsElse.keeps (hvar : x ∈ f.varNames) : ∀ {inLoop : Bool} {st st' : Progress}
    {orelse : Option (List Stmt)} {ce : Cpp.Else}, f.EmitsElse inLoop st orelse ce st' →
    KeepsElse H x (Visit.otherwise r orelse) st ce.marks.flatten st'
  | _, _, _, _, _, .nothing => keepsElse_nothing
  | _, _, _, _, _, .elseIf hc hb he => keepsElse_elseIf hc (hb.keeps hvar) (he.keeps hvar)
  | _, _, _, _, _, .block hb => keepsElse_block (hb.keeps hvar)

end

end Frame

end Braces
