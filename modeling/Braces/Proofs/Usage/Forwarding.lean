import Braces.Proofs.Absorption
import Braces.Proofs.Settling
import Braces.Proofs.Usage.Marks
import Mathlib.Data.List.Nodup
import Mathlib.Logic.Relation

/-!
# Forwarding

A parameter is forwarded to another one where a body passes it on as it is. Marks run backwards
along chains of forwarded parameters, and nowhere else: a mark is set exactly if some chain from the
parameter ends in one that calls for the mark by itself, however the calls are nested or recursive
and in whatever order the functions stand. Inference keeps the marks, and at its end the mode of a
parameter follows them.
-/

namespace Braces

/-- The body of a function passes one of its parameters on to another parameter. -/
def Forwards (fs : List Function) (a b : Function × Nat) : Prop :=
  b.1 ∈ fs ∧ b.2 < b.1.params.length ∧
    ∃ x, a.1.params[a.2]? = some x ∧ Passes a.1.body x b.1.name b.2

/-- A chain of forwarded parameters ends in one with which its function does something. -/
def Reaches (fs : List Function) (does : List Stmt → String → Prop) (a : Function × Nat) : Prop :=
  ∃ b x, Relation.ReflTransGen (Forwards fs) a b ∧ b.1.params[b.2]? = some x ∧ does b.1.body x

namespace Reaches

variable {fs : List Function} {does does' : List Stmt → String → Prop}

theorem direct {f : Function} {i : Nat} {x : String} (hx : f.params[i]? = some x)
    (h : does f.body x) : Reaches fs does (f, i) :=
  ⟨(f, i), x, .refl, hx, h⟩

theorem forwarded {a b : Function × Nat} (hab : Forwards fs a b) (h : Reaches fs does b) :
    Reaches fs does a := by
  obtain ⟨c, x, hchain, hx, hdoes⟩ := h
  exact ⟨c, x, .head hab hchain, hx, hdoes⟩

theorem mono (hmono : ∀ body x, does body x → does' body x) {a : Function × Nat}
    (h : Reaches fs does a) : Reaches fs does' a := by
  obtain ⟨b, x, hchain, hx, hdoes⟩ := h
  exact ⟨b, x, hchain, hx, hmono _ _ hdoes⟩

/-- What holds where a function does something by itself and goes back along forwarding holds
wherever it is reached. -/
theorem induct {P : Function × Nat → Prop}
    (hdirect : ∀ a x, a.1.params[a.2]? = some x → does a.1.body x → P a)
    (hforwarded : ∀ a b, Forwards fs a b → Reaches fs does b → P b → P a)
    {a : Function × Nat} (h : Reaches fs does a) : P a := by
  obtain ⟨c, x, hchain, hx, hdoes⟩ := h
  induction hchain using Relation.ReflTransGen.head_induction_on with
  | refl => exact hdirect c x hx hdoes
  | head hab hbc ih => exact hforwarded _ _ hab ⟨c, x, hbc, hx, hdoes⟩ ih

end Reaches

theorem StoresInto.usesAsSequence {body : List Stmt} {x : String} (h : StoresInto body x) :
    UsesAsSequence body x :=
  .inr (.inr (.inl h))

theorem find?_eq_some_iff_of_nodup {α β : Type} [DecidableEq β] {key : α → β} {l : List α}
    (h : (l.map key).Nodup) {k : β} {a : α} :
    l.find? (key · = k) = some a ↔ a ∈ l ∧ key a = k := by
  constructor
  · intro hfind
    exact ⟨List.mem_of_find?_eq_some hfind, by simpa using List.find?_some hfind⟩
  · rintro ⟨ha, rfl⟩
    cases hfind : l.find? (key · = key a) with
    | none => exact absurd (List.find?_eq_none.1 hfind a ha) (by simp)
    | some b =>
      have hb : key b = key a := by simpa using List.find?_some hfind
      rw [List.inj_on_of_nodup_map h (List.mem_of_find?_eq_some hfind) ha hb]

namespace Table

variable {fs : List Function} {t : Table}

/-- The table has the functions of a list, with their parameters. -/
def Lists (fs : List Function) (t : Table) : Prop :=
  t.names = fs.map fun f => (f.name, f.params)

theorem lists_declared (fs : List Function) : Lists fs ⟨fs.map Function.signature, .empty⟩ := by
  rw [Lists, names, List.map_map]
  refine List.map_congr_left fun f _ => ?_
  simp [Function.signature, Function.comp_def]

namespace Lists

theorem exists_function (h : Lists fs t) {function : String} {i : Nat} {q : Param}
    (hq : (t.paramsOf function)[i]? = some q) :
    ∃ f ∈ fs, f.name = function ∧ f.params[i]? = some q.name := by
  have hname : ((t.paramsOf function).map (·.name))[i]? = some q.name := by
    rw [List.getElem?_map, hq]
    rfl
  rw [map_name_paramsOf, h, List.find?_map] at hname
  cases hfind : fs.find? (·.name = function) with
  | none =>
    simp only [Function.comp_def, hfind] at hname
    cases hname
  | some f =>
    simp only [Function.comp_def, hfind, Option.map_some, Option.getD_some] at hname
    exact ⟨f, List.mem_of_find?_eq_some hfind, by simpa using List.find?_some hfind, hname⟩

theorem exists_param (h : Lists fs t) (hnodup : (fs.map (·.name)).Nodup) {f : Function}
    (hf : f ∈ fs) {i : Nat} {x : String} (hx : f.params[i]? = some x) :
    ∃ q, (t.paramsOf f.name)[i]? = some q ∧ q.name = x := by
  have hfind : fs.find? (·.name = f.name) = some f :=
    (find?_eq_some_iff_of_nodup hnodup).2 ⟨hf, rfl⟩
  have hname : ((t.paramsOf f.name).map (·.name))[i]? = some x := by
    rw [map_name_paramsOf, h, List.find?_map]
    simpa [Function.comp_def, hfind] using hx
  rw [List.getElem?_map] at hname
  exact Option.map_eq_some_iff.1 hname

end Lists

/-! ## Marks come from chains -/

/-- Every mark that is set is called for at the end of a chain. -/
def Justified (fs : List Function) (t : Table) : Prop :=
  ∀ f ∈ fs, ∀ (i : Nat) (q : Param), (t.paramsOf f.name)[i]? = some q →
    (q.ty = .list → Reaches fs UsesAsSequence (f, i)) ∧
      (q.mutated = true → Reaches fs StoresInto (f, i)) ∧
      (q.reassigned = true → ∃ x, f.params[i]? = some x ∧ Reassigns f.body x)

theorem justified_declared (fs : List Function) :
    Justified fs ⟨fs.map Function.signature, .empty⟩ := by
  intro f _ i q hq
  rw [getElem?_paramsOf, signature?, List.find?_map] at hq
  obtain ⟨_, hs, hq⟩ := Option.bind_eq_some_iff.1 hq
  obtain ⟨g, -, rfl⟩ := Option.map_eq_some_iff.1 hs
  rw [Function.signature, List.getElem?_map] at hq
  obtain ⟨x, -, rfl⟩ := Option.map_eq_some_iff.1 hq
  refine ⟨?_, ?_, ?_⟩ <;> rintro ⟨⟩

/-- A parameter that is passed on to is one of the functions'. -/
theorem Lists.forwards (h : Lists fs t) {f : Function} {i : Nat} {x : String}
    (hx : f.params[i]? = some x) {callee : String} {j : Nat} (hpass : Passes f.body x callee j)
    {q : Param} (hq : (t.paramsOf callee)[j]? = some q) :
    ∃ g ∈ fs, g.name = callee ∧ Forwards fs (f, i) (g, j) := by
  obtain ⟨g, hg, rfl, hj⟩ := h.exists_function hq
  exact ⟨g, hg, rfl, hg, (List.getElem?_eq_some_iff.1 hj).1, x, hx, hpass⟩

theorem Justified.markPlace (h : Justified fs t) (hlists : Lists fs t)
    (hnodup : (fs.map (·.name)).Nodup) {f : Function} {x : String} {i : Nat} (hf : f ∈ fs)
    (hx : f.params[i]? = some x) : Justified fs (t.markPlace (f, x, i)) := by
  intro g hg j q' hq'
  obtain ⟨q, hq, rfl⟩ := exists_of_markParam hq'
  obtain ⟨hlist, hmut, hre⟩ := h g hg j q hq
  by_cases hplace : f.name = g.name ∧ i = j
  · obtain ⟨hname, rfl⟩ := hplace
    obtain rfl : f = g := List.inj_on_of_nodup_map hnodup hf hg hname
    simp only [and_self, if_true, Usage.mark]
    refine ⟨fun hty => ?_, fun hm => ?_, fun hr => ?_⟩
    · by_cases hu : (Stmt.blockUsage t x f.body).asSequence = true
      · rcases asSequence_blockUsage_iff.1 hu with huse | ⟨callee, k, r, hpass, hr, hlist⟩
        · exact .direct hx huse
        · obtain ⟨g, hg, rfl, hfwd⟩ := hlists.forwards hx hpass hr
          exact .forwarded hfwd ((h g hg k r hr).1 hlist)
      · exact hlist (by simpa [hu] using hty)
    · rcases Bool.or_eq_true_iff.1 hm with hm | hu
      · exact hmut hm
      · rcases mutated_blockUsage_iff.1 hu with huse | ⟨callee, k, r, hpass, hr, -, hm⟩
        · exact .direct hx huse
        · obtain ⟨g, hg, rfl, hfwd⟩ := hlists.forwards hx hpass hr
          exact .forwarded hfwd ((h g hg k r hr).2.1 hm)
    · rcases Bool.or_eq_true_iff.1 hr with hr | hu
      · exact hre hr
      · exact ⟨x, hx, reassigned_blockUsage_iff.1 hu⟩
  · rw [if_neg hplace]
    exact ⟨hlist, hmut, hre⟩

theorem lists_markPlace (h : Lists fs t) (pl : Function × String × Nat) :
    Lists fs (t.markPlace pl) := by
  have hnames : (t.markPlace pl).names = t.names := names_modifyParam fun _ => rfl
  exact hnames.trans h

theorem Justified.markAll (h : Justified fs t) (hlists : Lists fs t)
    (hnodup : (fs.map (·.name)).Nodup) : Justified fs (t.markAll fs) := by
  rw [markAll_eq_foldl]
  have hpls : ∀ pl ∈ places fs, pl.1 ∈ fs ∧ pl.1.params[pl.2.2]? = some pl.2.1 :=
    fun pl hpl => mem_places.1 hpl
  generalize places fs = pls at hpls
  induction pls generalizing t with
  | nil => exact h
  | cons pl pls ih =>
    obtain ⟨hf, hx⟩ := hpls pl List.mem_cons_self
    exact ih (h.markPlace hlists hnodup hf hx) (lists_markPlace hlists pl)
      fun pl' hpl' => hpls pl' (List.mem_cons_of_mem _ hpl')

theorem Justified.markUsage (h : Justified fs t) (hlists : Lists fs t)
    (hnodup : (fs.map (·.name)).Nodup) : Justified fs (t.markUsage fs) := by
  fun_induction Table.markUsage fs t with
  | case1 t marked _ ih => exact ih (h.markAll hlists hnodup) ((names_markAll fs t).trans hlists)
  | case2 t marked _ => exact h.markAll hlists hnodup

/-! ## Chains set marks -/

namespace Closed

variable (h : Closed fs t) (hlists : Lists fs t) (hnodup : (fs.map (·.name)).Nodup)

include h hlists hnodup

theorem list_of_reaches {f : Function} (hf : f ∈ fs) {i : Nat} {q : Param}
    (hq : (t.paramsOf f.name)[i]? = some q) (hreach : Reaches fs UsesAsSequence (f, i)) :
    q.ty = .list := by
  -- Along the chain, from its end: the callee's parameter is a list, so passing it on makes one.
  suffices hP : ∀ a : Function × Nat, Reaches fs UsesAsSequence a → a.1 ∈ fs →
      ∀ q, (t.paramsOf a.1.name)[a.2]? = some q → q.ty = .list from hP (f, i) hreach hf q hq
  intro a ha
  refine Reaches.induct (P := fun a => a.1 ∈ fs →
    ∀ q, (t.paramsOf a.1.name)[a.2]? = some q → q.ty = .list) ?_ ?_ ha
  · intro a x hx huse ha q hq
    exact (h a.1 ha a.2 x q hx hq).asSequence (asSequence_blockUsage_iff.2 (.inl huse))
  · rintro a b ⟨hb, hj, x, hx, hpass⟩ - ih ha q hq
    obtain ⟨r, hr, -⟩ := hlists.exists_param hnodup hb (List.getElem?_eq_getElem hj)
    exact (h a.1 ha a.2 x q hx hq).asSequence
      (asSequence_blockUsage_iff.2 (.inr ⟨b.1.name, b.2, r, hpass, hr, ih hb r hr⟩))

theorem mutated_of_reaches {f : Function} (hf : f ∈ fs) {i : Nat} {q : Param}
    (hq : (t.paramsOf f.name)[i]? = some q) (hreach : Reaches fs StoresInto (f, i)) :
    q.mutated = true := by
  suffices hP : ∀ a : Function × Nat, Reaches fs StoresInto a → a.1 ∈ fs →
      ∀ q, (t.paramsOf a.1.name)[a.2]? = some q → q.mutated = true from hP (f, i) hreach hf q hq
  intro a ha
  refine Reaches.induct (P := fun a => a.1 ∈ fs →
    ∀ q, (t.paramsOf a.1.name)[a.2]? = some q → q.mutated = true) ?_ ?_ ha
  · intro a x hx huse ha q hq
    exact (h a.1 ha a.2 x q hx hq).mutated (mutated_blockUsage_iff.2 (.inl huse))
  · rintro a b ⟨hb, hj, x, hx, hpass⟩ hreach ih ha q hq
    obtain ⟨r, hr, -⟩ := hlists.exists_param hnodup hb (List.getElem?_eq_getElem hj)
    -- Only lists pass the mark on, and what is stored into is one.
    have hlist : r.ty = .list := list_of_reaches h hlists hnodup hb hr
      (hreach.mono fun _ _ => StoresInto.usesAsSequence)
    exact (h a.1 ha a.2 x q hx hq).mutated
      (mutated_blockUsage_iff.2 (.inr ⟨b.1.name, b.2, r, hpass, hr, hlist, ih hb r hr⟩))

end Closed

/-- The marks that a parameter has after marking. -/
structure MarksOf (fs : List Function) (f : Function) (i : Nat) (x : String)
    (q : Param) : Prop where
  name : q.name = x
  list_iff : q.ty = .list ↔ Reaches fs UsesAsSequence (f, i)
  mutated_iff : q.mutated = true ↔ Reaches fs StoresInto (f, i)
  reassigned_iff : q.reassigned = true ↔ Reassigns f.body x

theorem exists_marksOf (hnodup : (fs.map (·.name)).Nodup) {f : Function} (hf : f ∈ fs) {i : Nat}
    {x : String} (hx : f.params[i]? = some x) :
    ∃ q, ((markUsage fs ⟨fs.map Function.signature, .empty⟩).paramsOf f.name)[i]? = some q ∧
      MarksOf fs f i x q := by
  have hlists : Lists fs (markUsage fs ⟨fs.map Function.signature, .empty⟩) :=
    (names_markUsage fs _).trans (lists_declared fs)
  have hclosed : Closed fs (markUsage fs ⟨fs.map Function.signature, .empty⟩) :=
    closed_markUsage fs _
  obtain ⟨q, hq, hname⟩ := hlists.exists_param hnodup hf hx
  obtain ⟨hlist, hmut, hre⟩ :=
    (justified_declared fs).markUsage (lists_declared fs) hnodup f hf i q hq
  refine ⟨q, hq, hname, ⟨hlist, hclosed.list_of_reaches hlists hnodup hf hq⟩,
    ⟨hmut, hclosed.mutated_of_reaches hlists hnodup hf hq⟩, fun hr => ?_, fun hr => ?_⟩
  · obtain ⟨y, hy, hreassigns⟩ := hre hr
    rw [hx] at hy
    cases hy
    exact hreassigns
  · exact (hclosed f hf i x q hx hq).reassigned (reassigned_blockUsage_iff.2 hr)

/-! ## Inference keeps the marks -/

section
variable {β : Type} {κ : Param → β}

theorem view_visits (hκ : ∀ q ty, κ { q with ty := ty } = κ q) (ws : List (String × List Stmt))
    (t : Table) : (t.visits ws).view κ = t.view κ := by
  induction ws generalizing t with
  | nil => rfl
  | cons w ws ih => exact (ih _).trans ((Visit.refined_block w.1 w.2 _).view hκ)

theorem view_finalize (hκ : ∀ q ty mode, κ { q with ty := ty, mode := mode } = κ q) (t : Table) :
    t.finalize.view κ = t.view κ := by
  simp [view, finalize, Signature.finalize, Param.finalize, Function.comp_def, hκ]

end

end Table

namespace Param

theorem modeFor_eq_mutRef_iff (q : Param) :
    q.modeFor = .mutRef ↔ q.ty = .list ∧ q.mutated = true ∧ q.reassigned = false := by
  obtain ⟨name, ty, mode, mutated, reassigned⟩ := q
  cases ty <;> cases mutated <;> cases reassigned <;> simp [modeFor]

theorem modeFor_eq_constRef_iff (q : Param) :
    q.modeFor = .constRef ↔
      (q.ty = .list ∧ q.mutated = false ∨ q.ty = .str) ∧ q.reassigned = false := by
  obtain ⟨name, ty, mode, mutated, reassigned⟩ := q
  cases ty <;> cases mutated <;> cases reassigned <;> simp [modeFor]

end Param

namespace Ty

theorem foldl_join_list (tys : List Ty) : tys.foldl join list = list := by
  induction tys with
  | nil => rfl
  | cons ty tys ih =>
    rw [List.foldl_cons, show list.join ty = list by cases ty <;> rfl]
    exact ih

end Ty

namespace Program

variable {p : Program} {t : Table}

theorem view_of_infer {β : Type} {κ : Param → β} (h : p.infer = .ok t)
    (hκ : ∀ q ty mode, κ { q with ty := ty, mode := mode } = κ q) :
    t.view κ = p.marked.view κ := by
  have hafter : ∀ n, (p.after n).view κ = p.marked.view κ := by
    intro n
    induction n with
    | zero => rfl
    | succ n ih =>
      rw [after_succ, Table.round_eq_visits, Table.view_visits fun q ty => hκ q ty q.mode, ih]
  rw [infer_eq_after h, Table.view_finalize hκ, hafter]

/-- A list stays a list. -/
theorem list_of_infer (h : p.infer = .ok t) {function : String} {i : Nat} {q₀ q : Param}
    (hq₀ : (p.marked.paramsOf function)[i]? = some q₀) (hq : (t.paramsOf function)[i]? = some q)
    (hlist : q₀.ty = .list) : q.ty = .list := by
  have hslot := slotTy?_of_infer h (.param function i)
  rw [Table.slotTy?, Table.slotTy?, hq, hq₀, Option.map_some, Option.map_some, Option.map_some,
    hlist, Ty.foldl_join_list] at hslot
  simpa [Ty.isKnown] using hslot

theorem mode_of_infer (h : p.infer = .ok t) {function : String} {i : Nat} {q : Param}
    (hq : (t.paramsOf function)[i]? = some q) : q.mode = q.modeFor := by
  rw [infer_eq_after h, Table.getElem?_paramsOf, Table.signature?, Table.finalize,
    List.find?_map] at hq
  obtain ⟨_, hs, hq⟩ := Option.bind_eq_some_iff.1 hq
  obtain ⟨s, -, rfl⟩ := Option.map_eq_some_iff.1 hs
  rw [Signature.finalize, List.getElem?_map] at hq
  obtain ⟨q, -, rfl⟩ := Option.map_eq_some_iff.1 hq
  rfl

/-- What a finished table says of a parameter. -/
theorem exists_param_of_infer (h : p.infer = .ok t) {f : Function} (hf : f ∈ p.routines) {i : Nat}
    {x : String} (hx : f.params[i]? = some x) :
    ∃ q, (t.paramsOf f.name)[i]? = some q ∧ q.name = x ∧ q.mode = q.modeFor ∧
      (Reaches p.routines UsesAsSequence (f, i) → q.ty = .list) ∧
      (q.mutated = true ↔ Reaches p.routines StoresInto (f, i)) ∧
      (q.reassigned = true ↔ Reassigns f.body x) := by
  obtain ⟨-, hnodup, -⟩ := infer_eq_ok_iff.mp h
  obtain ⟨q₀, hq₀, hmarks⟩ := Table.exists_marksOf hnodup hf hx
  have hview : p.marked.view (fun q => (q.name, q.mutated, q.reassigned)) =
      t.view fun q => (q.name, q.mutated, q.reassigned) :=
    (view_of_infer h fun _ _ _ => rfl).symm
  obtain ⟨q, hq, hflags⟩ := Table.exists_param_of_view_eq hview hq₀
  simp only [Prod.mk.injEq] at hflags
  obtain ⟨hname, hmut, hre⟩ := hflags
  refine ⟨q, hq, hname.trans hmarks.name, mode_of_infer h hq, fun hreach => ?_, ?_, ?_⟩
  · exact list_of_infer h hq₀ hq (hmarks.list_iff.2 hreach)
  · rw [hmut, hmarks.mutated_iff]
  · rw [hre, hmarks.reassigned_iff]

end Program

end Braces
