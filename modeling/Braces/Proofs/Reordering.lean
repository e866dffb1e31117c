import Braces.Compile
import Braces.Proofs.Emission.Alike
import Braces.Proofs.Reordering.Programs
import Braces.Proofs.SlotChecks

/-!
# The order of definitions

Inference walks functions in the order of their definitions, and a slot that is given values of
types that do not mix keeps the one it saw first. So the order may decide. It does so only then: if
inference comes to rest for both orders and in its last round every stored value mixes with what its
slot holds, all signatures and locals are the same, and so is what is accepted.
-/

namespace Braces

namespace Program

/-- A round that inference may take changes nothing. -/
def Settles (p : Program) : Prop := ∃ n < maxRounds, p.after (n + 1) = p.after n

/-- All that is stored in the last round mixes with what its cell holds. -/
def Undisputed (p : Program) : Prop := ∀ τ ∈ p.lastTurns, τ.mixes = true

end Program

namespace Table

variable {fs : List Function} {entry : List Stmt}

theorem exists_beforeLast (fs : List Function) (entry : List Stmt) (n : Nat) (t : Table) :
    ∃ k, t.beforeLast fs entry n = (round fs entry)^[k] t := by
  induction n generalizing t with
  | zero => exact ⟨0, rfl⟩
  | succ n ih =>
    rw [beforeLast]
    split
    · exact ⟨0, rfl⟩
    · obtain ⟨k, hk⟩ := ih (t.round fs entry)
      exact ⟨k + 1, hk⟩

/-- If some round changes nothing, the last one does not. -/
theorem round_beforeLast {n m : Nat} {t : Table} (hm : m ≤ n)
    (hquiet : (round fs entry)^[m + 1] t = (round fs entry)^[m] t) :
    (t.beforeLast fs entry n).round fs entry = t.beforeLast fs entry n := by
  induction n generalizing m t with
  | zero =>
    obtain rfl : m = 0 := Nat.le_zero.1 hm
    exact hquiet
  | succ n ih =>
    rw [beforeLast]
    split
    · next hstable => exact hstable
    · next hmoves =>
      cases m with
      | zero => exact absurd hquiet hmoves
      | succ m => exact ih (Nat.le_of_succ_le_succ hm) hquiet

end Table

namespace Program

variable {p : Program}

theorem rests (hsettles : p.Settles) (hundisputed : p.Undisputed) :
    p.penultimate.Rests p.walks := by
  obtain ⟨n, hn, hquiet⟩ := hsettles
  refine ⟨?_, hundisputed⟩
  rw [walks, ← Table.round_eq_visits]
  exact Table.round_beforeLast (Nat.le_of_lt_succ hn) hquiet

theorem below_after (p : Program) (n : Nat) : p.marked.Below (p.after n) := by
  induction n with
  | zero => exact p.marked.below_visits []
  | succ n ih =>
    rw [after_succ, Table.round_eq_visits]
    exact ih.trans (Table.below_visits _ _)

theorem exists_penultimate_eq_after (p : Program) : ∃ n, p.penultimate = p.after n :=
  Table.exists_beforeLast _ _ _ _

end Program

namespace Reordered

variable {p p' : Program} {t t' : Table}

/-- In one order, inference never gets beyond where it rests in the other. -/
theorem below_of_rests (h : Reordered p p') (hrests' : p'.penultimate.Rests p'.walks) :
    p.penultimate.Below p'.penultimate := by
  have hafter : ∀ n, (p.after n).Below p'.penultimate := by
    intro n
    induction n with
    | zero =>
      obtain ⟨k, hk⟩ := p'.exists_penultimate_eq_after
      rw [hk]
      exact h.agree_marked.below.trans (p'.below_after k)
    | succ n ih =>
      rw [Program.after_succ, Table.round_eq_visits]
      exact ih.visits_of_rests hrests' fun w hw => h.mem_walks hw
  obtain ⟨n, hn⟩ := p.exists_penultimate_eq_after
  rw [hn]
  exact hafter n

theorem agree_penultimate (h : Reordered p p') (hrests : p.penultimate.Rests p.walks)
    (hrests' : p'.penultimate.Rests p'.walks) : p.penultimate.Agree p'.penultimate :=
  (h.below_of_rests hrests').agree (h.symm.below_of_rests hrests)

end Reordered

/-! ## Finished tables -/

theorem Table.signature?_ext {t t' : Table} {name : String}
    (hresult : t.slotTy? (.result name) = t'.slotTy? (.result name))
    (hparams : t.paramsOf name = t'.paramsOf name) : t.signature? name = t'.signature? name := by
  rw [slotTy?, slotTy?] at hresult
  rw [paramsOf, paramsOf] at hparams
  cases hs : t.signature? name with
  | none =>
    rw [hs] at hresult
    exact (Option.map_eq_none_iff.1 hresult.symm).symm
  | some s =>
    rw [hs] at hresult hparams
    obtain ⟨s', hs', hres⟩ := Option.map_eq_some_iff.1 hresult.symm
    rw [hs'] at hparams ⊢
    have hname : s.name = s'.name := by
      rw [signature?] at hs hs'
      have hs := List.find?_some hs
      have hs' := List.find?_some hs'
      simp only [decide_eq_true_eq] at hs hs'
      rw [hs, hs']
    cases s
    cases s'
    simp only [Option.map_some, Option.getD_some] at hparams
    simp_all

namespace Program

variable {p : Program} {t : Table}

theorem eq_finalize_of_rests (h : p.infer = .ok t) (hrests : p.penultimate.Rests p.walks) :
    t = p.penultimate.finalize := by
  obtain ⟨-, -, -, rfl⟩ := infer_eq_ok_iff.1 h
  rw [hrests.kept]

/-- Where inference rests, the locals of a routine are those of a walk with the final signatures. -/
theorem localsOf?_of_rests (h : p.infer = .ok t) (hrests : p.penultimate.Rests p.walks) {r : String}
    {body : List Stmt} (hw : (r, body) ∈ p.walks) :
    t.localsOf? r = some (p.penultimate.walk r body).scope.locals := by
  obtain ⟨pre, post, hsplit⟩ := List.append_of_mem hw
  rw [localsOf?_of_infer h hsplit, Table.scope_walk_congr (hrests.functions_visits hsplit)]

end Program

namespace Reordered

variable {p p' : Program} {t t' : Table}

section
variable (h : Reordered p p') (ht : p.infer = .ok t) (ht' : p'.infer = .ok t')
  (hrests : p.penultimate.Rests p.walks) (hrests' : p'.penultimate.Rests p'.walks)

include h ht ht' hrests hrests'

theorem slotTy?_eq (c : Cell) : t.slotTy? c = t'.slotTy? c := by
  rw [Program.eq_finalize_of_rests ht hrests, Program.eq_finalize_of_rests ht' hrests',
    Table.slotTy?_finalize, Table.slotTy?_finalize, (h.agree_penultimate hrests hrests').slots]

theorem getElem?_paramsOf {function : String} {i : Nat} {q : Param}
    (hq : (t.paramsOf function)[i]? = some q) : (t'.paramsOf function)[i]? = some q := by
  obtain ⟨f, hf, rfl, hx⟩ := Table.Lists.exists_function (Program.names_of_infer ht) hq
  obtain ⟨q₁, hq₁, -, hmode, -, hmut, hre⟩ := Program.exists_param_of_infer ht hf hx
  obtain ⟨q', hq', hname', hmode', -, hmut', hre'⟩ :=
    Program.exists_param_of_infer ht' (h.routines.mem_iff.1 hf) hx
  obtain rfl : q = q₁ := Option.some.inj (hq.symm.trans hq₁)
  have hty : q.ty = q'.ty := by
    have hslot := h.slotTy?_eq ht ht' hrests hrests' (.param f.name i)
    rw [Table.slotTy?, Table.slotTy?, hq, hq'] at hslot
    exact Option.some.inj hslot
  have hmutated : q.mutated = q'.mutated := by
    rw [Bool.eq_iff_iff, hmut, hmut']
    exact ⟨.of_subset h.routines.subset, .of_subset h.symm.routines.subset⟩
  have hreassigned : q.reassigned = q'.reassigned := by
    rw [Bool.eq_iff_iff, hre, hre']
  have hmodes : q.mode = q'.mode := by
    rw [hmode, hmode', Param.modeFor, Param.modeFor, hty, hmutated, hreassigned]
  rw [hq', Option.some.injEq]
  cases q
  cases q'
  rw [Param.mk.injEq]
  exact ⟨hname', hty.symm, hmodes.symm, hmutated.symm, hreassigned.symm⟩

end

theorem signature?_eq (h : Reordered p p') (ht : p.infer = .ok t) (ht' : p'.infer = .ok t')
    (hrests : p.penultimate.Rests p.walks) (hrests' : p'.penultimate.Rests p'.walks)
    (name : String) : t.signature? name = t'.signature? name := by
  refine Table.signature?_ext (h.slotTy?_eq ht ht' hrests hrests' _) ?_
  refine List.ext_getElem? fun i => Option.ext fun q => ?_
  exact ⟨h.getElem?_paramsOf ht ht' hrests hrests', h.symm.getElem?_paramsOf ht' ht hrests' hrests⟩

theorem localsOf?_eq (h : Reordered p p') (ht : p.infer = .ok t) (ht' : p'.infer = .ok t')
    (hrests : p.penultimate.Rests p.walks) (hrests' : p'.penultimate.Rests p'.walks) {r : String}
    {body : List Stmt} (hw : (r, body) ∈ p.walks) : t.localsOf? r = t'.localsOf? r := by
  rw [Program.localsOf?_of_rests ht hrests hw,
    Program.localsOf?_of_rests ht' hrests' (h.mem_walks hw),
    (h.agree_penultimate hrests hrests').scope_walk]

end Reordered

/-! ## Emission -/

theorem exists_mapM_eq_ok {ε α β : Type} {g : α → Except ε β} {l : List α}
    (h : ∀ a ∈ l, ∃ b, g a = .ok b) : ∃ l', l.mapM g = .ok l' := by
  induction l with
  | nil => exact ⟨[], rfl⟩
  | cons a l ih =>
    obtain ⟨b, hb⟩ := h a List.mem_cons_self
    obtain ⟨bs, hbs⟩ := ih fun a' ha' => h a' (List.mem_cons_of_mem _ ha')
    exact ⟨b :: bs, by rw [List.mapM_cons, hb, hbs]; rfl⟩

/-- A program is emitted if another one with the same functions is, from tables that give each
routine the same signatures and locals. -/
theorem Reordered.exists_emit {p p' : Program} {t t' : Table} (h : Reordered p p')
    (hsignature : ∀ name, t.signature? name = t'.signature? name)
    (hlocals : ∀ w ∈ p.walks, t.localsOf? w.1 = t'.localsOf? w.1) {u : Cpp.Unit}
    (hu : p.emit t = .ok u) : ∃ u', p'.emit t' = .ok u' := by
  have halike : ∀ w ∈ p.walks, Frame.Alike ⟨t, w.1⟩ ⟨t', w.1⟩ := fun w hw =>
    ⟨rfl, hsignature, hlocals w hw⟩
  obtain ⟨routines, hroutines, hu⟩ := exists_of_bind_eq_ok hu
  obtain ⟨entry, hentry, -⟩ := exists_of_bind_eq_ok hu
  have hall : ∀ fn ∈ p'.routines, ∃ r, Program.emitFunction t' fn = .ok r := by
    intro fn hfn
    have hfn := h.routines.mem_iff.2 hfn
    obtain ⟨r, -, hr⟩ := exists_of_mem_mapM hroutines hfn
    have hw : (fn.name, fn.body) ∈ p.walks :=
      List.mem_append_left _ (List.mem_map.2 ⟨fn, hfn, rfl⟩)
    refine ⟨r, ?_⟩
    rw [← hr, Program.emitFunction, Program.emitFunction, hsignature]
    simp only [(halike _ hw).body]
  obtain ⟨routines', hroutines'⟩ := exists_mapM_eq_ok hall
  have hentry' : Program.emitEntry t' p'.entryStatements = .ok entry := by
    have hw : (entryName, p.entryStatements) ∈ p.walks :=
      List.mem_append_right _ List.mem_cons_self
    rw [← hentry, Program.emitEntry, Program.emitEntry, ← h.entryStatements, (halike _ hw).body]
  exact ⟨⟨t'.functions, routines', entry⟩, by rw [Program.emit, hroutines', hentry']; rfl⟩

/-- Inference gives a table for a program in every order of its functions or in none. If for two
orders it settles and all that is stored in its last round mixes with what its slot holds, then the
tables have the same signatures and locals, and both programs are emitted or neither is. -/
theorem infer_reordered {p p' : Program} (h : Reordered p p') :
    ((∃ t, p.infer = .ok t) ↔ ∃ t', p'.infer = .ok t') ∧
      ∀ t t', p.infer = .ok t → p'.infer = .ok t' → p.Settles → p'.Settles → p.Undisputed →
        p'.Undisputed →
        (∀ name, t.signature? name = t'.signature? name) ∧
          (∀ w ∈ p.walks, t.localsOf? w.1 = t'.localsOf? w.1) ∧
          ((∃ u, p.emit t = .ok u) ↔ ∃ u', p'.emit t' = .ok u') := by
  refine ⟨⟨fun ⟨t, ht⟩ => h.exists_infer ht, fun ⟨t', ht'⟩ => h.symm.exists_infer ht'⟩, ?_⟩
  intro t t' ht ht' hsettles hsettles' hundisputed hundisputed'
  have hrests := Program.rests hsettles hundisputed
  have hrests' := Program.rests hsettles' hundisputed'
  have hsignature := h.signature?_eq ht ht' hrests hrests'
  have hlocals : ∀ w ∈ p.walks, t.localsOf? w.1 = t'.localsOf? w.1 := fun w hw =>
    h.localsOf?_eq ht ht' hrests hrests' hw
  refine ⟨hsignature, hlocals, fun ⟨u, hu⟩ => h.exists_emit hsignature hlocals hu,
    fun ⟨u', hu'⟩ => ?_⟩
  exact h.symm.exists_emit (fun name => (hsignature name).symm)
    (fun w hw => (hlocals w (h.symm.mem_walks hw)).symm) hu'

namespace Scaling

def total : Stmt :=
  .funcDef "total" ["xs"]
    [.assign "sum" (.float (.finite false 4503599627370496 (-53))),
     .forLoop "x" (.var "xs")
       [.assign "sum" (.binary .add (.var "sum") (.call "scale" [.var "x"]))],
     .ret (some (.var "sum"))]

def scale : Stmt :=
  .funcDef "scale" ["n"] [.ret (some (.binary .mul (.var "n") (.int 2)))]

def output : Stmt := .print [.call "total" [.list [.int 1, .int 2]]]

end Scaling

open Scaling in
/-- A sum of the results of a function that stands after it or before it. -/
theorem infer_reordered_scaling :
    Reordered [total, scale, output] [scale, total, output] ∧
      ∃ t t', Program.infer [total, scale, output] = .ok t ∧
        Program.infer [scale, total, output] = .ok t' ∧
        (∀ name, t.signature? name = t'.signature? name) ∧
        (t.signature? "total").map (·.result) = some .float ∧
        ∃ u, Program.emit [total, scale, output] t = .ok u := by
  have hreordered : Reordered [total, scale, output] [scale, total, output] :=
    ⟨.swap _ _ _, rfl, by decide⟩
  have hlater : (Program.infer [scale, total, output]).toOption.map (fun t =>
      ((t.signature? "total").map (·.result), (Program.emit [scale, total, output] t).toBool)) =
      some (some .float, true) := by decide +kernel
  obtain ⟨t', ht', hlater⟩ := exists_of_toOption_map hlater
  obtain ⟨hfloat, hemit⟩ := Prod.mk.inj hlater
  obtain ⟨t, ht⟩ := (infer_reordered hreordered).1.2 ⟨t', ht'⟩
  have hundisputed : Program.Undisputed [total, scale, output] :=
    List.all_eq_true.1 (by decide +kernel)
  have hundisputed' : Program.Undisputed [scale, total, output] :=
    List.all_eq_true.1 (by decide +kernel)
  obtain ⟨hsignatures, -, haccepted⟩ := (infer_reordered hreordered).2 t t' ht ht'
    ⟨2, by decide, by decide +kernel⟩ ⟨2, by decide, by decide +kernel⟩ hundisputed hundisputed'
  exact ⟨hreordered, t, t', ht, ht', hsignatures, by rw [hsignatures, hfloat],
    haccepted.2 (exists_of_toBool hemit)⟩

namespace Clash

def giveNumber : Stmt := .funcDef "number" [] [.eval (.call "put" [.int 1])]

def giveText : Stmt := .funcDef "text" [] [.eval (.call "put" [.str "s"])]

def put : Stmt := .funcDef "put" ["x"] [.pass]

end Clash

open Clash in
/-- Of two callers whose arguments do not mix, the first one decides what the parameter is. -/
theorem signature?_of_first_caller :
    Reordered [giveNumber, giveText, put] [giveText, giveNumber, put] ∧
      ∃ t t', Program.infer [giveNumber, giveText, put] = .ok t ∧
        Program.infer [giveText, giveNumber, put] = .ok t' ∧
        t.signature? "put" ≠ t'.signature? "put" := by
  refine ⟨⟨.swap _ _ _, rfl, by decide⟩, ?_⟩
  have hnumber : (Program.infer [giveNumber, giveText, put]).toOption.map
      (fun t => (t.signature? "put").map (·.params.map (·.ty))) = some (some [.int]) := by
    decide +kernel
  have htext : (Program.infer [giveText, giveNumber, put]).toOption.map
      (fun t => (t.signature? "put").map (·.params.map (·.ty))) = some (some [.str]) := by
    decide +kernel
  obtain ⟨t, ht, hnumber⟩ := exists_of_toOption_map hnumber
  obtain ⟨t', ht', htext⟩ := exists_of_toOption_map htext
  refine ⟨t, t', ht, ht', fun hsame => ?_⟩
  rw [hsame, htext] at hnumber
  exact absurd hnumber (by decide)

end Braces
