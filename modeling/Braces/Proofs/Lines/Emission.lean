import Braces.Proofs.Lines.Blocks
import Braces.Proofs.Reading.Words

/-!
# Emitted statements are orderly

What is emitted for statements whose names and literals have written forms is made of plain
expressions, and jumps only inside loops.
-/

namespace Braces

open Cpp (OrderlyBlock)

/-- The names and expressions of the head of a loop are plain. -/
def LoopHead.Plain : LoopHead → Prop
  | .count counters cond advance =>
    (∀ c ∈ counters, c.1.Plain ∧ c.2.Plain) ∧ cond.Plain ∧ advance.Plain
  | .each _ name sequence => name.Plain ∧ sequence.Plain

theorem LoopHead.Plain.orderly {head : LoopHead} {body : List Cpp.Stmt} (h : head.Plain)
    (hbody : OrderlyBlock true body) (inLoop : Bool) : (head.loop body).Orderly inLoop := by
  cases head with
  | count counters cond advance => exact ⟨h.1, h.2.1, h.2.2, hbody⟩
  | each ty name sequence => exact ⟨h.1, h.2, hbody⟩

namespace Frame

variable {f : Frame} {st st₁ : Progress} {name : String} {assigned : List String} {head : LoopHead}
  {first : List Cpp.Stmt}

/-! ## Loops -/

theorem plain_counting {sign? : Option Int} {counter : Cpp.Name} {bound : Cpp.Expr}
    {stride? : Option Cpp.Expr} (hcounter : counter.Plain) (hbound : bound.Plain)
    (hstride : ∀ c ∈ stride?, c.Plain) :
    (counting sign? counter bound stride?).1.Plain ∧
      (counting sign? counter bound stride?).2.Plain := by
  cases stride? with
  | none => exact ⟨⟨hcounter, hbound⟩, hcounter⟩
  | some c =>
    have hc := hstride c rfl
    cases sign? with
    | none => exact ⟨⟨⟨hc, Int.le_refl 0⟩, ⟨hcounter, hbound⟩, hcounter, hbound⟩, hcounter, hc⟩
    | some sign => exact ⟨⟨hcounter, hbound⟩, hcounter, hc⟩

theorem plain_ownHead {sign? : Option Int} {cstart cstop : Cpp.Expr} {cstep : Option Cpp.Expr}
    (hname : Cpp.isName name = true) (hstart : cstart.Plain) (hstop : cstop.Plain)
    (hstep : ∀ c ∈ cstep, c.Plain) : (ownHead name sign? cstart cstop cstep).Plain :=
  ⟨List.forall_mem_singleton.2 ⟨hname, hstart⟩, plain_counting hname hstop hstep⟩

theorem plain_hiddenStride {n : Nat} {sign? : Option Int} {cstep : Option Cpp.Expr}
    (hstep : ∀ c ∈ cstep, c.Plain) :
    (∀ c ∈ (hiddenStride n sign? cstep).1, c.Plain) ∧
      ∀ c ∈ (hiddenStride n sign? cstep).2, c.1.Plain ∧ c.2.Plain := by
  unfold hiddenStride
  split
  · next c =>
    refine ⟨fun _ h => Option.some.inj h ▸ trivial, ?_⟩
    exact List.forall_mem_singleton.2 ⟨trivial, hstep c rfl, trivial⟩
  · exact ⟨hstep, List.forall_mem_nil _⟩

theorem plain_hiddenHead {n : Nat} {sign? : Option Int} {keepsBound : Bool}
    {cstart cstop : Cpp.Expr}
    {cstep : Option Cpp.Expr} (hstart : cstart.Plain) (hstop : cstop.Plain)
    (hstep : ∀ c ∈ cstep, c.Plain) : (hiddenHead n sign? keepsBound cstart cstop cstep).Plain := by
  obtain ⟨hstride, hstrides⟩ := @plain_hiddenStride n sign? cstep hstep
  cases keepsBound with
  | true =>
    exact ⟨List.forall_mem_cons.2 ⟨⟨trivial, hstart⟩, hstrides⟩,
      plain_counting trivial hstop hstride⟩
  | false =>
    refine ⟨List.forall_mem_cons.2 ⟨⟨trivial, hstart⟩, ?_⟩, plain_counting trivial trivial hstride⟩
    exact List.forall_mem_cons.2 ⟨⟨trivial, hstop⟩, hstrides⟩

theorem orderly_loopStore {fresh : Bool} {c : Cpp.Expr} (hname : Cpp.isName name = true)
    (hc : c.Plain) : OrderlyBlock true [f.loopStore fresh name c] := by
  unfold loopStore
  split
  · exact ⟨⟨hname, hc⟩, trivial⟩
  · exact ⟨⟨hname, hc⟩, trivial⟩

theorem plain_of_rangeHead {start stop : Expr} {step : Option Expr} (hname : Cpp.isName name = true)
    (hstart : ∀ e ∈ start.parts, e.isWritten = true) (hstop : ∀ e ∈ stop.parts, e.isWritten = true)
    (hstep : ∀ e ∈ Expr.partsOfOption step, e.isWritten = true)
    (h : f.rangeHead st name start stop step assigned = .ok (head, first, st₁)) :
    head.Plain ∧ OrderlyBlock true first := by
  obtain ⟨cstart, cstop, cstep, hcstart, hcstop, hcstep, hcases⟩ := rangeHead_cases h
  have hpstart := (emits_of_expr hcstart).plain hstart
  have hpstop := (emits_of_expr hcstop).plain hstop
  have hpstep : ∀ c ∈ cstep, c.Plain := by
    rintro c rfl
    exact (emits_of_option hcstep).plain hstep
  obtain ⟨-, -, -, -, rfl, rfl, -⟩ | ⟨rfl, rfl, -⟩ := hcases
  · exact ⟨plain_ownHead hname hpstart hpstop hpstep, trivial⟩
  · exact ⟨plain_hiddenHead hpstart hpstop hpstep, orderly_loopStore hname trivial⟩

theorem plain_walked {iterable : Expr} {c : Cpp.Expr} {ty : Ty} (h : c.Plain) :
    (walked iterable c ty assigned).Plain := by
  unfold walked
  split
  · split
    · exact ⟨plain_sequence.2 h, trivial⟩
    · exact plain_sequence.2 h
  · exact plain_sequence.2 h

theorem plain_itemValue {ty : Ty} {n : Nat} : (itemValue ty n).Plain := by
  unfold itemValue
  split
  · exact ⟨Int.one_nonneg, trivial, trivial⟩
  · trivial

theorem plain_of_loopHead {iterable : Expr} (hname : Cpp.isName name = true)
    (hwritten : ∀ e ∈ iterable.parts, e.isWritten = true)
    (h : f.loopHead st name iterable assigned = .ok (head, first, st₁)) :
    head.Plain ∧ OrderlyBlock true first := by
  unfold loopHead at h
  split at h
  · next start stop step =>
    exact plain_of_rangeHead hname (fun e he => hwritten e (by simp [Expr.parts, he]))
      (fun e he => hwritten e (by simp [Expr.parts, Expr.partsOfOption, he]))
      (fun e he => hwritten e (by simp [Expr.parts, he])) h
  · next stop step =>
    exact plain_of_rangeHead hname (by simp [Expr.parts, Expr.isWritten])
      (fun e he => hwritten e (by simp [Expr.parts, he]))
      (fun e he => hwritten e (by simp [Expr.parts, he])) h
  · obtain ⟨c, hc, hcases⟩ := collectionHead_cases h
    have hpc := (emits_of_expr hc).plain hwritten
    obtain ⟨-, -, rfl, rfl, -⟩ | ⟨rfl, rfl, -⟩ := hcases
    · exact ⟨⟨hname, plain_walked hpc⟩, trivial⟩
    · exact ⟨⟨trivial, plain_walked hpc⟩, orderly_loopStore hname plain_itemValue⟩

/-! ## Statements -/

theorem plain_of_initial {ty : Cpp.DeclType} {value : Expr} {c : Cpp.Expr}
    (hwritten : ∀ e ∈ value.parts, e.isWritten = true)
    (h : f.initial ty value = .ok c) : c.Plain := by
  unfold initial at h
  split at h
  · next elements =>
    split at h
    · obtain ⟨_, -, h⟩ := exists_of_bind_eq_ok h
      obtain ⟨cs, hcs, h⟩ := exists_of_bind_eq_ok h
      cases h
      exact (emits_of_exprs hcs).plain fun e he => hwritten e (by simp [Expr.parts, he])
    · exact (emits_of_expr h).plain hwritten
  · exact (emits_of_expr h).plain hwritten

theorem plain_outputItems {args : List Expr} {cs : List Cpp.Expr} (h : Cpp.Expr.PlainAll cs) :
    Cpp.Expr.PlainAll (List.zipWith outputItem args cs) := by
  induction args generalizing cs with
  | nil => trivial
  | cons arg args ih =>
    cases cs with
    | nil => trivial
    | cons c cs =>
      refine ⟨?_, ih h.2⟩
      unfold outputItem
      split
      · exact h.1
      · exact ⟨h.1, trivial⟩

mutual

theorem EmitsStmt.orderly : ∀ {s : Stmt} {inLoop : Bool} {st st' : Progress} {cs : List Cpp.Stmt},
    f.EmitsStmt inLoop st s cs st' → (∀ s' ∈ s.within, s'.Worded) → OrderlyBlock inLoop cs
  | _, _, _, _, _, .store _ _ hc, h => by
    have hs := h _ (Stmt.within_self _)
    have hname := hs.names _ List.mem_cons_self
    exact ⟨⟨hname, (emits_of_expr hc).plain (hs.written _ List.mem_cons_self)⟩, trivial⟩
  | _, _, _, _, _, .declare _ _ hc, h => by
    have hs := h _ (Stmt.within_self _)
    have hname := hs.names _ List.mem_cons_self
    exact ⟨⟨hname, plain_of_initial (hs.written _ List.mem_cons_self) hc⟩, trivial⟩
  | _, _, _, _, _, .assignAt hc, h => by
    have hwritten := (h _ (Stmt.within_self _)).written
    obtain ⟨ct, ci, cv, hct, hci, hcv, rfl⟩ := assignAt_cases hc
    have hpt := (emits_of_expr hct).plain (hwritten _ (by simp [Stmt.operands]))
    have hpi := (emits_of_expr hci).plain (hwritten _ (by simp [Stmt.operands]))
    have hpv := (emits_of_expr hcv).plain (hwritten _ (by simp [Stmt.operands]))
    exact ⟨⟨plain_element.2 ⟨hpt, hpi⟩, hpv⟩, trivial⟩
  | _, _, _, _, _, .print hc, h => by
    have hwritten := (h _ (Stmt.within_self _)).written
    obtain ⟨cs, hcs, hc⟩ := exists_of_bind_eq_ok hc
    cases hc
    refine ⟨plain_outputItems ((emits_of_exprs hcs).plain ?_), trivial⟩
    intro e he
    obtain ⟨e', he', hmem⟩ := Expr.mem_partsOf.1 he
    exact hwritten e' he' e hmem
  | _, _, _, _, _, .ifElse hc hb he, h => by
    have hcond := (emits_of_expr hc).plain ((h _ (Stmt.within_self _)).written _ List.mem_cons_self)
    have hbody := hb.orderly fun s hs => h s (by simp [Stmt.within, hs])
    have helse := he.orderly fun s hs => h s (by simp [Stmt.within, hs])
    exact ⟨⟨plain_truth.2 hcond, hbody, helse⟩, trivial⟩
  | _, _, _, _, _, .whileLoop hc hb, h => by
    have hcond := (emits_of_expr hc).plain ((h _ (Stmt.within_self _)).written _ List.mem_cons_self)
    have hbody := hb.orderly fun s hs => h s (by simp [Stmt.within, hs])
    exact ⟨⟨plain_truth.2 hcond, hbody⟩, trivial⟩
  | _, _, _, _, _, .freshLoop hh _ hb, h => by
    have hs := h _ (Stmt.within_self _)
    have hhead :=
      plain_of_loopHead (hs.names _ List.mem_cons_self) (hs.written _ List.mem_cons_self) hh
    have hbody := hb.orderly fun s hs => h s (by simp [Stmt.within, hs])
    exact ⟨hhead.1.orderly (Cpp.orderlyBlock_append.2 ⟨hhead.2, hbody⟩) _, trivial⟩
  | _, _, _, _, _, .loop hh _ hb, h => by
    have hs := h _ (Stmt.within_self _)
    have hhead :=
      plain_of_loopHead (hs.names _ List.mem_cons_self) (hs.written _ List.mem_cons_self) hh
    have hbody := hb.orderly fun s hs => h s (by simp [Stmt.within, hs])
    exact ⟨hhead.1.orderly (Cpp.orderlyBlock_append.2 ⟨hhead.2, hbody⟩) _, trivial⟩
  | _, _, _, _, _, .ret hc, h => by
    have hwritten := (h _ (Stmt.within_self _)).written
    refine ⟨?_, trivial⟩
    obtain ⟨-, rfl⟩ | ⟨-, ⟨e, ce, rfl, he, rfl⟩ | ⟨-, rfl | rfl⟩⟩ := ret_cases hc
    · exact fun e he => Option.some.inj he ▸ Int.le_refl 0
    · exact fun c hc => Option.some.inj hc ▸ (emits_of_expr he).plain
        (hwritten e List.mem_cons_self)
    · exact nofun
    · trivial
  | _, _, _, _, _, .eval hc, h =>
    ⟨(emits_of_expr hc).plain ((h _ (Stmt.within_self _)).written _ List.mem_cons_self), trivial⟩
  | _, _, _, _, _, .pass, _ => trivial
  | _, _, _, _, _, .break_, _ | _, _, _, _, _, .continue_, _ => ⟨rfl, trivial⟩

theorem EmitsBlock.orderly : ∀ {ss : List Stmt} {inLoop : Bool} {st st' : Progress}
    {cs : List Cpp.Stmt}, f.EmitsBlock inLoop st ss cs st' →
    (∀ s ∈ Stmt.withinBlock ss, s.Worded) → OrderlyBlock inLoop cs
  | _, _, _, _, _, .nil, _ => trivial
  | _, _, _, _, _, .cons hs hrest, h =>
    Cpp.orderlyBlock_append.2 ⟨hs.orderly fun s hs => h s (by simp [Stmt.withinBlock, hs]),
      hrest.orderly fun s hs => h s (by simp [Stmt.withinBlock, hs])⟩

theorem EmitsElse.orderly : ∀ {orelse : Option (List Stmt)} {inLoop : Bool} {st st' : Progress}
    {c : Cpp.Else}, f.EmitsElse inLoop st orelse c st' →
    (∀ s ∈ Stmt.withinElse orelse, s.Worded) → c.Orderly inLoop
  | _, _, _, _, _, .nothing, _ => trivial
  | _, _, _, _, _, .elseIf hc hb he, h => by
    have hs := h _ (List.mem_append_left _ (Stmt.within_self (.ifElse _ _ _)))
    have hcond := (emits_of_expr hc).plain (hs.written _ List.mem_cons_self)
    have hbody := hb.orderly fun s hs =>
      h s (by simp [Stmt.withinElse, Stmt.withinBlock, Stmt.within, hs])
    have helse := he.orderly fun s hs =>
      h s (by simp [Stmt.withinElse, Stmt.withinBlock, Stmt.within, hs])
    exact ⟨plain_truth.2 hcond, hbody, helse⟩
  | _, _, _, _, _, .block hb, h => hb.orderly h

end

end Frame

end Braces
