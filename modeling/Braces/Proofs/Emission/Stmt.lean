import Braces.Emit
import Braces.Proofs.Emission.Expr

/-!
# What emitting a statement gives

The relation `EmitsStmt` says what each form of statement is emitted as, and how far the routine has
come then. A loop is emitted from its head, which `loopHead` makes, and its body.
-/

namespace Braces

namespace Frame

mutual

inductive EmitsStmt (f : Frame) : Bool → Progress → Stmt → List Cpp.Stmt → Progress → Prop
  | store {inLoop st name value c} :
      checkSlot (.variable name) (f.varTy name) (f.typeOf value) = .ok () →
      name ∈ st.declared → f.expr value = .ok c →
      EmitsStmt f inLoop st (.assign name value) [.store (.var (.source name)) c] st
  | declare {inLoop st name value c} :
      checkSlot (.variable name) (f.varTy name) (f.typeOf value) = .ok () →
      name ∉ st.declared → f.initial (f.declType name value) value = .ok c →
      EmitsStmt f inLoop st (.assign name value)
        [.declare (f.declType name value) (.source name) c] (st.declare name)
  | assignAt {inLoop st target position value c} : f.assignAt target position value = .ok c →
      EmitsStmt f inLoop st (.assignAt target position value) [c] st
  | print {inLoop st args c} : f.print args = .ok c → EmitsStmt f inLoop st (.print args) [c] st
  | ifElse {inLoop st cond body orelse c cbody celse st₁ st₂} : f.expr cond = .ok c →
      EmitsBlock f inLoop st body cbody st₁ → EmitsElse f inLoop st₁ orelse celse st₂ →
      EmitsStmt f inLoop st (.ifElse cond body orelse) [.ifElse (f.truth cond c) cbody celse] st₂
  | whileLoop {inLoop st cond body c cbody st₁} : f.expr cond = .ok c →
      EmitsBlock f true st body cbody st₁ →
      EmitsStmt f inLoop st (.whileLoop cond body) [.whileLoop (f.truth cond c) cbody] st₁
  | freshLoop {inLoop st name iterable body head first st₁ cbody st₂} :
      f.loopHead st name iterable (Stmt.assignedIn body) = .ok (head, first, st₁) →
      name ∉ st₁.declared → EmitsBlock f true (st₁.declare name) body cbody st₂ →
      EmitsStmt f inLoop st (.forLoop name iterable body) [head.loop (first ++ cbody)]
        (st₂.forget name)
  | loop {inLoop st name iterable body head first st₁ cbody st₂} :
      f.loopHead st name iterable (Stmt.assignedIn body) = .ok (head, first, st₁) →
      name ∈ st₁.declared → EmitsBlock f true st₁ body cbody st₂ →
      EmitsStmt f inLoop st (.forLoop name iterable body) [head.loop (first ++ cbody)] st₂
  | ret {inLoop st value c} : f.ret value = .ok c → EmitsStmt f inLoop st (.ret value) [c] st
  | eval {inLoop st e c} : f.expr e = .ok c → EmitsStmt f inLoop st (.eval e) [.eval c] st
  | pass {inLoop st} : EmitsStmt f inLoop st .pass [] st
  | break_ {st} : EmitsStmt f true st .break_ [.jump .break_] st
  | continue_ {st} : EmitsStmt f true st .continue_ [.jump .continue_] st

inductive EmitsBlock (f : Frame) : Bool → Progress → List Stmt → List Cpp.Stmt → Progress → Prop
  | nil {inLoop st} : EmitsBlock f inLoop st [] [] st
  | cons {inLoop st s rest here st₁ later st₂} : EmitsStmt f inLoop st s here st₁ →
      EmitsBlock f inLoop st₁ rest later st₂ →
      EmitsBlock f inLoop st (s :: rest) (here ++ later) st₂

inductive EmitsElse (f : Frame) :
    Bool → Progress → Option (List Stmt) → Cpp.Else → Progress → Prop
  | nothing {inLoop st} : EmitsElse f inLoop st none .nothing st
  | elseIf {inLoop st cond body orelse c cbody celse st₁ st₂} : f.expr cond = .ok c →
      EmitsBlock f inLoop st body cbody st₁ → EmitsElse f inLoop st₁ orelse celse st₂ →
      EmitsElse f inLoop st (some [.ifElse cond body orelse])
        (.elseIf (f.truth cond c) cbody celse) st₂
  | block {inLoop st body cbody st₁} : EmitsBlock f inLoop st body cbody st₁ →
      EmitsElse f inLoop st (some body) (.block cbody) st₁

end

variable {f : Frame}

theorem emits_of_assign {inLoop : Bool} {st st' : Progress} {name : String} {value : Expr}
    {cs : List Cpp.Stmt} (h : f.assign name value st = .ok (cs, st')) :
    f.EmitsStmt inLoop st (.assign name value) cs st' := by
  unfold assign at h
  obtain ⟨_, hslot, h⟩ := exists_of_bind_eq_ok h
  split at h
  · next hd =>
    obtain ⟨c, hc, h⟩ := exists_of_bind_eq_ok h
    cases h
    exact .store hslot hd hc
  · next hd =>
    obtain ⟨c, hc, h⟩ := exists_of_bind_eq_ok h
    cases h
    exact .declare hslot hd hc

theorem loop_of_jump {inLoop : Bool} {j : Jump} {c : Cpp.Stmt} (h : jump inLoop j = .ok c) :
    inLoop = true ∧ c = .jump j := by
  unfold jump at h
  split at h
  · next hl => cases h; exact ⟨hl, rfl⟩
  · cases h

mutual

theorem emits_of_stmt : ∀ {s : Stmt} {inLoop : Bool} {st st' : Progress} {cs : List Cpp.Stmt},
    f.stmt inLoop st s = .ok (cs, st') → f.EmitsStmt inLoop st s cs st'
  | .assign name value, _, _, _, _, h => emits_of_assign h
  | .assignAt _ _ _, _, _, _, _, h => by
    rw [stmt] at h
    obtain ⟨c, hc, h⟩ := exists_of_bind_eq_ok h
    cases h
    exact .assignAt hc
  | .print _, _, _, _, _, h => by
    rw [stmt] at h
    obtain ⟨c, hc, h⟩ := exists_of_bind_eq_ok h
    cases h
    exact .print hc
  | .ifElse cond body orelse, _, _, _, _, h => by
    rw [stmt] at h
    obtain ⟨c, hc, h⟩ := exists_of_bind_eq_ok h
    obtain ⟨⟨cbody, st₁⟩, hb, h⟩ := exists_of_bind_eq_ok h
    obtain ⟨⟨celse, st₂⟩, he, h⟩ := exists_of_bind_eq_ok h
    cases h
    exact .ifElse hc (emits_of_block hb) (emits_of_otherwise he)
  | .whileLoop cond body, _, _, _, _, h => by
    rw [stmt] at h
    obtain ⟨c, hc, h⟩ := exists_of_bind_eq_ok h
    obtain ⟨⟨cbody, st₁⟩, hb, h⟩ := exists_of_bind_eq_ok h
    cases h
    exact .whileLoop hc (emits_of_block hb)
  | .forLoop name iterable body, _, _, _, _, h => by
    rw [stmt] at h
    obtain ⟨⟨head, first, st₁⟩, hh, h⟩ := exists_of_bind_eq_ok h
    obtain ⟨⟨cbody, st₂⟩, hb, h⟩ := exists_of_bind_eq_ok h
    cases h
    by_cases hd : name ∈ st₁.declared
    · simp only [hd, not_true_eq_false, if_false] at hb ⊢
      exact .loop hh hd (emits_of_block hb)
    · simp only [hd, not_false_eq_true, if_true] at hb ⊢
      exact .freshLoop hh hd (emits_of_block hb)
  | .funcDef _ _ _, _, _, _, _, h => by cases h
  | .ret _, _, _, _, _, h => by
    rw [stmt] at h
    obtain ⟨c, hc, h⟩ := exists_of_bind_eq_ok h
    cases h
    exact .ret hc
  | .eval _, _, _, _, _, h => by
    rw [stmt] at h
    obtain ⟨c, hc, h⟩ := exists_of_bind_eq_ok h
    cases h
    exact .eval hc
  | .pass, _, _, _, _, h => by cases h; exact .pass
  | .break_, _, _, _, _, h => by
    rw [stmt] at h
    obtain ⟨c, hc, h⟩ := exists_of_bind_eq_ok h
    obtain ⟨rfl, rfl⟩ := loop_of_jump hc
    cases h
    exact .break_
  | .continue_, _, _, _, _, h => by
    rw [stmt] at h
    obtain ⟨c, hc, h⟩ := exists_of_bind_eq_ok h
    obtain ⟨rfl, rfl⟩ := loop_of_jump hc
    cases h
    exact .continue_

theorem emits_of_block : ∀ {body : List Stmt} {inLoop : Bool} {st st' : Progress}
    {cs : List Cpp.Stmt}, f.block inLoop st body = .ok (cs, st') →
      f.EmitsBlock inLoop st body cs st'
  | [], _, _, _, _, h => by cases h; exact .nil
  | s :: rest, _, _, _, _, h => by
    rw [block] at h
    obtain ⟨⟨here, st₁⟩, hs, h⟩ := exists_of_bind_eq_ok h
    obtain ⟨⟨later, st₂⟩, hr, h⟩ := exists_of_bind_eq_ok h
    cases h
    exact .cons (emits_of_stmt hs) (emits_of_block hr)

theorem emits_of_otherwise : ∀ {orelse : Option (List Stmt)} {inLoop : Bool} {st st' : Progress}
    {ce : Cpp.Else}, f.otherwise inLoop st orelse = .ok (ce, st') →
    f.EmitsElse inLoop st orelse ce st'
  | none, _, _, _, _, h => by cases h; exact .nothing
  | some body, _, _, _, _, h => by
    unfold otherwise at h
    split at h
    · next hn => cases hn
    · next cond body orelse hs =>
      cases hs
      obtain ⟨c, hc, h⟩ := exists_of_bind_eq_ok h
      obtain ⟨⟨cbody, st₁⟩, hb, h⟩ := exists_of_bind_eq_ok h
      obtain ⟨⟨celse, st₂⟩, he, h⟩ := exists_of_bind_eq_ok h
      cases h
      exact .elseIf hc (emits_of_block hb) (emits_of_otherwise he)
    · next body' _ hs =>
      cases hs
      obtain ⟨⟨cbody, st₁⟩, hb, h⟩ := exists_of_bind_eq_ok h
      cases h
      exact .block (emits_of_block hb)

end

end Frame

end Braces
