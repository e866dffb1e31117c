import Braces.Proofs.Emission.Heads
import Braces.Proofs.Running.Footprint

/-!
# Loops over a variable that is rebound

A loop over a variable walks the value that the variable has when the loop is entered. What is
emitted walks the variable itself, or a copy of it. The first is right as long as nothing in the
loop rebinds the variable; the second as long as nothing changes the items of the value. A store of
the body, at any depth, leads to a copy. The store of the loop to its own variable does not, so a
loop over `s` whose variable is `s` walks what its own passes put there.
-/

namespace Braces

open Attempt Run

variable {V H : Type}

namespace Stmt

mutual

/-- The names that a statement assigns are those that some statement within it gives a value. -/
theorem assigned_eq : ∀ s : Stmt, s.assigned = s.within.filterMap target?
  | .assign _ _ | .assignAt _ _ _ | .print _ | .funcDef _ _ _ | .ret _ | .eval _ | .pass | .break_
  | .continue_ => rfl
  | .ifElse cond body orelse => by
    rw [assigned, within, List.filterMap_cons_none rfl, List.filterMap_append, assignedIn_eq body,
      assignedInElse_eq orelse]
    rfl
  | .whileLoop cond body => by
    rw [assigned, within, List.filterMap_cons_none rfl, assignedIn_eq body]
    rfl
  | .forLoop name iterable body => by
    rw [assigned, within, assignedIn_eq body]
    rfl

theorem assignedIn_eq : ∀ ss : List Stmt, assignedIn ss = boundNames ss
  | [] => rfl
  | s :: rest => by
    rw [assignedIn, boundNames, withinBlock, List.filterMap_append, assigned_eq s,
      assignedIn_eq rest]
    rfl

theorem assignedInElse_eq :
    ∀ orelse : Option (List Stmt), assignedInElse orelse = (withinElse orelse).filterMap target?
  | none => rfl
  | some body => assignedIn_eq body

end

theorem boundNames_forLoop (name : String) (iterable : Expr) (body : List Stmt) :
    boundNames [.forLoop name iterable body] = name :: boundNames body := by
  rw [← assignedIn_eq, ← assignedIn_eq]
  exact List.append_nil _

end Stmt

/-! ## What a loop walks -/

/-- How a loop gets at the items of a variable. -/
inductive Access where
  /-- The variable itself is walked. -/
  | inPlace
  /-- A copy of the given type is walked. It is made when the loop is entered. -/
  | copied (ty : Ty)
  deriving DecidableEq, Repr

namespace Access

/-- What stands behind the colon of the head. -/
def expr (v : String) : Access → Cpp.Expr
  | .inPlace => .var (.source v)
  | .copied ty => .construct ty [.var (.source v)]

/-- The access that is emitted, given the names that the body assigns. -/
def emitted (ty : Ty) (v : String) (assigned : List String) : Access :=
  if v ∈ assigned then .copied (if ty = .str then .str else .list) else .inPlace

theorem text_copied (v : String) (ty : Ty) :
    (expr v (.copied ty)).text = ty.cppName ++ "(" ++ Cpp.spell v ++ ")" := by
  rw [expr, Cpp.Expr.text, Cpp.Expr.texts, Cpp.Expr.texts, Cpp.commas]
  rfl

theorem emitted_ne_inPlace {ty : Ty} {v : String} {assigned : List String} :
    emitted ty v assigned ≠ .inPlace ↔ v ∈ assigned := by
  rw [emitted]
  split <;> simp_all

theorem walked_eq (v : String) (ty : Ty) (assigned : List String) :
    Frame.walked (.var v) (.var (.source v)) ty assigned = (emitted ty v assigned).expr v := by
  rw [Frame.walked, emitted]
  split <;> rfl

end Access

/-- A loop over a variable has one access, whichever variables its head declares. -/
theorem Frame.head_of_variable {f : Frame} {st st₁ : Progress} {name v : String}
    {assigned : List String} {head : LoopHead} {first : List Cpp.Stmt}
    (h : f.loopHead st name (.var v) assigned = .ok (head, first, st₁)) :
    ∃ ty item, head = .each ty item ((Access.emitted (f.typeOf (.var v)) v assigned).expr v) := by
  obtain ⟨c, hc, hcases⟩ := collectionHead_cases h
  cases emits_of_expr hc
  rw [Access.walked_eq] at hcases
  obtain ⟨-, -, hhead, -, -⟩ | ⟨hhead, -, -⟩ := hcases
  · exact ⟨_, _, hhead⟩
  · exact ⟨_, _, hhead⟩

/-! ## Running the loop -/

namespace Machine

variable (M : Machine V H) (r : Region V)

/-- The item that a pass finds. A variable that is walked in place is looked up anew; a copy has the
items that the value `u` had in the store `h₀`. -/
def item (v : String) (u : V) (h₀ : H) (i : Nat) : Access → Run V H (Option V)
  | .inPlace => do
    let w ← read r v
    operate fun h => (M.runtime.walked w i h).map (·, h)
  | .copied _ => operate fun h => (M.runtime.walked u i h₀).map (·, h)

/-- Enters a pass of a loop over a variable, with the value and the store from when it was
entered. -/
def takeItem (access : Access) (x v : String) (u : V) (h₀ : H) (i : Nat) : Run V H Bool := do
  match ← M.item r v u h₀ i access with
  | some w =>
    write x w
    return true
  | none => return false

/-- A loop over a variable with the given access. -/
def walk (access : Access) (x v : String) (body : List Stmt) : Run V H (Flow V) := do
  let u ← read r v
  let m ← get
  cycle (M.takeItem r access x v u m.heap) (M.block r body) M.passes 0

end Machine

namespace Run

theorem on_operate_congr {α : Type} {f g : H → Option (α × H)} {m : Memory V H}
    (h : f m.heap = g m.heap) : (operate f : Run V H α).on m = (operate g).on m := by
  rw [operate, operate, on_get_bind, on_get_bind, h]

/-- Loops that enter their passes alike, as long as something holds that no pass changes, run
alike. -/
theorem on_cycle_congr {enter enter' : Nat → Run V H Bool} {body : Run V H (Flow V)}
    (P : Memory V H → Prop) (henter : ∀ i m, P m → (enter i).on m = (enter' i).on m)
    (hkept : ∀ i m, P m → P ((enter' i).on m).2) (hbody : ∀ m, P m → P (body.on m).2) :
    ∀ passes i m, P m → (cycle enter body passes i).on m = (cycle enter' body passes i).on m := by
  intro passes
  induction passes with
  | zero =>
    intro i m hm
    rfl
  | succ passes ih =>
    intro i m hm
    have hsame := henter i m hm
    have hentered := hkept i m hm
    rw [cycle, cycle]
    generalize ho : (enter' i).on m = o at hsame hentered
    obtain ⟨result, m₁⟩ := o
    cases result with
    | error e => rw [on_bind_error hsame, on_bind_error ho]
    | ok entered =>
      rw [on_bind_ok hsame, on_bind_ok ho]
      cases entered with
      | false => rfl
      | true =>
        have hran := hbody m₁ hentered
        rw [if_pos rfl, if_pos rfl]
        generalize ho' : body.on m₁ = o' at hran
        obtain ⟨result, m₂⟩ := o'
        cases result with
        | error e => rw [on_bind_error ho', on_bind_error ho']
        | ok flow =>
          rw [on_bind_ok ho', on_bind_ok ho']
          cases flow with
          | broke | returned => rfl
          | next | continued => exact ih (i + 1) m₂ hran

end Run

namespace Machine.Contained

variable {M : Machine V H} {G : Growth H}

/-- Where nothing rebinds the variable, looking it up anew finds what it held at first. -/
theorem walk_inPlace (hM : M.Contained G) {r : Region V} {x v : String} {body : List Stmt}
    (hv : v ∉ x :: Stmt.assignedIn body) (m : Memory V H) :
    (M.walk r .inPlace x v body).on m = (M.exec r (.forLoop x (.var v) body)).on m := by
  rw [Machine.walk, Machine.exec, Machine.eval]
  cases hu : r.lookup m.vars v with
  | none => rw [on_bind_error (on_read_none hu), on_bind_error (on_read_none hu)]
  | some u =>
    rw [on_bind_ok (on_read_some hu), on_bind_ok (on_read_some hu), on_get_bind]
    refine Run.on_cycle_congr (fun m => r.lookup m.vars v = some u) ?_ ?_ ?_ M.passes 0 m hu
    · intro i m₁ hm₁
      rw [Machine.takeItem, Machine.item, bind_assoc, on_bind_ok (on_read_some hm₁)]
      rfl
    · intro i m₁ hm₁
      have hx : v ∉ [x] := fun h => hv (List.mem_cons.2 (.inl (List.mem_singleton.1 h)))
      exact ((takeNext (G := G) x u i m₁).lookup r hx).trans hm₁
    · intro m₁ hm₁
      exact ((hM.block r body m₁).lookup r fun h => hv (List.mem_cons_of_mem x h)).trans hm₁

/-- Where nothing changes the items of the value, a copy has the items of the value itself. -/
theorem walk_copied (hM : M.Contained G) {r : Region V} {x v : String} {body : List Stmt} {ty : Ty}
    {m : Memory V H}
    (hitems : ∀ u, r.lookup m.vars v = some u → ∀ i h, G.rel m.heap h →
      M.runtime.walked u i h = M.runtime.walked u i m.heap) :
    (M.walk r (.copied ty) x v body).on m = (M.exec r (.forLoop x (.var v) body)).on m := by
  rw [Machine.walk, Machine.exec, Machine.eval]
  cases hu : r.lookup m.vars v with
  | none => rw [on_bind_error (on_read_none hu), on_bind_error (on_read_none hu)]
  | some u =>
    rw [on_bind_ok (on_read_some hu), on_bind_ok (on_read_some hu), on_get_bind]
    refine Run.on_cycle_congr (fun m₁ => G.rel m.heap m₁.heap) ?_ ?_ ?_ M.passes 0 m (G.refl _)
    · intro i m₁ hm₁
      have hitem : (M.item r v u m.heap i (.copied ty)).on m₁ =
          (operate fun h => (M.runtime.walked u i h).map (·, h)).on m₁ := by
        rw [Machine.item]
        exact on_operate_congr (by rw [hitems u hu i m₁.heap hm₁])
      exact on_bind_congr hitem
    · intro i m₁ hm₁
      exact G.trans hm₁ (takeNext (G := G) x u i m₁).heap
    · intro m₁ hm₁
      exact G.trans hm₁ (hM.block r body m₁).heap

end Machine.Contained

/-- Whenever a loop over a variable is emitted, it walks the variable or a copy of the variable's
type. It walks a copy if the loop rebinds the variable, unless the loop's own variable is the only
one that does. Where nothing rebinds the variable, walking it does what the loop does, and leaves it
alone; and a copy does what the loop does as long as nothing changes the items of the value that the
variable had. -/
theorem copied_if_rebound_iff {f : Frame} {st st₁ : Progress} {name v : String} {body : List Stmt}
    {head : LoopHead} {first : List Cpp.Stmt}
    (h : f.loopHead st name (.var v) (Stmt.assignedIn body) = .ok (head, first, st₁)) :
    ∃ ty item access, head = .each ty item (Access.expr v access) ∧
      (access = .inPlace ∨ (Access.expr v access).text =
        (if f.typeOf (.var v) = .str then "string" else "vector<long long>") ++ "(" ++
          Cpp.spell v ++ ")") ∧
      ((v ∈ Stmt.boundNames [.forLoop name (.var v) body] → access ≠ .inPlace) ↔
        (name = v → v ∈ Stmt.boundNames body)) ∧
      ∀ {V H : Type} (R : Runtime V H) (n : Nat) (r : Region V) (m : Memory V H),
        (v ∉ Stmt.boundNames [.forLoop name (.var v) body] →
          access = .inPlace ∧
          ((machine R n).walk r access name v body).on m =
            ((machine R n).exec r (.forLoop name (.var v) body)).on m ∧
          r.lookup (((machine R n).walk r access name v body).on m).2.vars v = r.lookup m.vars v) ∧
        ∀ G : Growth H, R.Grows G →
          (∀ u, r.lookup m.vars v = some u → ∀ i h, G.rel m.heap h →
            R.walked u i h = R.walked u i m.heap) →
          access ≠ .inPlace →
          ((machine R n).walk r access name v body).on m =
            ((machine R n).exec r (.forLoop name (.var v) body)).on m := by
  obtain ⟨ty, item, hhead⟩ := Frame.head_of_variable h
  refine ⟨ty, item, _, hhead, ?_, ?_, ?_⟩
  · rw [Access.emitted]
    split
    · rw [Access.text_copied]
      split
      · exact .inr rfl
      · exact .inr rfl
    · exact .inl rfl
  · rw [Access.emitted_ne_inPlace, Stmt.boundNames_forLoop, Stmt.assignedIn_eq, List.mem_cons]
    constructor
    · intro hcopied hname
      exact hcopied (.inl hname.symm)
    · rintro hown (rfl | hbody)
      · exact hown rfl
      · exact hbody
  · intro V H R n r m
    rw [Stmt.boundNames_forLoop, ← Stmt.assignedIn_eq]
    constructor
    · intro hv
      have haccess : Access.emitted (f.typeOf (.var v)) v (Stmt.assignedIn body) = .inPlace :=
        if_neg fun hmem => hv (List.mem_cons_of_mem name hmem)
      have hM := R.grows_any.contained n
      rw [haccess, hM.walk_inPlace hv]
      exact ⟨rfl, rfl, (hM.exec r (.forLoop name (.var v) body) m).lookup r hv⟩
    · intro G hG hitems hcopied
      have hmem := Access.emitted_ne_inPlace.1 hcopied
      rw [Access.emitted, if_pos hmem]
      exact (hG.contained n).walk_copied hitems

/-- A routine with one variable, which holds a text. -/
def textFrame : Frame :=
  ⟨⟨[], .ofList [(entryName, .ofList [("s", ⟨.str, false⟩)])]⟩, entryName⟩

/-- A memory with one variable, which holds the numbers zero and one. -/
def spanMemory : Memory Scalar Unit :=
  ⟨fun x => if x = "s" then some (.span 0 2) else none, fun _ => none, (), []⟩

/-- In a loop over `s` whose variable is `s`, only the loop itself rebinds `s`, and `s` is walked in
place. Over the numbers zero and one, the second pass then finds a number to walk, where the loop
goes on to its end. -/
theorem walked_in_place_though_rebound :
    ∃ head first st₁ ty item,
      textFrame.loopHead ⟨["s"], 0⟩ "s" (.var "s") (Stmt.assignedIn []) = .ok (head, first, st₁) ∧
      head = .each ty item (Access.expr "s" .inPlace) ∧
      "s" ∈ Stmt.boundNames [.forLoop "s" (.var "s") []] ∧
      (((machine scalars 4).walk .module .inPlace "s" "s" []).on spanMemory).1 = .error .raised ∧
      (((machine scalars 4).exec .module (.forLoop "s" (.var "s") [])).on spanMemory).1 =
        .ok .next := by
  have hhead : ∃ result,
      textFrame.loopHead ⟨["s"], 0⟩ "s" (.var "s") (Stmt.assignedIn []) = .ok result := ⟨_, rfl⟩
  obtain ⟨⟨head, first, st₁⟩, hhead⟩ := hhead
  obtain ⟨ty, item, access, heach, -, hcopied, -⟩ := copied_if_rebound_iff hhead
  have hplace : access = .inPlace := by
    by_contra hne
    have hbody := hcopied.1 (fun _ => hne) rfl
    cases hbody
  refine ⟨head, first, st₁, ty, item, hhead, hplace ▸ heach, ?_, rfl, rfl⟩
  rw [Stmt.boundNames_forLoop]
  exact List.mem_cons_self

end Braces
