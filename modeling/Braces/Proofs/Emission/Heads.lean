import Braces.Proofs.Emission.Stmt
import Braces.Proofs.Emission.Variables
import Braces.Proofs.Spelling

/-!
# Heads of loops

A loop either declares its own variable in its head, or counts with hidden variables that share one
number and gives its variable a value at the start of the body. The number is one that no variable
of the routine uses.
-/

namespace Braces

open Cpp (Mark Name Stem hiddenName)

namespace LoopHead

/-- The marks of the head of a loop, without the brace that opens the body. -/
def marks : LoopHead → List Mark
  | .count counters cond advance => Cpp.counterMarks counters ++ (cond.uses ++ advance.uses)
  | .each _ name sequence => .declares name :: sequence.uses

theorem marks_loop (body : List Cpp.Stmt) (head : LoopHead) :
    (head.loop body).marks = (.opens :: head.marks) :: (Cpp.blockMarks body ++ [[.closes]]) := by
  cases head <;> rfl

theorem marks_flat (head : LoopHead) : ∀ m ∈ head.marks, m ≠ .opens ∧ m ≠ .closes := by
  have huses : ∀ names : List Name, ∀ m ∈ names.map Mark.uses, m ≠ .opens ∧ m ≠ .closes := by
    intro names m hm
    obtain ⟨n, -, rfl⟩ := List.mem_map.mp hm
    exact ⟨nofun, nofun⟩
  have hcounters : ∀ counters, ∀ m ∈ Cpp.counterMarks counters, m ≠ .opens ∧ m ≠ .closes := by
    intro counters
    induction counters with
    | nil => nofun
    | cons c rest ih =>
      intro m hm
      rcases List.mem_cons.mp hm with rfl | hm
      · exact ⟨nofun, nofun⟩
      · exact (List.mem_append.mp hm).elim (huses _ m) (ih m)
  intro m hm
  cases head with
  | count counters cond advance =>
    rw [marks, Cpp.Advance.uses_eq] at hm
    rcases List.mem_append.mp hm with hm | hm
    · exact hcounters counters m hm
    · exact (List.mem_append.mp hm).elim (huses _ m) (huses _ m)
  | each ty name sequence =>
    rcases List.mem_cons.mp hm with rfl | hm
    · exact ⟨nofun, nofun⟩
    · exact huses _ m hm

@[simp] theorem own_loop (body : List Cpp.Stmt) (head : LoopHead) : (head.loop body).own = [] := by
  cases head <;> rfl

end LoopHead

namespace Frame

/-- What a loop head declares and uses, and how the body starts. -/
inductive HeadOf (f : Frame) (st : Progress) (name : String) (iterable : Expr) :
    LoopHead → List Cpp.Stmt → Progress → Prop
  /-- The variable of the loop is declared in the head. -/
  | own {head} (used : List Name) : name ∉ st.declared →
      head.marks = .declares (.source name) :: used.map .uses →
      used ⊆ .source name :: iterable.vars.map .source →
      HeadOf f st name iterable head [] st
  /-- Hidden variables of one number are declared in the head. -/
  | hidden {head value n} (stems : List Stem) : st.nextHidden ≤ n → stems.Nodup →
      (∀ s ∈ stems, hiddenName s n ∉ f.varNames) →
      Cpp.declaredNames head.marks = stems.map (.hidden · n) →
      Cpp.usedNames head.marks ⊆ stems.map (.hidden · n) ++ iterable.vars.map .source →
      value.names ⊆ stems.map (.hidden · n) →
      HeadOf f st name iterable head [f.loopStore (name ∉ st.declared) name value]
        { st with nextHidden := n + 1 }

variable {f : Frame}

theorem HeadOf.declared {st st₁ : Progress} {name : String} {iterable : Expr} {head : LoopHead}
    {first : List Cpp.Stmt} (h : f.HeadOf st name iterable head first st₁) :
    st₁.declared = st.declared := by
  cases h <;> rfl

theorem hiddenName_apart {stems : List Stem} {n m : Nat} {s : String}
    (hn : s ∈ stems.map (hiddenName · n)) (hm : s ∈ stems.map (hiddenName · m)) : n = m := by
  obtain ⟨a, -, rfl⟩ := List.mem_map.mp hn
  obtain ⟨b, -, hb⟩ := List.mem_map.mp hm
  exact (Cpp.hiddenName_inj hb).2.symm

/-- A number that is free for some stems gives none of them the name of a variable. -/
theorem hiddenName_free (stems : List Stem) (n : Nat) :
    ∀ s ∈ stems,
      hiddenName s (firstFree (fun k => stems.map (hiddenName · k)) f.varNames n) ∉ f.varNames := by
  intro s hs
  exact firstFree_free hiddenName_apart f.varNames n (List.mem_map_of_mem hs)

/-! ## Counting loops -/

/-- The head of a loop that counts with its own variable. -/
def ownHead (name : String) (sign? : Option Int) (cstart cstop : Cpp.Expr)
    (cstep : Option Cpp.Expr) : LoopHead :=
  let (cond, advance) := counting sign? (.source name) cstop cstep
  .count [(.source name, cstart)] cond advance

/-- The stride of a loop that counts with hidden variables, and the variable that holds it. -/
def hiddenStride (n : Nat) (sign? : Option Int) (cstep : Option Cpp.Expr) :
    Option Cpp.Expr × List (Name × Cpp.Expr) :=
  match cstep, sign? with
  | some c, none => (some (.var (.hidden .stride n)), [(.hidden .stride n, .helper .step [c])])
  | c?, _ => (c?, [])

/-- The head of a loop that counts with hidden variables. -/
def hiddenHead (n : Nat) (sign? : Option Int) (keepsBound : Bool) (cstart cstop : Cpp.Expr)
    (cstep : Option Cpp.Expr) : LoopHead :=
  let counter := Name.hidden .counter n
  let bound := if keepsBound then cstop else .var (.hidden .bound n)
  let bounds := if keepsBound then [] else [(Name.hidden .bound n, cstop)]
  let (stride?, strides) := hiddenStride n sign? cstep
  let (cond, advance) := counting sign? counter bound stride?
  .count ((counter, cstart) :: bounds ++ strides) cond advance

/-- The number of the hidden variables of a counting loop. -/
def counterNumber (f : Frame) (st : Progress) : Nat :=
  firstFree (fun k => [Stem.counter, .bound, .stride].map (hiddenName · k)) f.varNames st.nextHidden

theorem rangeHead_cases {st st₁ : Progress} {name : String} {start stop : Expr}
    {step : Option Expr} {assigned : List String} {head : LoopHead} {first : List Cpp.Stmt}
    (h : f.rangeHead st name start stop step assigned = .ok (head, first, st₁)) :
    ∃ cstart cstop cstep, f.expr start = .ok cstart ∧ f.expr stop = .ok cstop ∧
      f.option step = .ok cstep ∧
      ((name ∉ st.declared ∧ (stepSign? step).isSome ∧ name ∉ assigned ∧ stop.isStable assigned ∧
          head = ownHead name (stepSign? step) cstart cstop cstep ∧ first = [] ∧ st₁ = st) ∨
        (head = hiddenHead (f.counterNumber st) (stepSign? step) stop.literalSign?.isSome cstart
            cstop cstep ∧
          first = [f.loopStore (name ∉ st.declared) name
            (.var (.hidden .counter (f.counterNumber st)))] ∧
          st₁ = { st with nextHidden := f.counterNumber st + 1 })) := by
  unfold rangeHead at h
  obtain ⟨_, _, h⟩ := exists_of_bind_eq_ok h
  obtain ⟨_, _, h⟩ := exists_of_bind_eq_ok h
  obtain ⟨_, _, h⟩ := exists_of_bind_eq_ok h
  obtain ⟨cstart, hstart, h⟩ := exists_of_bind_eq_ok h
  obtain ⟨cstop, hstop, h⟩ := exists_of_bind_eq_ok h
  obtain ⟨cstep, hstep, h⟩ := exists_of_bind_eq_ok h
  refine ⟨cstart, cstop, cstep, hstart, hstop, hstep, ?_⟩
  split at h
  · next hdirect =>
    simp only [Bool.and_eq_true, decide_eq_true_eq] at hdirect
    obtain ⟨⟨⟨hfresh, hsign⟩, hassigned⟩, hstable⟩ := hdirect
    cases h
    exact .inl ⟨hfresh, hsign, hassigned, hstable, rfl, rfl, rfl⟩
  · cases h
    exact .inr ⟨rfl, rfl, rfl⟩

/-- The variables of an expression that may be left out. -/
def namesOf? (c? : Option Cpp.Expr) : List Name := (c?.map Cpp.Expr.names).getD []

theorem names_counting (sign? : Option Int) (counter : Name) (bound : Cpp.Expr)
    (stride? : Option Cpp.Expr) :
    (counting sign? counter bound stride?).1.names ++
        (counting sign? counter bound stride?).2.names ⊆
      counter :: (bound.names ++ namesOf? stride?) := by
  intro n hn
  cases stride? with
  | none =>
    simp only [counting, towards, Cpp.Expr.names, Cpp.Advance.names] at hn
    grind
  | some c =>
    cases sign? with
    | none =>
      simp only [counting, towards, Cpp.Expr.names, Cpp.Advance.names] at hn
      grind [namesOf?]
    | some s =>
      simp only [counting, towards, Cpp.Expr.names, Cpp.Advance.names] at hn
      grind [namesOf?]

theorem marks_count (counters : List (Name × Cpp.Expr)) (cond : Cpp.Expr) (a : Cpp.Advance) :
    LoopHead.marks (.count counters cond a) =
      Cpp.counterMarks counters ++ (cond.names ++ a.names).map .uses := by
  simp [LoopHead.marks, Cpp.Expr.uses, Cpp.Advance.uses_eq]

theorem headOf_ownHead {st : Progress} {name : String} {iterable : Expr} {sign? : Option Int}
    {cstart cstop : Cpp.Expr} {cstep : Option Cpp.Expr} (hfresh : name ∉ st.declared)
    (hvars : cstart.names ++ (cstop.names ++ namesOf? cstep) ⊆ iterable.vars.map .source) :
    f.HeadOf st name iterable (ownHead name sign? cstart cstop cstep) [] st := by
  have hnames := names_counting sign? (.source name) cstop cstep
  rw [ownHead]
  generalize counting sign? (.source name) cstop cstep = ca at hnames ⊢
  refine .own (cstart.names ++ (ca.1.names ++ ca.2.names)) hfresh ?_ ?_
  · simp [marks_count, Cpp.counterMarks, Cpp.Expr.uses]
  · grind

/-- The stems of the hidden variables of a counting loop. -/
def hiddenStems (sign? : Option Int) (keepsBound : Bool) (cstep : Option Cpp.Expr) : List Stem :=
  .counter :: ((if keepsBound then [] else [.bound]) ++
    (if cstep.isSome && sign?.isNone then [.stride] else []))

theorem hiddenStems_sublist (sign? : Option Int) (keepsBound : Bool) (cstep : Option Cpp.Expr) :
    (hiddenStems sign? keepsBound cstep).Sublist [.counter, .bound, .stride] := by
  unfold hiddenStems
  split <;> split <;> decide

/-- A bound or a stride that a hidden variable holds is read through that variable. -/
theorem names_hidden (n : Nat) (sign? : Option Int) (keepsBound : Bool) (cstop : Cpp.Expr)
    (cstep : Option Cpp.Expr) :
    (if keepsBound then cstop else .var (.hidden .bound n)).names ++
        namesOf? (hiddenStride n sign? cstep).1 ⊆
      (hiddenStems sign? keepsBound cstep).map (.hidden · n) ++
        (cstop.names ++ namesOf? cstep) := by
  intro m hm
  cases keepsBound <;> cases cstep <;> cases sign? <;>
    simp [hiddenStride, hiddenStems, namesOf?, Cpp.Expr.names] at hm ⊢ <;> grind

theorem headOf_hiddenHead {st : Progress} {name : String} {iterable : Expr} {sign? : Option Int}
    {keepsBound : Bool} {cstart cstop : Cpp.Expr} {cstep : Option Cpp.Expr}
    (hvars : cstart.names ++ (cstop.names ++ namesOf? cstep) ⊆ iterable.vars.map .source) :
    f.HeadOf st name iterable
      (hiddenHead (f.counterNumber st) sign? keepsBound cstart cstop cstep)
      [f.loopStore (name ∉ st.declared) name (.var (.hidden .counter (f.counterNumber st)))]
      { st with nextHidden := f.counterNumber st + 1 } := by
  have hsub := hiddenStems_sublist sign? keepsBound cstep
  refine .hidden (hiddenStems sign? keepsBound cstep) ?_ ?_ ?_ ?_ ?_ ?_
  · exact le_firstFree _ _ _
  · exact hsub.nodup (by decide)
  · exact fun s hs => hiddenName_free [.counter, .bound, .stride] st.nextHidden s (hsub.subset hs)
  · rw [hiddenHead, marks_count]
    cases keepsBound <;> cases cstep <;> cases sign? <;> simp [hiddenStride, hiddenStems]
  · have hnames := names_counting sign? (.hidden .counter (f.counterNumber st))
      (if keepsBound then cstop else .var (.hidden .bound (f.counterNumber st)))
      (hiddenStride (f.counterNumber st) sign? cstep).1
    rw [hiddenHead, marks_count]
    generalize counting sign? (.hidden .counter (f.counterNumber st)) _ _ = ca at hnames ⊢
    have hhidden := names_hidden (f.counterNumber st) sign? keepsBound cstop cstep
    have hcounters : List.flatMap (fun c : Name × Cpp.Expr => c.2.names)
        ((.hidden .counter (f.counterNumber st), cstart) ::
          (if keepsBound then [] else [(.hidden .bound (f.counterNumber st), cstop)]) ++
          (hiddenStride (f.counterNumber st) sign? cstep).2) ⊆
        cstart.names ++ (cstop.names ++ namesOf? cstep) := by
      cases keepsBound <;> cases cstep <;> cases sign? <;>
        simp [hiddenStride, namesOf?, Cpp.Expr.names, Cpp.Expr.namesOf]
    have hcounter : Name.hidden .counter (f.counterNumber st) ∈
        (hiddenStems sign? keepsBound cstep).map (.hidden · (f.counterNumber st)) :=
      List.mem_cons_self
    simp only [Cpp.usedNames_append, Cpp.usedNames_counterMarks, Cpp.usedNames_uses]
    intro m hm
    clear hsub
    grind
  · simp [hiddenStems, Cpp.Expr.names]

theorem headOf_of_rangeHead {st st₁ : Progress} {name : String} {iterable start stop : Expr}
    {step : Option Expr} {assigned : List String} {head : LoopHead} {first : List Cpp.Stmt}
    (hvars : start.vars ++ (stop.vars ++ Expr.varsOfOption step) ⊆ iterable.vars)
    (h : f.rangeHead st name start stop step assigned = .ok (head, first, st₁)) :
    f.HeadOf st name iterable head first st₁ := by
  obtain ⟨cstart, cstop, cstep, hstart, hstop, hstep, hcases⟩ := rangeHead_cases h
  have hcstart := (emits_of_expr hstart).names_subset
  have hcstop := (emits_of_expr hstop).names_subset
  have hcstep : namesOf? cstep ⊆ (Expr.varsOfOption step).map .source := by
    cases emits_of_option hstep with
    | absent => exact List.nil_subset _
    | present he => exact he.names_subset
  have hall : cstart.names ++ (cstop.names ++ namesOf? cstep) ⊆ iterable.vars.map .source := by
    intro n hn
    grind
  obtain ⟨hfresh, -, -, -, rfl, rfl, rfl⟩ | ⟨rfl, rfl, rfl⟩ := hcases
  · exact headOf_ownHead hfresh hall
  · exact headOf_hiddenHead hall

/-! ## Loops over sequences -/

/-- The sequence that a loop walks: a copy, if the body stores to the variable that holds it. -/
def walked (iterable : Expr) (c : Cpp.Expr) (ty : Ty) (assigned : List String) : Cpp.Expr :=
  match iterable with
  | .var v =>
    if v ∈ assigned then .construct (if ty = .str then .str else .list) [sequence iterable c]
    else sequence iterable c
  | _ => sequence iterable c

@[simp] theorem names_walked (iterable : Expr) (c : Cpp.Expr) (ty : Ty) (assigned : List String) :
    (walked iterable c ty assigned).names = c.names := by
  unfold walked
  split
  · split <;> simp [Cpp.Expr.names, Cpp.Expr.namesOf]
  · exact names_sequence iterable c

/-- The number of the hidden variable of a loop over a sequence. -/
def itemNumber (f : Frame) (st : Progress) : Nat :=
  firstFree (fun k => [Stem.item].map (hiddenName · k)) f.varNames st.nextHidden

/-- An item of a sequence as a value of the loop's variable. -/
def itemValue (ty : Ty) (n : Nat) : Cpp.Expr :=
  if ty = .str then .construct .str [.int 1, .var (.hidden .item n)] else .var (.hidden .item n)

theorem collectionHead_cases {st st₁ : Progress} {name : String} {iterable : Expr}
    {assigned : List String} {head : LoopHead} {first : List Cpp.Stmt}
    (h : f.collectionHead st name iterable assigned = .ok (head, first, st₁)) :
    ∃ c, f.expr iterable = .ok c ∧
      ((name ∉ st.declared ∧ f.typeOf iterable ≠ .str ∧
          head = .each (.ty (f.varTy name)) (.source name)
            (walked iterable c (f.typeOf iterable) assigned) ∧
          first = [] ∧ st₁ = st) ∨
        (head = .each .auto (.hidden .item (f.itemNumber st))
            (walked iterable c (f.typeOf iterable) assigned) ∧
          first = [f.loopStore (name ∉ st.declared) name
            (itemValue (f.typeOf iterable) (f.itemNumber st))] ∧
          st₁ = { st with nextHidden := f.itemNumber st + 1 })) := by
  unfold collectionHead at h
  dsimp only at h
  by_cases hit : (f.typeOf iterable).isIterable
  · rw [if_pos hit] at h
    obtain ⟨c, hc, h⟩ := exists_of_bind_eq_ok h
    refine ⟨c, hc, ?_⟩
    by_cases hown : name ∉ st.declared ∧ f.typeOf iterable ≠ .str
    · rw [if_pos (by simpa using hown)] at h
      cases h
      exact .inl ⟨hown.1, hown.2, rfl, rfl, rfl⟩
    · rw [if_neg (by simpa using hown)] at h
      cases h
      exact .inr ⟨rfl, rfl, rfl⟩
  · rw [if_neg hit] at h
    cases h

theorem headOf_of_collectionHead {st st₁ : Progress} {name : String} {iterable : Expr}
    {assigned : List String} {head : LoopHead} {first : List Cpp.Stmt}
    (h : f.collectionHead st name iterable assigned = .ok (head, first, st₁)) :
    f.HeadOf st name iterable head first st₁ := by
  obtain ⟨c, hc, hcases⟩ := collectionHead_cases h
  have hnames := (emits_of_expr hc).names_subset
  obtain ⟨hfresh, -, rfl, rfl, rfl⟩ | ⟨rfl, rfl, rfl⟩ := hcases
  · refine .own c.names hfresh ?_ (List.subset_cons_of_subset _ hnames)
    simp [LoopHead.marks, Cpp.Expr.uses]
  · refine .hidden [.item] (le_firstFree _ _ _) (by decide)
      (hiddenName_free [.item] st.nextHidden) ?_ ?_ ?_
    · simp [LoopHead.marks, Cpp.Expr.uses]
    · simpa [LoopHead.marks, Cpp.Expr.uses] using List.subset_cons_of_subset _ hnames
    · unfold itemValue
      split <;> simp [Cpp.Expr.names, Cpp.Expr.namesOf]

theorem headOf_of_loopHead {st st₁ : Progress} {name : String} {iterable : Expr}
    {assigned : List String} {head : LoopHead} {first : List Cpp.Stmt}
    (h : f.loopHead st name iterable assigned = .ok (head, first, st₁)) :
    f.HeadOf st name iterable head first st₁ := by
  unfold loopHead at h
  split at h
  · exact headOf_of_rangeHead (by simp [Expr.vars, Expr.varsOfOption]) h
  · exact headOf_of_rangeHead (by simp [Expr.vars, Expr.varsOfOption]) h
  · exact headOf_of_collectionHead h

end Frame

end Braces
