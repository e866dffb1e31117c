import Braces.Cpp.Print

/-!
# Reading emitted lines by block scoping

Every emitted line is read as a list of marks: what it opens and closes, which names it declares and
which it uses, in the order of its text. A declaration is visible from its mark to the end of the
innermost block around it. The names that a loop declares in its head belong to the block of the
loop, so the head opens that block before it declares them.
-/

namespace Braces.Cpp

/-- What a part of a line means for scopes. -/
inductive Mark where
  | opens
  | closes
  | declares (name : Name)
  | uses (name : Name)
  deriving DecidableEq, Repr

/-! ## Marks of lines -/

namespace Expr

mutual

/-- The variables of an expression, in the order of its text. -/
def names : Expr → List Name
  | .var name => [name]
  | .binary _ l r => l.names ++ r.names
  | .unary _ e | .group e | .cast _ e | .size e => e.names
  | .helper _ args | .call _ args | .construct _ args => namesOf args
  | .vector elements | .braces elements => namesOf elements
  | .choose cond yes no => cond.names ++ (yes.names ++ no.names)
  | .int _ | .float _ | .str _ | .bool _ => []

def namesOf : List Expr → List Name
  | [] => []
  | e :: es => e.names ++ namesOf es

end

def uses (e : Expr) : List Mark := e.names.map .uses

end Expr

def Advance.uses : Advance → List Mark
  | .increment name => [.uses name]
  | .add name stride => .uses name :: stride.uses

def counterMarks : List (Name × Expr) → List Mark
  | [] => []
  | (name, e) :: rest => .declares name :: (e.uses ++ counterMarks rest)

mutual

/-- The marks of the lines of a statement, one list for each line. -/
def Stmt.marks : Stmt → List (List Mark)
  | .declare _ name value => [.declares name :: value.uses]
  | .reserve _ name => [[.declares name]]
  | .store target value => [target.uses ++ value.uses]
  | .output items => [(Expr.namesOf items).map .uses]
  | .eval e => [e.uses]
  | .ifElse cond body orelse => (cond.uses ++ [.opens]) :: (blockMarks body ++ orelse.marks)
  | .whileLoop cond body => (cond.uses ++ [.opens]) :: (blockMarks body ++ [[.closes]])
  | .forCount counters cond advance body =>
    (.opens :: (counterMarks counters ++ (cond.uses ++ advance.uses))) ::
      (blockMarks body ++ [[.closes]])
  | .forEach _ name sequence body =>
    (.opens :: .declares name :: sequence.uses) :: (blockMarks body ++ [[.closes]])
  | .ret (some e) => [e.uses]
  | .ret none | .retDefault | .jump _ => [[]]

def blockMarks : List Stmt → List (List Mark)
  | [] => []
  | s :: rest => s.marks ++ blockMarks rest

def Else.marks : Else → List (List Mark)
  | .nothing => [[.closes]]
  | .elseIf cond body orelse =>
    (.closes :: (cond.uses ++ [.opens])) :: (blockMarks body ++ orelse.marks)
  | .block body => [.closes, .opens] :: (blockMarks body ++ [[.closes]])

end

/-- The marks of a routine: its head declares the parameters. -/
def routineMarks (params : List Param) (body : List Stmt) : List (List Mark) :=
  (.opens :: params.map fun p => .declares (.source p.name)) :: (blockMarks body ++ [[.closes]])

def Mark.declared? : Mark → Option Name
  | .declares name => some name
  | _ => none

def Mark.used? : Mark → Option Name
  | .uses name => some name
  | _ => none

/-- The variables that the advance of a loop uses. -/
def Advance.names : Advance → List Name
  | .increment name => [name]
  | .add name stride => name :: stride.names

theorem Advance.uses_eq (a : Advance) : a.uses = a.names.map .uses := by
  cases a <;> rfl

/-- The names that marks declare, in order. -/
def declaredNames (ms : List Mark) : List Name := ms.filterMap Mark.declared?

/-- The names that marks use, in order. -/
def usedNames (ms : List Mark) : List Name := ms.filterMap Mark.used?

section Names
variable (ms ms' : List Mark) (name : Name) (names : List Name) (counters : List (Name × Expr))

@[simp] theorem declaredNames_append :
    declaredNames (ms ++ ms') = declaredNames ms ++ declaredNames ms' := List.filterMap_append

@[simp] theorem usedNames_append :
    usedNames (ms ++ ms') = usedNames ms ++ usedNames ms' := List.filterMap_append

@[simp] theorem declaredNames_declares :
    declaredNames (.declares name :: ms) = name :: declaredNames ms := rfl

@[simp] theorem declaredNames_nil : declaredNames [] = [] := rfl

@[simp] theorem declaredNames_opens : declaredNames (.opens :: ms) = declaredNames ms := rfl

@[simp] theorem declaredNames_closes : declaredNames (.closes :: ms) = declaredNames ms := rfl

@[simp] theorem usedNames_declares : usedNames (.declares name :: ms) = usedNames ms := rfl

@[simp] theorem declaredNames_uses : declaredNames (names.map .uses) = [] := by
  induction names with
  | nil => rfl
  | cons n ns ih => exact ih

@[simp] theorem usedNames_uses : usedNames (names.map .uses) = names := by
  induction names with
  | nil => rfl
  | cons n ns ih => exact congrArg (n :: ·) ih

@[simp] theorem declaredNames_counterMarks :
    declaredNames (counterMarks counters) = counters.map (·.1) := by
  induction counters with
  | nil => rfl
  | cons c rest ih => simp [counterMarks, Expr.uses, ih]

@[simp] theorem usedNames_counterMarks :
    usedNames (counterMarks counters) = counters.flatMap (·.2.names) := by
  induction counters with
  | nil => rfl
  | cons c rest ih => simp [counterMarks, Expr.uses, ih]

end Names

/-! ## Scopes -/

/-- The names declared in the open blocks, the innermost block first. -/
abbrev Scopes := List (List String)

/-- Declares a name in the innermost block. -/
def Scopes.declare (sc : Scopes) (name : String) : Scopes :=
  match sc with
  | [] => [[name]]
  | b :: rest => (name :: b) :: rest

def Mark.step (sc : Scopes) : Mark → Scopes
  | .opens => [] :: sc
  | .closes => sc.tail
  | .declares name => sc.declare name.text
  | .uses _ => sc

/-- The open blocks after some marks. -/
def Scopes.after (sc : Scopes) (ms : List Mark) : Scopes := ms.foldl Mark.step sc

/-- The declarations that are visible after some marks. -/
def visible (ms : List Mark) : List String := (Scopes.after [] ms).flatten

namespace Scopes

@[simp] theorem after_nil (sc : Scopes) : sc.after [] = sc := rfl

@[simp] theorem after_cons (sc : Scopes) (m : Mark) (ms : List Mark) :
    sc.after (m :: ms) = (m.step sc).after ms := rfl

theorem after_append (sc : Scopes) (ms ms' : List Mark) :
    sc.after (ms ++ ms') = (sc.after ms).after ms' := List.foldl_append

@[simp] theorem after_uses (sc : Scopes) (names : List Name) :
    sc.after (names.map .uses) = sc := by
  induction names with
  | nil => rfl
  | cons n ns ih => exact ih

@[simp] theorem after_exprUses (sc : Scopes) (e : Expr) : sc.after e.uses = sc := after_uses sc _

@[simp] theorem after_advanceUses (sc : Scopes) (a : Advance) : sc.after a.uses = sc := by
  cases a with
  | increment name => rfl
  | add name stride => exact after_exprUses sc stride

end Scopes

/-- The names that a loop declares in its head, the last one first. -/
def counterNames (counters : List (Name × Expr)) : List String :=
  (counters.map (·.1.text)).reverse

theorem after_counterMarks (b : List String) (sc : Scopes) (counters : List (Name × Expr)) :
    Scopes.after (b :: sc) (counterMarks counters) = (counterNames counters ++ b) :: sc := by
  induction counters generalizing b with
  | nil => rfl
  | cons c rest ih =>
    obtain ⟨name, e⟩ := c
    simp only [counterMarks, Scopes.after_cons, Scopes.after_append, Mark.step, Scopes.declare,
      Scopes.after_exprUses, ih]
    simp [counterNames]

/-- The name that a statement declares in the block it stands in. -/
def Stmt.own : Stmt → List String
  | .declare _ name _ | .reserve _ name => [name.text]
  | _ => []

/-- The names that statements declare in the block they stand in, the last one first. -/
def blockOwn : List Stmt → List String
  | [] => []
  | s :: rest => blockOwn rest ++ s.own

mutual

/-- A statement leaves the blocks around it open, with its own declaration in the innermost. -/
theorem after_marks (b : List String) (sc : Scopes) :
    ∀ s : Stmt, Scopes.after (b :: sc) s.marks.flatten = (s.own ++ b) :: sc
  | .declare _ _ value => by simp [Stmt.marks, Stmt.own, Mark.step, Scopes.declare]
  | .reserve _ _ => rfl
  | .store _ _ => by simp [Stmt.marks, Stmt.own, Scopes.after_append]
  | .output _ | .eval _ | .ret (some _) => by simp [Stmt.marks, Stmt.own]
  | .ret none | .retDefault | .jump _ => rfl
  | .ifElse _ body orelse => by
    simp [Stmt.marks, Stmt.own, Scopes.after_append, Mark.step, after_blockMarks [] (b :: sc) body,
      after_elseMarks _ b sc orelse]
  | .whileLoop _ body => by
    simp [Stmt.marks, Stmt.own, Scopes.after_append, Mark.step, after_blockMarks [] (b :: sc) body]
  | .forCount counters _ _ body => by
    simp [Stmt.marks, Stmt.own, Scopes.after_append, Mark.step, after_counterMarks,
      after_blockMarks _ (b :: sc) body]
  | .forEach _ name _ body => by
    simp [Stmt.marks, Stmt.own, Scopes.after_append, Mark.step, Scopes.declare,
      after_blockMarks [name.text] (b :: sc) body]

theorem after_blockMarks (b : List String) (sc : Scopes) :
    ∀ body : List Stmt,
      Scopes.after (b :: sc) (blockMarks body).flatten = (blockOwn body ++ b) :: sc
  | [] => rfl
  | s :: rest => by
    simp [blockMarks, blockOwn, Scopes.after_append, after_marks b sc s,
      after_blockMarks (s.own ++ b) sc rest]

/-- What follows a block closes it. -/
theorem after_elseMarks (d b : List String) (sc : Scopes) :
    ∀ e : Else, Scopes.after (d :: b :: sc) e.marks.flatten = b :: sc
  | .nothing => rfl
  | .elseIf _ body orelse => by
    simp [Else.marks, Scopes.after_append, Mark.step, after_blockMarks [] (b :: sc) body,
      after_elseMarks _ b sc orelse]
  | .block body => by
    simp [Else.marks, Scopes.after_append, Mark.step, after_blockMarks [] (b :: sc) body]

end

/-! ## Soundness for one spelling -/

/-- What scoping asks of a mark: a use lies in the scope of one declaration, and a declaration in
the scope of none. -/
def Mark.Fits (x : String) (sc : Scopes) : Mark → Prop
  | .uses name => name.text = x → sc.flatten.count x = 1
  | .declares name => name.text = x → x ∉ sc.flatten
  | .opens | .closes => True

/-- Every mark fits where it stands. -/
def Sound (x : String) : Scopes → List Mark → Prop
  | _, [] => True
  | sc, m :: ms => m.Fits x sc ∧ Sound x (m.step sc) ms

section Sound
variable {x : String} {sc : Scopes}

theorem sound_append {ms ms' : List Mark} :
    Sound x sc (ms ++ ms') ↔ Sound x sc ms ∧ Sound x (sc.after ms) ms' := by
  induction ms generalizing sc with
  | nil => simp [Sound]
  | cons m ms ih => simp [Sound, ih, and_assoc]

theorem Sound.fits {ms ms' : List Mark} {m : Mark} (h : Sound x sc (ms ++ m :: ms')) :
    m.Fits x (sc.after ms) :=
  (sound_append.mp h).2.1

theorem sound_uses {names : List Name}
    (h : (∃ n ∈ names, n.text = x) → sc.flatten.count x = 1) : Sound x sc (names.map .uses) := by
  induction names with
  | nil => trivial
  | cons n ns ih =>
    refine ⟨fun hn => h ⟨n, List.mem_cons_self, hn⟩, ih ?_⟩
    rintro ⟨n', hn', ht⟩
    exact h ⟨n', List.mem_cons_of_mem n hn', ht⟩

/-- Marks that stay in their block, declare other names and use the name only if it is in scope. -/
theorem sound_of_flat {ms : List Mark} {b : List String}
    (hflat : ∀ m ∈ ms, m ≠ .opens ∧ m ≠ .closes) (hd : ∀ n ∈ declaredNames ms, n.text ≠ x)
    (hu : (∃ n ∈ usedNames ms, n.text = x) → (b :: sc).flatten.count x = 1) :
    Sound x (b :: sc) ms ∧ ∃ d, Scopes.after (b :: sc) ms = d :: sc ∧ d.count x = b.count x := by
  induction ms generalizing b with
  | nil => exact ⟨trivial, b, rfl, rfl⟩
  | cons m ms ih =>
    have hflat' : ∀ m ∈ ms, m ≠ .opens ∧ m ≠ .closes :=
      fun m hm => hflat m (List.mem_cons_of_mem _ hm)
    cases m with
    | opens => exact absurd rfl (hflat _ List.mem_cons_self).1
    | closes => exact absurd rfl (hflat _ List.mem_cons_self).2
    | uses n =>
      obtain ⟨hs, d, hafter, hcount⟩ := @ih b hflat' hd fun ⟨n', hn', ht⟩ =>
        hu ⟨n', List.mem_cons_of_mem n hn', ht⟩
      exact ⟨⟨fun ht => hu ⟨n, List.mem_cons_self, ht⟩, hs⟩, d, hafter, hcount⟩
    | declares n =>
      have hne : n.text ≠ x := hd n List.mem_cons_self
      have hcons : (n.text :: b).count x = b.count x := List.count_cons_of_ne hne
      obtain ⟨hs, d, hafter, hcount⟩ := @ih (n.text :: b) hflat'
        (fun n' hn' => hd n' (List.mem_cons_of_mem n hn')) fun hex => by
          rw [List.flatten_cons, List.count_append, hcons, ← List.count_append]
          exact hu hex
      exact ⟨⟨fun ht => absurd ht hne, hs⟩, d, hafter, hcount.trans hcons⟩

end Sound

theorem blockMarks_append (body later : List Stmt) :
    blockMarks (body ++ later) = blockMarks body ++ blockMarks later := by
  induction body with
  | nil => rfl
  | cons s rest ih => simp [blockMarks, ih]

end Braces.Cpp
