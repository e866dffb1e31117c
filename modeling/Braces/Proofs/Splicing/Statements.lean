import Braces.Proofs.WellShaped

/-!
# The order of the entry statements

The entry routine of a program with an entry function: the statements before the call of that
function, its body, and the statements after the call. Definitions are left out, and a guard is
replaced by what it guards.
-/

namespace Braces

/-! ## Guards -/

/-- The name of a module that is run by itself. -/
def mainModule : String := "__main__"

namespace Expr

/-- Whether a condition asks for the main module. -/
def testsMain : Expr → Bool
  | .binary .equal (.var x) (.str s) | .binary .equal (.str s) (.var x) =>
    x = moduleName && s = mainModule
  | _ => false

theorem testsMain_cases {cond : Expr} (h : cond.testsMain = true) :
    cond = .binary .equal (.var moduleName) (.str mainModule) ∨
      cond = .binary .equal (.str mainModule) (.var moduleName) := by
  unfold testsMain at h
  split at h
  · simp only [Bool.and_eq_true, decide_eq_true_eq] at h
    exact .inl (by rw [h.1, h.2])
  · simp only [Bool.and_eq_true, decide_eq_true_eq] at h
    exact .inr (by rw [h.1, h.2])
  · cases h

/-- Whether an expression itself calls a function. -/
def isCallOf (name : String) : Expr → Bool
  | .call n _ => n = name
  | _ => false

end Expr

namespace Stmt

def isEntryCall : Stmt → Bool
  | .eval e => e.isEntryCall
  | _ => false

def isGuard : Stmt → Bool
  | .ifElse cond _ _ => cond.isEntryGuard
  | _ => false

mutual

/-- A statement of a module, with the statements of a guard in its place. -/
def unguard : Stmt → List Stmt
  | .ifElse cond body orelse =>
    if cond.isEntryGuard then unguardBlock body else [.ifElse cond body orelse]
  | s => [s]

def unguardBlock : List Stmt → List Stmt
  | [] => []
  | s :: rest => unguard s ++ unguardBlock rest

end

mutual

/-- The conditions of the guards that `unguard` opens. -/
def guards : Stmt → List Expr
  | .ifElse cond body _ => if cond.isEntryGuard then cond :: guardsOf body else []
  | _ => []

def guardsOf : List Stmt → List Expr
  | [] => []
  | s :: rest => guards s ++ guardsOf rest

end

mutual

theorem isGuard_of_mem_unguard : ∀ (s : Stmt) {s' : Stmt}, s' ∈ s.unguard → s'.isGuard = false
  | .ifElse cond body orelse, s', h => by
    rw [unguard] at h
    split at h
    · exact isGuard_of_mem_unguardBlock body h
    · next hguard =>
      obtain rfl := List.mem_singleton.1 h
      exact Bool.eq_false_of_not_eq_true hguard
  | .assign _ _, _, h | .assignAt _ _ _, _, h | .print _, _, h | .whileLoop _ _, _, h
  | .forLoop _ _ _, _, h | .funcDef _ _ _, _, h | .ret _, _, h | .eval _, _, h | .pass, _, h
  | .break_, _, h | .continue_, _, h => by
    obtain rfl := List.mem_singleton.1 h
    rfl

theorem isGuard_of_mem_unguardBlock : ∀ (ss : List Stmt) {s' : Stmt}, s' ∈ unguardBlock ss →
    s'.isGuard = false
  | s :: rest, s', h => by
    rw [unguardBlock] at h
    rcases List.mem_append.1 h with h | h
    · exact isGuard_of_mem_unguard s h
    · exact isGuard_of_mem_unguardBlock rest h

end

mutual

/-- What a guard is replaced by stands in it. -/
theorem mem_of_mem_unguard : ∀ (s : Stmt) {s' : Stmt}, s' ∈ s.unguard → s' = s ∨ s' ∈ s.inner
  | .ifElse cond body orelse, s', h => by
    rw [unguard] at h
    split at h
    · exact .inr (List.mem_append_left _ (mem_allStmts_of_mem_unguardBlock body h))
    · exact .inl (List.mem_singleton.1 h)
  | .assign _ _, _, h | .assignAt _ _ _, _, h | .print _, _, h | .whileLoop _ _, _, h
  | .forLoop _ _ _, _, h | .funcDef _ _ _, _, h | .ret _, _, h | .eval _, _, h | .pass, _, h
  | .break_, _, h | .continue_, _, h =>
    .inl (List.mem_singleton.1 h)

theorem mem_allStmts_of_mem_unguardBlock : ∀ (ss : List Stmt) {s' : Stmt}, s' ∈ unguardBlock ss →
    s' ∈ allStmts ss
  | s :: rest, s', h => by
    rw [unguardBlock] at h
    rw [allStmts, ← List.cons_append]
    rcases List.mem_append.1 h with h | h
    · exact List.mem_append_left _ (List.mem_cons.2 (mem_of_mem_unguard s h))
    · exact List.mem_append_right _ (mem_allStmts_of_mem_unguardBlock rest h)

end

theorem unguardBlock_append (ss ss' : List Stmt) :
    unguardBlock (ss ++ ss') = unguardBlock ss ++ unguardBlock ss' := by
  induction ss with
  | nil => rfl
  | cons s ss ih => rw [List.cons_append, unguardBlock, unguardBlock, ih, List.append_assoc]

theorem guardsOf_append (ss ss' : List Stmt) :
    guardsOf (ss ++ ss') = guardsOf ss ++ guardsOf ss' := by
  induction ss with
  | nil => rfl
  | cons s ss ih => rw [List.cons_append, guardsOf, guardsOf, ih, List.append_assoc]

end Stmt

namespace Program

variable {p : Program} {main? : Option (List Stmt)} {body : List Stmt} {spliced : Bool}

/-! ## Splicing -/

theorem splice_cons (s : Stmt) (rest : List Stmt) :
    splice main? spliced (s :: rest) =
      ((spliceStmt main? spliced s).1 ++ (splice main? (spliceStmt main? spliced s).2 rest).1,
        (splice main? (spliceStmt main? spliced s).2 rest).2) := by
  rw [splice]

theorem splice_append (ss ss' : List Stmt) :
    splice main? spliced (ss ++ ss') =
      ((splice main? spliced ss).1 ++ (splice main? (splice main? spliced ss).2 ss').1,
        (splice main? (splice main? spliced ss).2 ss').2) := by
  induction ss generalizing spliced with
  | nil => rfl
  | cons s ss ih => rw [List.cons_append, splice_cons, ih, splice_cons, List.append_assoc]

theorem splice_singleton (s : Stmt) : splice main? spliced [s] = spliceStmt main? spliced s := by
  rw [splice_cons]
  simp [splice]

mutual

theorem splice_unguard : ∀ (spliced : Bool) (s : Stmt),
    splice main? spliced s.unguard = spliceStmt main? spliced s
  | spliced, .ifElse cond body orelse => by
    by_cases hguard : cond.isEntryGuard = true
    · rw [Stmt.unguard, if_pos hguard, spliceStmt, if_pos hguard, splice_unguardBlock]
    · rw [Stmt.unguard, if_neg hguard, splice_singleton]
  | _, .assign _ _ | _, .assignAt _ _ _ | _, .print _ | _, .whileLoop _ _ | _, .forLoop _ _ _
  | _, .funcDef _ _ _ | _, .ret _ | _, .eval _ | _, .pass | _, .break_ | _, .continue_ =>
    splice_singleton _

theorem splice_unguardBlock : ∀ (spliced : Bool) (ss : List Stmt),
    splice main? spliced (Stmt.unguardBlock ss) = splice main? spliced ss
  | _, [] => rfl
  | spliced, s :: rest => by
    rw [Stmt.unguardBlock, splice_append, splice_unguard, splice_unguardBlock _ rest, splice_cons]

end

/-- Without guards and calls of the entry function, only the definitions are left out. -/
theorem spliceStmt_plain {s : Stmt} (hguard : s.isGuard = false) (hcall : s.isEntryCall = false) :
    spliceStmt (some body) spliced s = ([s].filter (!·.isFunction), spliced) := by
  cases s with
  | ifElse cond body orelse =>
    rw [Stmt.isGuard] at hguard
    rw [spliceStmt, if_neg (ne_true_of_eq_false hguard)]
    rfl
  | eval e =>
    rw [Stmt.isEntryCall] at hcall
    rw [spliceStmt, if_neg (ne_true_of_eq_false hcall)]
    rfl
  | _ => rfl

theorem splice_plain (body : List Stmt) (spliced : Bool) {ss : List Stmt}
    (hguard : ∀ s ∈ ss, s.isGuard = false) (hcall : ∀ s ∈ ss, s.isEntryCall = false) :
    splice (some body) spliced ss = (ss.filter (!·.isFunction), spliced) := by
  induction ss with
  | nil => rfl
  | cons s ss ih =>
    rw [List.forall_mem_cons] at hguard hcall
    rw [splice_cons, spliceStmt_plain hguard.1 hcall.1, ih hguard.2 hcall.2, ← List.filter_append,
      List.singleton_append]

/-! ## The call of the entry function -/

/-- The statement that calls the entry function. -/
def entryCall : Stmt := .eval (.call entryName [])

theorem eq_entryCall {s : Stmt} (h : s.isEntryCall = true) : s = entryCall := by
  cases s with
  | eval e =>
    cases e with
    | call name args =>
      obtain ⟨hname, hargs⟩ := Bool.and_eq_true_iff.1 h
      rw [of_decide_eq_true hname, List.isEmpty_iff.1 hargs, entryCall]
    | _ => cases h
  | _ => cases h

/-- The statements of a module, without its guards. -/
def unguarded (p : Program) : List Stmt := Stmt.unguardBlock p

/-- A program that calls its entry function: at the end, if it does not do so itself. -/
def started (p : Program) : Program :=
  if p.unguarded.any Stmt.isEntryCall then p else p ++ [entryCall]

/-- What runs before the first call of the entry function. -/
def beforeEntry (p : Program) : List Stmt := p.started.unguarded.takeWhile (!·.isEntryCall)

/-- What runs after that call. -/
def afterEntry (p : Program) : List Stmt := (p.started.unguarded.dropWhile (!·.isEntryCall)).tail

theorem guardsOf_started (p : Program) : Stmt.guardsOf p.started = Stmt.guardsOf p := by
  rw [started]
  split
  · rfl
  · rw [Stmt.guardsOf_append]
    exact List.append_nil _

theorem any_isEntryCall_started (p : Program) :
    p.started.unguarded.any Stmt.isEntryCall = true := by
  rw [started]
  split
  · assumption
  · rw [unguarded, Stmt.unguardBlock_append, List.any_append, Bool.or_eq_true_iff]
    exact .inr rfl

/-- The entry function is called between what runs before and what runs after. -/
theorem unguarded_started (p : Program) :
    p.started.unguarded = p.beforeEntry ++ entryCall :: p.afterEntry := by
  have hsplit := List.takeWhile_append_dropWhile (p := fun s : Stmt => !s.isEntryCall)
    (l := p.started.unguarded)
  cases hdrop : p.started.unguarded.dropWhile (!·.isEntryCall) with
  | nil =>
    obtain ⟨s, hs, hcall⟩ := List.any_eq_true.1 p.any_isEntryCall_started
    have hno := List.dropWhile_eq_nil_iff.1 hdrop s hs
    simp [hcall] at hno
  | cons s rest =>
    have hcall : s.isEntryCall = true := by
      have hhead :=
        List.head_dropWhile_not (!·.isEntryCall) (l := p.started.unguarded) (by simp [hdrop])
      simpa [hdrop] using hhead
    rw [beforeEntry, afterEntry, hdrop, List.tail_cons, ← eq_entryCall hcall, ← hdrop, hsplit]

theorem mem_started_of_mem_beforeEntry {s : Stmt} (h : s ∈ p.beforeEntry) :
    s ∈ p.started.unguarded :=
  p.unguarded_started ▸ List.mem_append_left _ h

theorem mem_started_of_mem_afterEntry {s : Stmt} (h : s ∈ p.afterEntry) : s ∈ p.started.unguarded :=
  p.unguarded_started ▸ List.mem_append_right _ (List.mem_cons_of_mem _ h)

/-- No function is defined within another statement. -/
theorem isFunction_of_mem_inner {source : String} (hread : readSource source = .ok p) {s s' : Stmt}
    (hs : s ∈ p) (hs' : s' ∈ s.inner) : s'.isFunction = false := by
  obtain ⟨ts, hts, hp⟩ := formedProgram_readSource hread
  exact ((hp.fitsTop (not_indent_dedent hts) s hs).inner hs').function

/-- No definition stands in a guard. -/
theorem mem_of_mem_started {source : String} (hread : readSource source = .ok p) {s : Stmt}
    (hs : s ∈ p.started.unguarded) (hfunction : s.isFunction = true) : s ∈ p := by
  have hmem : s ∈ p.unguarded := by
    rw [started] at hs
    split at hs
    · exact hs
    · rw [unguarded, Stmt.unguardBlock_append, List.mem_append] at hs
      apply hs.resolve_right
      intro hcall
      obtain rfl : s = entryCall := List.mem_singleton.1 hcall
      cases hfunction
  obtain ⟨s₀, hs₀, rfl | hinner⟩ := mem_allStmts.1 (Stmt.mem_allStmts_of_mem_unguardBlock p hmem)
  · exact hs₀
  · rw [isFunction_of_mem_inner hread hs₀ hinner] at hfunction
    cases hfunction

theorem isEntryCall_of_mem_beforeEntry {s : Stmt} (h : s ∈ p.beforeEntry) :
    s.isEntryCall = false := by
  simpa using List.mem_takeWhile_imp h

theorem isGuard_of_mem_started {s : Stmt} (h : s ∈ p.started.unguarded) : s.isGuard = false :=
  Stmt.isGuard_of_mem_unguardBlock _ h

theorem splice_started {main : Function} (honce : ∀ s ∈ p.afterEntry, s.isEntryCall = false) :
    splice (some main.body) false p.started =
      (p.beforeEntry.filter (!·.isFunction) ++
        (main.body ++ p.afterEntry.filter (!·.isFunction)), true) := by
  have hbefore : splice (some main.body) false p.beforeEntry = (_, false) :=
    splice_plain main.body false
      (fun s hs => isGuard_of_mem_started (mem_started_of_mem_beforeEntry hs))
      fun s hs => isEntryCall_of_mem_beforeEntry hs
  have hafter : splice (some main.body) true p.afterEntry = (_, true) :=
    splice_plain main.body true
      (fun s hs => isGuard_of_mem_started (mem_started_of_mem_afterEntry hs)) honce
  have hcall : spliceStmt (some main.body) false entryCall = (main.body, true) := rfl
  rw [← splice_unguardBlock, ← unguarded, unguarded_started, splice_append, hbefore,
    splice_cons, hcall, hafter]

/-- The entry statements of a program that calls its entry function at most once. -/
theorem entryStatements_eq {main : Function} (hmain : p.entryFunction? = some main)
    (honce : ∀ s ∈ p.afterEntry, s.isEntryCall = false) :
    p.entryStatements = p.beforeEntry.filter (!·.isFunction) ++
      (main.body ++ p.afterEntry.filter (!·.isFunction)) := by
  have hstarted : splice (some main.body) false p.started = _ := splice_started honce
  rw [entryStatements, hmain, Option.map_some]
  by_cases hcalled : p.unguarded.any Stmt.isEntryCall = true
  · rw [started, if_pos hcalled] at hstarted
    rw [hstarted]
    rfl
  · -- The call at the end of the program that is started puts the body where it is appended.
    have hplain : splice (some main.body) false p =
        (p.unguarded.filter (!·.isFunction), false) := by
      rw [← splice_unguardBlock]
      refine splice_plain main.body false (fun s => Stmt.isGuard_of_mem_unguardBlock p)
        fun s hs => ?_
      exact Bool.eq_false_of_not_eq_true fun hcall => hcalled (List.any_eq_true.2 ⟨s, hs, hcall⟩)
    rw [started, if_neg hcalled, splice_append, hplain] at hstarted
    rw [hplain]
    exact (congrArg (p.unguarded.filter (!·.isFunction) ++ ·) (List.append_nil _).symm).trans
      (congrArg Prod.fst hstarted)

end Program

end Braces
