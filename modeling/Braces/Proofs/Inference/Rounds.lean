import Braces.Proofs.Inference.Turns
import Braces.Proofs.Inference.Widening

/-!
# The turns of all rounds

Parameters and results keep their types from one round to the next, so each is the join of what was
seen at the turns of all rounds. The variables of a routine start anew with every walk, so only the
last walk of the routine counts for them.
-/

namespace Braces

namespace Table

theorem walk_eq_run (t : Table) (routine : String) (body : List Stmt) :
    t.walk routine body = (t.start routine).run (Stmt.blockSteps routine body) :=
  Visit.block_eq_run routine body _

/-- The turns of the stores of one routine. -/
def turnsOf (t : Table) (routine : String) (body : List Stmt) : List Turn :=
  Visit.turns routine (Stmt.blockSteps routine body) (t.start routine)

/-- The turns while some routines are walked, in order. -/
def turns : List (String × List Stmt) → Table → List Turn
  | [], _ => []
  | w :: ws, t => t.turnsOf w.1 w.2 ++ turns ws (t.visit w.1 w.2)

/-- The turns of at most `n` rounds, round by round. -/
def history (fs : List Function) (entry : List Stmt) : Nat → Table → List (List Turn)
  | 0, _ => []
  | n + 1, t =>
    turns (walks fs entry) t ::
      if t.round fs entry = t then [] else history fs entry n (t.round fs entry)

theorem turns_append (ws ws' : List (String × List Stmt)) (t : Table) :
    turns (ws ++ ws') t = turns ws t ++ turns ws' (t.visits ws) := by
  induction ws generalizing t with
  | nil => rfl
  | cons w ws ih =>
    rw [List.cons_append, turns, turns, ih, List.append_assoc]
    rfl

theorem slotTy?_visit (t : Table) (routine : String) (body : List Stmt) (c : Cell) :
    (t.visit routine body).slotTy? c =
      (t.slotTy? c).map fun old =>
        (Turn.typesAt c (t.turnsOf routine body)).foldl Ty.join old := by
  have hrun := @Visit.cellTy?_run routine (Stmt.blockSteps routine body) (t.start routine) c
  rw [← walk_eq_run] at hrun
  cases c with
  | var => rfl
  | param | result => exact hrun

theorem slotTy?_visits (ws : List (String × List Stmt)) (t : Table) (c : Cell) :
    (t.visits ws).slotTy? c =
      (t.slotTy? c).map fun old => (Turn.typesAt c (turns ws t)).foldl Ty.join old := by
  induction ws generalizing t with
  | nil => exact Option.map_id'.symm
  | cons w ws ih =>
    show ((t.visit w.1 w.2).visits ws).slotTy? c = _
    rw [ih, slotTy?_visit, turns, Turn.typesAt_append, Option.map_map]
    simp only [Function.comp_def, List.foldl_append]

theorem slotTy?_rounds (fs : List Function) (entry : List Stmt) (n : Nat) (t : Table) (c : Cell) :
    (t.rounds fs entry n).slotTy? c =
      (t.slotTy? c).map fun old =>
        (Turn.typesAt c (history fs entry n t).flatten).foldl Ty.join old := by
  induction n generalizing t with
  | zero => exact Option.map_id'.symm
  | succ n ih =>
    have hround : (t.round fs entry).slotTy? c = (t.slotTy? c).map fun old =>
        (Turn.typesAt c (turns (walks fs entry) t)).foldl Ty.join old := by
      rw [round_eq_visits]
      exact slotTy?_visits _ t c
    rw [rounds, history]
    split
    · rw [hround, List.flatten_cons, List.flatten_nil, List.append_nil]
    · rw [ih, hround, List.flatten_cons, Turn.typesAt_append, Option.map_map]
      simp only [Function.comp_def, List.foldl_append]

/-- The last round of a history starts from the table before the last. -/
theorem history_succ (fs : List Function) (entry : List Stmt) (n : Nat) (t : Table) :
    ∃ pre, history fs entry (n + 1) t =
      pre ++ [turns (walks fs entry) (t.beforeLast fs entry n)] := by
  induction n generalizing t with
  | zero =>
    refine ⟨[], ?_⟩
    rw [history, beforeLast]
    split <;> rfl
  | succ n ih =>
    rw [history, beforeLast]
    split
    · exact ⟨[], rfl⟩
    · obtain ⟨pre, hpre⟩ := ih (t.round fs entry)
      exact ⟨turns (walks fs entry) t :: pre, by rw [hpre, List.cons_append]⟩

theorem mem_turns {ws : List (String × List Stmt)} {t : Table} {τ : Turn} (h : τ ∈ turns ws t) :
    ∃ pre r body post, ws = pre ++ (r, body) :: post ∧ τ ∈ (t.visits pre).turnsOf r body := by
  induction ws generalizing t with
  | nil => cases h
  | cons w ws ih =>
    rcases List.mem_append.mp h with h | h
    · exact ⟨[], w.1, w.2, ws, rfl, h⟩
    · obtain ⟨pre, r, body, post, rfl, hτ⟩ := ih h
      exact ⟨w :: pre, r, body, post, rfl, hτ⟩

theorem exists_step_of_mem_turnsOf {t : Table} {r : String} {body : List Stmt} {τ : Turn}
    (h : τ ∈ t.turnsOf r body) : ∃ st : Step, st.store? r = some τ.toStore := by
  have hmem : τ.toStore ∈ (t.turnsOf r body).map Turn.toStore := List.mem_map.mpr ⟨τ, h, rfl⟩
  rw [turnsOf, Visit.map_store_turns] at hmem
  obtain ⟨st, -, hst⟩ := List.mem_filterMap.mp hmem
  exact ⟨st, hst⟩

theorem routine_of_mem_turnsOf {t : Table} {r : String} {body : List Stmt} {τ : Turn}
    (h : τ ∈ t.turnsOf r body) : τ.routine = r := by
  obtain ⟨st, hst⟩ := exists_step_of_mem_turnsOf h
  cases st with
  | bind | pass | give => exact congrArg Store.routine (Option.some.inj hst).symm
  | touch | enter | exit => cases hst

/-- A routine stores only to variables of its own. -/
theorem routine_of_cell {t : Table} {r r' x : String} {body : List Stmt} {τ : Turn}
    (h : τ ∈ t.turnsOf r body) (hc : τ.cell = .var r' x) : r' = r := by
  obtain ⟨st, hst⟩ := exists_step_of_mem_turnsOf h
  cases st with
  | bind =>
    rw [← congrArg Store.cell (Option.some.inj hst)] at hc
    cases hc
    rfl
  | pass | give =>
    rw [← congrArg Store.cell (Option.some.inj hst)] at hc
    cases hc
  | touch | enter | exit => cases hst

theorem typesAt_turns_of_notMem {ws : List (String × List Stmt)} {r : String}
    (h : r ∉ ws.map (·.1)) (t : Table) (x : String) :
    Turn.typesAt (.var r x) (turns ws t) = [] := by
  have hnone : (turns ws t).filter (·.cell = .var r x) = [] := by
    rw [List.filter_eq_nil_iff]
    intro τ hτ hc
    obtain ⟨pre, r', body, post, rfl, hmem⟩ := mem_turns hτ
    have : r = r' := routine_of_cell hmem (by simpa using hc)
    exact h (by simp [this])
  rw [Turn.typesAt, hnone, List.map_nil]

theorem typesAt_turns {pre post : List (String × List Stmt)} {r : String} {body : List Stmt}
    (hpre : r ∉ pre.map (·.1)) (hpost : r ∉ post.map (·.1)) (t : Table) (x : String) :
    Turn.typesAt (.var r x) (turns (pre ++ (r, body) :: post) t) =
      Turn.typesAt (.var r x) ((t.visits pre).turnsOf r body) := by
  rw [turns_append, turns, Turn.typesAt_append, Turn.typesAt_append,
    typesAt_turns_of_notMem hpre, typesAt_turns_of_notMem hpost, List.nil_append, List.append_nil]

end Table

namespace Program

def history (p : Program) : List (List Turn) :=
  Table.history p.routines p.entryStatements maxRounds p.marked

/-- The turns of the last round. -/
def lastTurns (p : Program) : List Turn := Table.turns p.walks p.penultimate

/-- The stores of a program, in the order in which its routines are walked. -/
def stores (p : Program) : List Store :=
  p.walks.flatMap fun w => (Stmt.blockSteps w.1 w.2).filterMap (Step.store? w.1)

theorem lastTurns_mem_history (p : Program) : p.lastTurns ∈ p.history := by
  obtain ⟨pre, hpre⟩ := Table.history_succ p.routines p.entryStatements 31 p.marked
  rw [history, maxRounds, hpre]
  exact List.mem_append_right _ List.mem_cons_self

/-- Every store has its turn in every round. -/
theorem map_toStore_turns (ws : List (String × List Stmt)) (t : Table) :
    (Table.turns ws t).map Turn.toStore =
      ws.flatMap fun w => (Stmt.blockSteps w.1 w.2).filterMap (Step.store? w.1) := by
  induction ws generalizing t with
  | nil => rfl
  | cons w ws ih =>
    rw [Table.turns, List.map_append, ih, List.flatMap_cons, Table.turnsOf,
      Visit.map_store_turns]

end Program

end Braces
