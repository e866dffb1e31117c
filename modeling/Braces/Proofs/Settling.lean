import Mathlib.Logic.Function.Iterate
import Braces.Proofs.Inference.Climbing
import Braces.Proofs.Inference.Turns
import Braces.Proofs.Spelling

/-!
# When inference settles

A round that changes no signature is followed by one that changes nothing at all. So the rounds come
to an end as soon as types no longer travel, which takes at most three rounds for every parameter
and result. The bound on the rounds does not depend on the program, though: if each round up to it
still moves a type, inference stops with a table that another round would change.
-/

namespace Braces

namespace Table

theorem rounds_eq_iterate (fs : List Function) (entry : List Stmt) (n : Nat) (t : Table) :
    t.rounds fs entry n = (round fs entry)^[n] t := by
  induction n generalizing t with
  | zero => rfl
  | succ n ih =>
    rw [rounds, Function.iterate_succ_apply]
    split
    · next hstable =>
      rw [hstable]
      exact (Function.iterate_fixed hstable n).symm
    · exact ih _

theorem slots_eq_names (t : Table) : t.slots = (t.names.map (·.2.length + 1)).sum := by
  rw [slots, names, List.map_map]
  congr 1
  refine List.map_congr_left fun s _ => ?_
  rw [Function.comp_apply, List.length_map, Signature.slots]

end Table

namespace Program

variable {p : Program} {t : Table}

/-- The table after some rounds, with no bound on their number. -/
def after (p : Program) (n : Nat) : Table :=
  (Table.round p.routines p.entryStatements)^[n] p.marked

/-- How many parameters and results the functions have together. -/
def slots (p : Program) : Nat := (p.routines.map (·.params.length + 1)).sum

theorem after_succ (p : Program) (n : Nat) :
    p.after (n + 1) = (p.after n).round p.routines p.entryStatements :=
  Function.iterate_succ_apply' _ n p.marked

theorem infer_eq_after (h : p.infer = .ok t) : t = (p.after maxRounds).finalize := by
  obtain ⟨-, -, -, rfl⟩ := infer_eq_ok_iff.mp h
  rw [walks, ← Table.round_eq_visits, penultimate, ← Table.rounds_succ, Table.rounds_eq_iterate]
  rfl

theorem after_eq_of_le {n m : Nat} (hquiet : p.after (n + 1) = p.after n) (hle : n ≤ m) :
    p.after m = p.after n := by
  obtain ⟨k, rfl⟩ := Nat.exists_eq_add_of_le hle
  clear hle
  induction k with
  | zero => rfl
  | succ k ih => rw [← Nat.add_assoc, after_succ, ih, ← after_succ, hquiet]

theorem climbs_after (p : Program) (n : Nat) : Table.Climbs (p.after n) (p.after (n + 1)) := by
  rw [after_succ]
  exact Table.climbs_round _ _ _

theorem names_after (p : Program) (n : Nat) :
    (p.after n).names = p.routines.map fun f => (f.name, f.params) := by
  induction n with
  | zero =>
    rw [after, Function.iterate_zero, id, marked, Table.names_markUsage, Table.names, List.map_map]
    refine List.map_congr_left fun f _ => ?_
    simp [Function.signature, Function.comp_def]
  | succ n ih => rw [after_succ, Table.names_round, ih]

theorem slots_after (p : Program) (n : Nat) : (p.after n).slots = p.slots := by
  rw [Table.slots_eq_names, names_after, List.map_map]
  rfl

theorem ordered_after (p : Program) (n : Nat) : (p.after n).locals.Ordered := by
  induction n with
  | zero =>
    have hlocals : ∀ t : Table, (t.markUsage p.routines).locals = t.locals := by
      intro t
      exact Table.locals_markUsage p.routines t
    rw [after, Function.iterate_zero, id, marked, hlocals]
    exact Dict.ordered_empty
  | succ n ih =>
    rw [after_succ, Table.round_eq_visits]
    exact Table.ordered_visits ih _

/-- A round that changes no signature is followed by one that changes nothing. -/
theorem quiet_of_functions (hnodup : (p.routines.map (·.name)).Nodup) {n : Nat}
    (hkept : (p.after (n + 1)).functions = (p.after n).functions) :
    p.after (n + 2) = p.after (n + 1) := by
  rw [after_succ, Table.round_eq_visits] at hkept
  rw [after_succ, after_succ, Table.round_eq_visits, Table.round_eq_visits]
  exact Table.visits_visits (nodup_walks hnodup) (p.ordered_after n) hkept

/-- As long as rounds change signatures, they raise one each. -/
theorem le_height_after {n : Nat}
    (hmoves : ∀ m < n, (p.after (m + 1)).functions ≠ (p.after m).functions) :
    n ≤ (p.after n).height := by
  induction n with
  | zero => exact Nat.zero_le _
  | succ n ih =>
    have hbefore : n ≤ (p.after n).height := ih fun m hm => hmoves m (Nat.lt_succ_of_lt hm)
    have hraised := (p.climbs_after n).lt (hmoves n (Nat.lt_succ_self n))
    omega

/-- Every slot is raised three times at most, so some round changes nothing. -/
theorem exists_quiet (hnodup : (p.routines.map (·.name)).Nodup) :
    ∃ n ≤ 3 * p.slots + 1, p.after (n + 1) = p.after n := by
  apply Decidable.byContradiction
  intro hno
  have hmoves : ∀ m < 3 * p.slots + 1, (p.after (m + 1)).functions ≠ (p.after m).functions := by
    intro m hm hkept
    exact hno ⟨m + 1, hm, quiet_of_functions hnodup hkept⟩
  have hlow := le_height_after hmoves
  have hhigh := (p.after (3 * p.slots + 1)).height_le
  rw [slots_after] at hhigh
  omega

end Program

open Program in
/-- Inference gives the table after the last round that it may take. It gets there without a round
that changes nothing exactly if every round before the last changes a signature and the last one
changes the table. In all other cases, as for every program with few parameters and functions, the
table is one that no further round changes. -/
theorem rounds_run_out_iff {p : Program} {t : Table} (h : p.infer = .ok t) :
    t = (p.after maxRounds).finalize ∧
      ((∀ n < maxRounds, p.after (n + 1) ≠ p.after n) ↔
        (∀ n, n + 1 < maxRounds → (p.after (n + 1)).functions ≠ (p.after n).functions) ∧
          p.after maxRounds ≠ p.after (maxRounds - 1)) ∧
      ((∃ n < maxRounds, p.after (n + 1) = p.after n) →
        ∀ m, maxRounds ≤ m → p.after m = p.after maxRounds) ∧
      (3 * p.slots + 1 < maxRounds → ∃ n < maxRounds, p.after (n + 1) = p.after n) := by
  have hnodup := (infer_eq_ok_iff.mp h).2.1
  refine ⟨infer_eq_after h, ⟨?_, ?_⟩, ?_, ?_⟩
  · intro hloud
    refine ⟨fun n hn hkept => ?_, hloud 31 (by decide)⟩
    exact hloud (n + 1) hn (quiet_of_functions hnodup hkept)
  · rintro ⟨hmoves, hlast⟩ n hn hquiet
    obtain hlt | rfl : n + 1 < maxRounds ∨ n = 31 := by
      simp only [maxRounds] at hn ⊢
      omega
    · exact hmoves n hlt (congrArg Table.functions hquiet)
    · exact hlast hquiet
  · rintro ⟨n, hn, hquiet⟩ m hm
    rw [after_eq_of_le hquiet (by omega : n ≤ m), after_eq_of_le hquiet (Nat.le_of_lt hn)]
  · intro hslots
    obtain ⟨n, hn, hquiet⟩ := exists_quiet hnodup
    exact ⟨n, by omega, hquiet⟩

/-! ## Chains of calls -/

namespace CallChain

def link (i : Nat) : String := "f" ++ toString i

/-- What a link of a chain returns: the result of the next link, or a text at the end. -/
def value (n i : Nat) : Expr := if i < n then .call (link (i + 1)) [] else .str "s"

def body (n i : Nat) : List Stmt := [.ret (some (value n i))]

/-- How far the text has come after some rounds. -/
def reached (n k i : Nat) : Ty := if n < i + k then .str else .unknown

theorem link_inj {i j : Nat} (h : link i = link j) : i = j := by
  have hdigits := congrArg String.toList h
  simp only [link, String.toList_append, List.append_cancel_left_eq,
    Nat.toString_eq_ofList_toDigits, String.toList_ofList] at hdigits
  exact Cpp.toDigits_inj hdigits

theorem link_ne {i : Nat} {name : String} (h : name.toList.head? ≠ some 'f') : link i ≠ name := by
  rintro rfl
  apply h
  simp [link]

theorem join_reached (n k i : Nat) :
    (reached n k i).join (reached n k (i + 1)) = reached n (k + 1) i := by
  have hnext : i + (k + 1) = i + 1 + k := by omega
  simp only [reached, hnext]
  by_cases hreached : n < i + k
  · rw [if_pos hreached, if_pos (by omega)]
    rfl
  · rw [if_neg hreached]
    rfl

theorem join_str {n i : Nat} (k : Nat) (h : n ≤ i) :
    (reached n k i).join .str = reached n (k + 1) i := by
  have hend : n < i + (k + 1) := by omega
  simp only [reached, if_pos hend]
  split <;> rfl

/-- A walk of a link joins what it returns into its result. -/
theorem slotTy?_visit_body (t : Table) (n i j : Nat) :
    (t.visit (link i) (body n i)).slotTy? (.result (link j)) =
      (t.slotTy? (.result (link j))).map fun old =>
        if i = j then old.join (t.typeOf (t.start (link i)).scope.lookup (value n i)) else old := by
  have hmain : link i ≠ entryName := link_ne (by decide)
  have hwalk : (t.walk (link i) (body n i)).table =
      (t.refineResult (link i) (t.typeOf (t.start (link i)).scope.lookup (value n i))).1 := by
    have hvalue : Visit.expr (value n i) (t.start (link i)) = t.start (link i) := by
      rw [value]
      split <;> rfl
    simp only [Table.walk, body, Visit.block, Visit.stmt, hvalue, if_neg hmain]
    rfl
  have hslot := Table.slotTy?_refineResult (t := t) (link i)
    (t.typeOf (t.start (link i)).scope.lookup (value n i)) (.result (link j))
  have hcell : (Cell.result (link i) = .result (link j)) ↔ i = j :=
    ⟨fun h => link_inj (Cell.result.inj h), fun h => h ▸ rfl⟩
  rw [← hwalk] at hslot
  simp only [hcell] at hslot
  exact hslot

/-- A link that is walked takes over what the next one gave in the round before, since that one is
walked after it. -/
theorem slotTy?_visits_body {t : Table} {n k : Nat}
    (h : ∀ i ≤ n, t.slotTy? (.result (link i)) = some (reached n k i)) (m : Nat) (hm : m ≤ n + 1)
    {i : Nat} (hi : i ≤ n) :
    (t.visits ((List.range m).map fun i => (link i, body n i))).slotTy? (.result (link i)) =
      some (if i < m then reached n (k + 1) i else reached n k i) := by
  induction m generalizing i with
  | zero => rw [if_neg (Nat.not_lt_zero i)]; exact h i hi
  | succ m ih =>
    rw [List.range_succ, List.map_append, Table.visits, List.foldl_append]
    show ((t.visits _).visit (link m) (body n m)).slotTy? _ = _
    rw [slotTy?_visit_body, ih (by omega) hi, Option.map_some]
    by_cases heq : m = i
    · subst heq
      rw [if_pos rfl, if_neg (Nat.lt_irrefl m), if_pos (Nat.lt_succ_self m), value]
      by_cases hlast : m < n
      · have hstr : link (m + 1) ≠ Expr.strName := link_ne (by decide)
        have hnext := ih (by omega) (i := m + 1) (by omega)
        rw [if_neg (by omega), Table.slotTy?] at hnext
        rw [if_pos hlast, Table.typeOf, if_neg hstr, hnext, Option.getD_some, join_reached]
      · rw [if_neg hlast, Table.typeOf, join_str k (by omega)]
    · rw [if_neg heq]
      by_cases hlt : i < m
      · rw [if_pos hlt, if_pos (by omega)]
      · rw [if_neg hlt, if_neg (by omega)]

end CallChain

open CallChain

/-- Functions that return what the next one returns, and at the end a text. -/
def callChain (n : Nat) : Program :=
  (List.range (n + 1)).map fun i => .funcDef (link i) [] (body n i)

namespace CallChain

theorem routines_callChain (n : Nat) :
    (callChain n).routines = (List.range (n + 1)).map fun i => ⟨link i, [], body n i⟩ := by
  have hmain : ∀ i, link i ≠ entryName := fun i => link_ne (by decide)
  simp [Program.routines, Program.functions, callChain, Program.function?, List.filterMap_map,
    Function.comp_def, hmain]

theorem entryStatements_callChain (n : Nat) : (callChain n).entryStatements = [] := by
  have hmain : ∀ i, link i ≠ entryName := fun i => link_ne (by decide)
  have hentry : (callChain n).entryFunction? = none := by
    simp [Program.entryFunction?, Program.functions, callChain, Program.function?,
      List.filterMap_map, Function.comp_def, hmain]
  have hsplice : ∀ is : List Nat, Program.splice none false
      (is.map fun i => .funcDef (link i) [] (body n i)) = ([], false) := by
    intro is
    induction is with
    | nil => rfl
    | cons i is ih => simp only [List.map_cons, Program.splice, Program.spliceStmt, ih]; rfl
  rw [Program.entryStatements, hentry]
  simp only [Option.map_none, callChain, hsplice]
  rfl

theorem slotTy?_marked (n : Nat) {i : Nat} (hi : i ≤ n) :
    (callChain n).marked.slotTy? (.result (link i)) = some .unknown := by
  have hmark : ∀ (is : List Nat) (t : Table),
      t.markAll (is.map fun i => ⟨link i, [], body n i⟩) = t := by
    intro is
    induction is with
    | nil => exact fun _ => rfl
    | cons i is ih => exact fun t => ih t
  have hfind : (List.range (n + 1)).find? (fun j => link j = link i) = some i := by
    rw [List.find?_range_eq_some]
    refine ⟨by simp, by simp; omega, fun j hj => ?_⟩
    simpa using fun heq => absurd (link_inj heq) (Nat.ne_of_lt hj)
  rw [Program.marked, routines_callChain, Table.markUsage, hmark, if_neg (Nat.lt_irrefl _)]
  rw [Table.slotTy?, Table.signature?, List.map_map, List.find?_map]
  show Option.map _ (Option.map _ ((List.range (n + 1)).find? fun j => link j = link i)) = _
  rw [hfind]
  rfl

/-- The text gets one link further in every round. -/
theorem slotTy?_after (n k : Nat) {i : Nat} (hi : i ≤ n) :
    ((callChain n).after k).slotTy? (.result (link i)) = some (reached n k i) := by
  induction k generalizing i with
  | zero =>
    rw [reached, if_neg (by omega)]
    exact slotTy?_marked n hi
  | succ k ih =>
    have hwalks : Table.walks (callChain n).routines (callChain n).entryStatements =
        ((List.range (n + 1)).map fun i => (link i, body n i)) ++ [(entryName, [])] := by
      rw [Table.walks, routines_callChain, entryStatements_callChain, List.map_map]
      rfl
    rw [Program.after_succ, Table.round_eq_visits, hwalks, Table.visits, List.foldl_append]
    have hentry : ∀ t : Table, (t.visit entryName []).slotTy? (.result (link i)) =
        t.slotTy? (.result (link i)) := fun _ => rfl
    show ((((callChain n).after k).visits _).visit entryName []).slotTy? _ = _
    rw [hentry, slotTy?_visits_body (fun i hi => ih hi) (n + 1) (Nat.le_refl _) hi,
      if_pos (by omega)]

end CallChain

/-- The type of the text gets to the first function of a long chain only after the last round. -/
theorem rounds_run_out_iff_callChain :
    ∃ t, (callChain 32).infer = .ok t ∧ t.slotTy? (.result "f0") = some .int ∧
      ((callChain 32).after 33).slotTy? (.result "f0") = some .str ∧
      (∀ n < Program.maxRounds, (callChain 32).after (n + 1) ≠ (callChain 32).after n) ∧
      ∀ n, n + 1 < Program.maxRounds →
        ((callChain 32).after (n + 1)).functions ≠ ((callChain 32).after n).functions := by
  have hinfer : (callChain 32).infer = .ok (((callChain 32).penultimate.visits
      (callChain 32).walks).finalize) := by
    refine Program.infer_eq_ok_iff.mpr
      ⟨by decide +kernel, by decide +kernel, by decide +kernel, rfl⟩
  obtain ⟨hlast, hiff, hsettled, -⟩ := rounds_run_out_iff hinfer
  have hnext := slotTy?_after 32 33 (i := 0) (by decide)
  have hend := slotTy?_after 32 32 (i := 0) (by decide)
  have hloud : ∀ n < Program.maxRounds, (callChain 32).after (n + 1) ≠ (callChain 32).after n := by
    intro n hn hquiet
    rw [hsettled ⟨n, hn, hquiet⟩ 33 (by decide), Program.maxRounds, hend] at hnext
    cases hnext
  refine ⟨_, hinfer, ?_, hnext, hloud, (hiff.mp hloud).1⟩
  rw [hlast, Table.slotTy?_finalize, Program.maxRounds]
  exact congrArg _ hend

end Braces
