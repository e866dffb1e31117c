import Braces.Proofs.Emission.Heads

/-!
# The names that emitted statements declare

A variable that is declared stays declared and is not declared again. The numbers of hidden names
only go up, and no variable of the routine has the name that such a number gives.
-/

namespace Braces

open Cpp (Mark Name Stem hiddenName declaredNames)

/-- The stem and the number of a hidden name. -/
def Cpp.Name.hidden? : Name → Option (Stem × Nat)
  | .source _ => none
  | .hidden stem n => some (stem, n)

namespace Frame

/-- What declaring some names does between two points of a routine. -/
structure Declares (f : Frame) (st : Progress) (names : List Name) (st' : Progress) : Prop where
  next_le : st.nextHidden ≤ st'.nextHidden
  keeps : ∀ x ∈ st.declared, x ∈ st'.declared ∧ Name.source x ∉ names
  nodup : (names.filterMap Name.hidden?).Nodup
  fresh : ∀ p ∈ names.filterMap Name.hidden?, st.nextHidden ≤ p.2 ∧ p.2 < st'.nextHidden
  free : ∀ p ∈ names.filterMap Name.hidden?, hiddenName p.1 p.2 ∉ f.varNames

variable {f : Frame} {st st₁ st₂ : Progress} {names later : List Name} {name : String}

theorem Declares.refl (f : Frame) (st : Progress) : f.Declares st [] st where
  next_le := Nat.le_refl _
  keeps _ hx := ⟨hx, nofun⟩
  nodup := List.nodup_nil
  fresh := nofun
  free := nofun

theorem Declares.trans (h : f.Declares st names st₁) (h' : f.Declares st₁ later st₂) :
    f.Declares st (names ++ later) st₂ where
  next_le := Nat.le_trans h.next_le h'.next_le
  keeps x hx := by
    obtain ⟨hx₁, hn⟩ := h.keeps x hx
    obtain ⟨hx₂, hl⟩ := h'.keeps x hx₁
    exact ⟨hx₂, fun hm => (List.mem_append.mp hm).elim hn hl⟩
  nodup := by
    rw [List.filterMap_append]
    refine List.nodup_append.mpr ⟨h.nodup, h'.nodup, ?_⟩
    rintro p hp q hq rfl
    have := (h.fresh p hp).2
    have := (h'.fresh p hq).1
    omega
  fresh p hp := by
    rw [List.filterMap_append] at hp
    have hle := h.next_le
    have hle' := h'.next_le
    rcases List.mem_append.mp hp with hp | hp
    · have := h.fresh p hp
      omega
    · have := h'.fresh p hp
      omega
  free p hp := by
    rw [List.filterMap_append] at hp
    exact (List.mem_append.mp hp).elim (h.free p) (h'.free p)

theorem declares_source (hd : name ∉ st.declared) :
    f.Declares st [.source name] (st.declare name) where
  next_le := Nat.le_refl _
  keeps x hx := by
    refine ⟨List.mem_cons_of_mem _ hx, fun hm => ?_⟩
    cases List.mem_singleton.mp hm
    exact hd hx
  nodup := List.nodup_nil
  fresh := nofun
  free := nofun

theorem declares_hidden {stems : List Stem} {n : Nat} (hle : st.nextHidden ≤ n)
    (hnodup : stems.Nodup) (hfree : ∀ s ∈ stems, hiddenName s n ∉ f.varNames) :
    f.Declares st (stems.map (.hidden · n)) { st with nextHidden := n + 1 } := by
  have hpairs : (stems.map (Name.hidden · n)).filterMap Name.hidden? = stems.map (·, n) := by
    rw [List.filterMap_map, ← List.filterMap_eq_map]
    rfl
  refine ⟨Nat.le_succ_of_le hle, fun x hx => ⟨hx, by simp⟩, ?_, ?_, ?_⟩
  · rw [hpairs]
    exact List.pairwise_map.mpr (hnodup.imp fun hne h => hne (congrArg Prod.fst h))
  · rw [hpairs]
    intro p hp
    obtain ⟨s, -, rfl⟩ := List.mem_map.mp hp
    exact ⟨hle, Nat.lt_succ_self n⟩
  · rw [hpairs]
    intro p hp
    obtain ⟨s, hs, rfl⟩ := List.mem_map.mp hp
    exact hfree s hs

/-- The variable of a loop is forgotten after it. -/
theorem Declares.forget (h : f.Declares st names st₁) (hd : name ∉ st.declared) :
    f.Declares st names (st₁.forget name) where
  next_le := h.next_le
  keeps x hx := by
    obtain ⟨hx₁, hn⟩ := h.keeps x hx
    refine ⟨List.mem_filter.mpr ⟨hx₁, ?_⟩, hn⟩
    rw [decide_eq_true_eq]
    rintro rfl
    exact hd hx
  nodup := h.nodup
  fresh := h.fresh
  free := h.free

/-! ## Statements -/

/-- The names that statements declare, at any depth. -/
def declaredIn (cs : List Cpp.Stmt) : List Name := declaredNames (Cpp.blockMarks cs).flatten

theorem declaredIn_append (cs later : List Cpp.Stmt) :
    declaredIn (cs ++ later) = declaredIn cs ++ declaredIn later := by
  simp [declaredIn, Cpp.blockMarks_append]

theorem declaredIn_onlyUses {xs : List String} {c : Cpp.Stmt} (h : OnlyUses xs c) :
    declaredIn [c] = [] := by
  obtain ⟨names, hm, -⟩ := h
  simp [declaredIn, Cpp.blockMarks, hm]

theorem declaredIn_loop (head : LoopHead) (first cbody : List Cpp.Stmt) :
    declaredIn [head.loop (first ++ cbody)] =
      declaredNames head.marks ++ declaredIn first ++ declaredIn cbody := by
  simp [declaredIn, Cpp.blockMarks, LoopHead.marks_loop, Cpp.blockMarks_append]

section Loops
variable {iterable : Expr} {head : LoopHead} {first : List Cpp.Stmt}

theorem HeadOf.declares_fresh (hh : f.HeadOf st name iterable head first st₁)
    (hd : name ∉ st.declared) :
    f.Declares st (declaredNames head.marks ++ declaredIn first) (st₁.declare name) := by
  cases hh with
  | own _ _ hm _ =>
    simpa [hm, declaredIn, Cpp.blockMarks] using declares_source hd
  | hidden _ hle hnodup hfree hdecl _ _ =>
    have hfirst : ∀ value, declaredIn [f.loopStore (name ∉ st.declared) name value] =
        [.source name] := by
      intro value
      simp [loopStore, hd, declaredIn, Cpp.blockMarks, Cpp.Stmt.marks, Cpp.Expr.uses]
    rw [hdecl, hfirst]
    exact (declares_hidden hle hnodup hfree).trans (declares_source hd)

theorem HeadOf.declares_stored (hh : f.HeadOf st name iterable head first st₁)
    (hd : name ∈ st.declared) :
    f.Declares st (declaredNames head.marks ++ declaredIn first) st₁ := by
  cases hh with
  | own _ hn => exact absurd hd hn
  | hidden _ hle hnodup hfree hdecl _ _ =>
    have hfirst : ∀ value, declaredIn [f.loopStore (name ∉ st.declared) name value] = [] := by
      intro value
      simp [loopStore, hd, declaredIn, Cpp.blockMarks, Cpp.Stmt.marks, Cpp.Expr.uses]
    rw [hdecl, hfirst, List.append_nil]
    exact declares_hidden hle hnodup hfree

end Loops

mutual

theorem EmitsStmt.declares : ∀ {inLoop : Bool} {st st' : Progress} {s : Stmt} {cs : List Cpp.Stmt},
    f.EmitsStmt inLoop st s cs st' → f.Declares st (declaredIn cs) st'
  | _, _, _, _, _, .store _ _ _ => by
    simpa [declaredIn, Cpp.blockMarks, Cpp.Stmt.marks, Cpp.Expr.uses] using Declares.refl f _
  | _, _, _, _, _, .declare _ hd _ => by
    simpa [declaredIn, Cpp.blockMarks, Cpp.Stmt.marks, Cpp.Expr.uses] using declares_source hd
  | _, _, _, _, _, .assignAt hc => declaredIn_onlyUses (onlyUses_of_assignAt hc) ▸ .refl f _
  | _, _, _, _, _, .print hc => declaredIn_onlyUses (onlyUses_of_print hc) ▸ .refl f _
  | _, _, _, _, _, .ifElse _ hb he => by
    simpa [declaredIn, Cpp.blockMarks, Cpp.Stmt.marks, Cpp.Expr.uses]
      using hb.declares.trans he.declares
  | _, _, _, _, _, .whileLoop _ hb => by
    simpa [declaredIn, Cpp.blockMarks, Cpp.Stmt.marks, Cpp.Expr.uses] using hb.declares
  | _, _, _, _, _, .freshLoop hh hd hb => by
    have hh := headOf_of_loopHead hh
    rw [hh.declared] at hd
    rw [declaredIn_loop]
    exact ((hh.declares_fresh hd).trans hb.declares).forget hd
  | _, _, _, _, _, .loop hh hd hb => by
    have hh := headOf_of_loopHead hh
    rw [hh.declared] at hd
    rw [declaredIn_loop]
    exact (hh.declares_stored hd).trans hb.declares
  | _, _, _, _, _, .ret hc => declaredIn_onlyUses (onlyUses_of_ret hc) ▸ .refl f _
  | _, _, _, _, _, .eval hc => declaredIn_onlyUses (onlyUses_of_eval hc) ▸ .refl f _
  | _, _, _, _, _, .pass | _, _, _, _, _, .break_ | _, _, _, _, _, .continue_ => .refl f _

theorem EmitsBlock.declares : ∀ {inLoop : Bool} {st st' : Progress} {body : List Stmt}
    {cs : List Cpp.Stmt}, f.EmitsBlock inLoop st body cs st' → f.Declares st (declaredIn cs) st'
  | _, _, _, _, _, .nil => .refl f _
  | _, _, _, _, _, .cons hs hb => by
    rw [declaredIn_append]
    exact hs.declares.trans hb.declares

theorem EmitsElse.declares : ∀ {inLoop : Bool} {st st' : Progress} {orelse : Option (List Stmt)}
    {ce : Cpp.Else}, f.EmitsElse inLoop st orelse ce st' →
    f.Declares st (declaredNames ce.marks.flatten) st'
  | _, _, _, _, _, .nothing => .refl f _
  | _, _, _, _, _, .elseIf _ hb he => by
    simpa [declaredIn, Cpp.Else.marks, Cpp.Expr.uses] using hb.declares.trans he.declares
  | _, _, _, _, _, .block hb => by
    simpa [declaredIn, Cpp.Else.marks] using hb.declares

end

end Frame

end Braces
