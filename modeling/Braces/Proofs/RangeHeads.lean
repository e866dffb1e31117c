import Braces.Proofs.Counting.Emitted
import Braces.Proofs.Reading.Words

/-!
# Heads of loops over ranges

The line that opens a loop over a range is read in one way. It counts from the start in steps up to
the end, and so visits the numbers of the range, unless the loop counts with its own variable and
the end is a comparison or a condition: the line then compares the variable with the first operand
of the end only.
-/

namespace Braces

open Cpp (Tree Derives Read Name hiddenName Header)

/-- The first line of a loop is read as the head of a counting loop, and in no other way. -/
def LoopHead.ReadsAs (head : LoopHead) (H : Header) : Prop :=
  ∀ depth body, ∃ line rest, (head.loop body).lines depth = line :: rest ∧
    ∀ H', Cpp.ReadsHeader (Cpp.lex line.toList) H' ↔ H' = H

theorem LoopHead.readsAs_count {counters : List (Name × Cpp.Expr)} {cond : Cpp.Expr}
    {advance : Cpp.Advance} {inits : List (String × Tree)} {test : Cpp.Test} {c : String}
    {d : Option Tree} (hinits : Read Cpp.ReadsInits (Cpp.counterText counters) inits)
    (htest : Read Cpp.ReadsTest cond.text test)
    (hadvance : Read (Cpp.ReadsAdvance · c) advance.text d) :
    (LoopHead.count counters cond advance).ReadsAs ⟨inits, test, c, d⟩ := by
  intro depth body
  have hread := Cpp.readsHeader_line (H := ⟨inits, test, c, d⟩) hinits htest hadvance depth
  refine ⟨_, _, Cpp.lines_forCount depth counters cond advance body, fun H' => ⟨?_, ?_⟩⟩
  · intro hread'
    exact hread'.unique hread
  · rintro rfl
    exact hread

namespace Frame

variable {f : Frame}

/-- A loop over a range counts with its own variable: that is new, the step is known not to be zero,
and the body changes neither the variable nor the end. -/
def CountsItself (st : Progress) (name : String) (stop : Expr) (step : Option Expr)
    (assigned : List String) : Prop :=
  name ∉ st.declared ∧ (stepSign? step).isSome ∧ name ∉ assigned ∧ stop.isStable assigned

theorem not_countsItself_of_first {st st₁ : Progress} {name : String} {start stop : Expr}
    {step : Option Expr} {assigned : List String} {head : LoopHead} {c : Cpp.Stmt}
    (h : f.rangeHead st name start stop step assigned = .ok (head, [c], st₁)) :
    ¬ CountsItself st name stop step assigned := by
  rintro ⟨hfresh, hsign, hassigned, hstable⟩
  unfold rangeHead at h
  obtain ⟨_, _, h⟩ := exists_of_bind_eq_ok h
  obtain ⟨_, _, h⟩ := exists_of_bind_eq_ok h
  obtain ⟨_, _, h⟩ := exists_of_bind_eq_ok h
  obtain ⟨_, _, h⟩ := exists_of_bind_eq_ok h
  obtain ⟨_, _, h⟩ := exists_of_bind_eq_ok h
  obtain ⟨_, _, h⟩ := exists_of_bind_eq_ok h
  rw [if_pos (by simp [hfresh, hsign, hassigned, hstable])] at h
  cases h

section Heads
variable {name : String} {start stop : Expr} {step : Option Expr} {cstart cstop : Cpp.Expr}
  {cstep : Option Cpp.Expr}

theorem hiddenStride_of_isSome {sign? : Option Int} (h : sign?.isSome = true) (n : Nat) :
    hiddenStride n sign? cstep = (cstep, []) := by
  obtain ⟨g, rfl⟩ := Option.isSome_iff_exists.mp h
  cases cstep <;> rfl

/-- With a known sign, only the comparison of the counter looks at the bound. -/
theorem counting_of_isSome {sign? : Option Int} (h : sign?.isSome = true) (counter : Name) :
    ∃ up advance, ∀ bound, counting sign? counter bound cstep =
      (towards up counter bound, advance) := by
  obtain ⟨g, rfl⟩ := Option.isSome_iff_exists.mp h
  cases cstep with
  | none => exact ⟨_, _, fun _ => rfl⟩
  | some c => exact ⟨_, _, fun _ => rfl⟩

theorem Printable.range (h : Printable (Expr.range start (some stop) step).parts) :
    Printable start.parts ∧ Printable stop.parts ∧ Printable (Expr.partsOfOption step) := by
  refine ⟨h.mono ?_, h.mono ?_, h.mono ?_⟩ <;>
    simp +contextual [Expr.parts, Expr.partsOfOption]

/-- A head that counts with the variable of the loop. -/
theorem ownHead_readsAs (hname : Cpp.isName name = true) (hstart : f.Emits start cstart)
    (hstop : f.Emits stop cstop) (hstep : f.EmitsOption step cstep)
    (hp : Printable (Expr.range start (some stop) step).parts)
    (hsign : (stepSign? step).isSome = true) :
    ∃ H, (ownHead name (stepSign? step) cstart cstop cstep).ReadsAs H ∧
      (H.Counts (f.intended start) (f.intended stop) (step.map f.intended) ↔
        stop.isLoose = false) := by
  obtain ⟨hpstart, hpstop, hpstep⟩ := Printable.range hp
  have hc : (Name.source name).Plain := hname
  have hinits := Cpp.read_counters (hc.readInit (hstart.read hpstart (level_pos start))) .nil
  obtain ⟨up, advance, hcounting⟩ := @counting_of_isSome cstep _ hsign (.source name)
  have hown : ownHead name (stepSign? step) cstart cstop cstep =
      .count [(.source name, cstart)] (towards up (.source name) cstop) advance := by
    rw [ownHead, hcounting]
  have hpaced : ∀ {bound b}, Read (Derives 5) (Cpp.Expr.text bound) b →
      ReadsPace (towards up (.source name) bound, advance) (.source name) b
        (step.map f.intended) [] := by
    intro bound b hb
    obtain ⟨strides, hstrides, hpace, -⟩ := hstep.pace hpstep hc hb 0
    rw [hiddenStride_of_isSome hsign] at hstrides hpace
    cases hstrides
    rwa [hcounting] at hpace
  rw [hown]
  cases hloose : stop.isLoose with
  | false =>
    obtain ⟨test, d, htest, hadvance, hpaced⟩ := hpaced (hstop.read hpstop (five_le_level hloose))
    refine ⟨_, LoopHead.readsAs_count hinits htest hadvance, iff_of_true ?_ rfl⟩
    exact Header.counts_mk .itself hpaced (List.pairwise_singleton _ _)
  | true =>
    obtain ⟨_, d, -, hadvance, -⟩ := hpaced read_zero
    obtain ⟨t, htest, hne⟩ := hstop.read_drawn hpstop hloose hc up
    refine ⟨_, LoopHead.readsAs_count hinits htest hadvance, iff_of_false ?_ (by decide)⟩
    rintro ⟨bound, bounds, strides, hcounts⟩
    obtain ⟨op, ht⟩ := hcounts.paced.compares
    exact hne _ _ _ ht

/-- Hidden variables of one number are different, and none stands in an expression of the source. -/
theorem apart_hidden {n : Nat} {B C : Tree} (A : Tree) (hB : f.Owned B.words) (hC : f.Owned C.words)
    (hfree : ∀ s ∈ [Cpp.Stem.counter, .bound, .stride], hiddenName s n ∉ f.varNames) :
    Cpp.Apart [(hiddenName .counter n, A), (hiddenName .bound n, B),
      (hiddenName .stride n, C)] := by
  have hne : ∀ {s s' : Cpp.Stem}, s ≠ s' → hiddenName s n ≠ hiddenName s' n :=
    fun hne heq => hne (Cpp.hiddenName_inj heq).1
  simp only [List.forall_mem_cons] at hfree
  obtain ⟨hcounter, hbound, -⟩ := hfree
  simp only [Cpp.Apart, List.pairwise_cons, List.forall_mem_cons]
  refine ⟨⟨⟨hne (by decide), hB.hiddenName_not_mem hcounter⟩,
    ⟨hne (by decide), hC.hiddenName_not_mem hcounter⟩, List.forall_mem_nil _⟩,
    ⟨⟨hne (by decide), hC.hiddenName_not_mem hbound⟩, List.forall_mem_nil _⟩,
    List.forall_mem_nil _, List.Pairwise.nil⟩

/-- The bound of a head with hidden variables, and the variable that holds it unless it is a
literal. -/
theorem Emits.bounded (h : f.Emits stop cstop) (hp : Printable stop.parts) (n : Nat) :
    ∃ b bounds, Cpp.Bounded (f.intended stop) b bounds ∧
      Read (Derives 5) (if stop.literalSign?.isSome then cstop
        else .var (.hidden .bound n)).text b ∧
      List.Forall₂ Cpp.ReadInit
        (if stop.literalSign?.isSome then [] else [(Name.hidden .bound n, cstop)]) bounds ∧
      bounds.Sublist [(hiddenName .bound n, f.intended stop)] := by
  cases hsign : stop.literalSign? with
  | some g =>
    have hread := h.read hp (five_le_level (isLoose_of_literalSign? hsign))
    exact ⟨_, [], .itself, hread, .nil, List.nil_sublist _⟩
  | none =>
    have hplain : (Name.hidden .bound n).Plain := trivial
    have hinit := hplain.readInit (h.read hp (level_pos stop))
    exact ⟨_, _, .held _, hplain.read (by decide), .cons hinit .nil, List.Sublist.refl _⟩

/-- A head that counts with hidden variables. -/
theorem hiddenHead_readsAs (hstart : f.Emits start cstart) (hstop : f.Emits stop cstop)
    (hstep : f.EmitsOption step cstep)
    (hp : Printable (Expr.range start (some stop) step).parts) {n : Nat}
    (hfree : ∀ s ∈ [Cpp.Stem.counter, .bound, .stride], hiddenName s n ∉ f.varNames) :
    ∃ H, (hiddenHead n (stepSign? step) stop.literalSign?.isSome cstart cstop cstep).ReadsAs H ∧
      H.Counts (f.intended start) (f.intended stop) (step.map f.intended) ∧
      (stepSign? step = none →
        ∃ e ∈ step, (hiddenName .stride n, calling "py_step" [f.intended e]) ∈ H.inits) := by
  obtain ⟨hpstart, hpstop, hpstep⟩ := Printable.range hp
  have hc : (Name.hidden .counter n).Plain := trivial
  obtain ⟨b, bounds, hbounded, hb, hbounds, hsub⟩ := hstop.bounded hpstop n
  obtain ⟨strides, hstrides, ⟨test, d, htest, hadvance, hpaced⟩, hshape⟩ :=
    hstep.pace hpstep hc hb n
  have hinits := Cpp.read_counters (hc.readInit (hstart.read hpstart (level_pos start)))
    (List.rel_append hbounds hstrides)
  refine ⟨_, LoopHead.readsAs_count hinits htest hadvance, Header.counts_mk hbounded hpaced ?_, ?_⟩
  · have hstride : ∃ C, f.Owned (Tree.words C) ∧ strides.Sublist [(hiddenName .stride n, C)] := by
      obtain ⟨-, rfl⟩ | ⟨e, c, he, -, rfl⟩ := hshape
      · exact ⟨Cpp.zeroTree, owned_nil, List.nil_sublist _⟩
      · exact ⟨calling "py_step" [f.intended e], he.owned.append owned_nil, List.Sublist.refl _⟩
    obtain ⟨C, hC, hsub'⟩ := hstride
    exact (apart_hidden _ hstop.owned hC hfree).sublist ((hsub.append hsub').cons_cons _)
  · intro hnone
    obtain ⟨hsome, -⟩ | ⟨e, c, he, rfl, rfl⟩ := hshape
    · rw [hnone] at hsome
      cases hsome
    · exact ⟨e, rfl, by simp⟩

end Heads

end Frame

/-- The line that opens a loop over a range is read in one way. It counts from the start in steps up
to the end, and so visits the numbers of the range, just if the loop counts with hidden variables or
the end is neither a comparison nor a condition. A step that is not known to differ from zero is
checked before the first test. -/
theorem range_head_counts_iff {source : String} {p : Program} {name : String} {start stop : Expr}
    {step : Option Expr} {body : List Stmt} {f : Frame} {st st₁ : Progress} {head : LoopHead}
    {first : List Cpp.Stmt} (hp : readSource source = .ok p)
    (hloop : .forLoop name (.range start (some stop) step) body ∈ allStmts p)
    (hfinite : ∀ x, .float x ∈ (Expr.range start (some stop) step).parts → x.isFinite = true)
    (hhead : f.loopHead st name (.range start (some stop) step) (Stmt.assignedIn body) =
      .ok (head, first, st₁)) :
    ∃ H, head.ReadsAs H ∧
      (H.Counts (f.intended start) (f.intended stop) (step.map f.intended) ↔
        ¬ (Frame.CountsItself st name stop step (Stmt.assignedIn body) ∧ stop.isLoose = true)) ∧
      (¬ (Frame.CountsItself st name stop step (Stmt.assignedIn body) ∧ stop.isLoose = true) →
        H.Ranges (f.intended start) (f.intended stop) (step.map f.intended)) ∧
      (Frame.stepSign? step = none →
        ∃ w, ∃ e ∈ step, (w, calling "py_step" [f.intended e]) ∈ H.inits) := by
  have hworded := blockWorded_of_readSource hp _ hloop
  have hname : Cpp.isName name = true := hworded.names name (List.mem_singleton_self name)
  have hprintable : Printable (Expr.range start (some stop) step).parts :=
    ⟨hworded.written _ (List.mem_singleton_self _), hfinite⟩
  rw [Frame.loopHead] at hhead
  obtain ⟨cstart, cstop, cstep, hstart, hstop, hstep, hcases⟩ := Frame.rangeHead_cases hhead
  have hstart := Frame.emits_of_expr hstart
  have hstop := Frame.emits_of_expr hstop
  have hstep := Frame.emits_of_option hstep
  obtain ⟨hfresh, hsign, hassigned, hstable, rfl, -, -⟩ | ⟨rfl, rfl, -⟩ := hcases
  · obtain ⟨H, hreads, hcounts⟩ :=
      Frame.ownHead_readsAs hname hstart hstop hstep hprintable hsign
    have hitself : Frame.CountsItself st name stop step (Stmt.assignedIn body) :=
      ⟨hfresh, hsign, hassigned, hstable⟩
    rw [← Bool.not_eq_true, ← and_iff_right hitself (b := stop.isLoose = true)] at hcounts
    refine ⟨H, hreads, hcounts, fun h => (hcounts.mpr h).ranges, ?_⟩
    · intro hnone
      rw [hnone] at hsign
      cases hsign
  · obtain ⟨H, hreads, hcounts, hstride⟩ :=
      Frame.hiddenHead_readsAs hstart hstop hstep hprintable (Frame.hiddenName_free _ _)
    refine ⟨H, hreads, iff_of_true hcounts ?_, fun _ => hcounts.ranges, ?_⟩
    · rintro ⟨hitself, -⟩
      exact Frame.not_countsItself_of_first hhead hitself
    · intro hnone
      exact ⟨_, hstride hnone⟩

/-- A range up to a comparison. -/
def comparedEnd : String := "a = 1\nb = 2\nfor i in range(a == b):\n    print(i)\n"

/-- What its loop goes over. -/
def comparedRange : Expr :=
  .range (.int 0) (some (.binary .equal (.var "a") (.var "b"))) none

/-- Whether a program ends in that loop, with a body that gives no variable a value. -/
def endsCompared : Program → Bool
  | [_, _, .forLoop i (.range (.int n) (some (.binary .equal (.var a) (.var b))) none) body] =>
    i = "i" ∧ n = 0 ∧ a = "a" ∧ b = "b" ∧ Stmt.assignedIn body = []
  | _ => false

theorem mem_of_endsCompared {p : Program} (h : endsCompared p = true) :
    ∃ body, .forLoop "i" comparedRange body ∈ allStmts p ∧ Stmt.assignedIn body = [] := by
  unfold endsCompared at h
  split at h
  · next body =>
    obtain ⟨rfl, rfl, rfl, rfl, hbody⟩ := of_decide_eq_true h
    exact ⟨body, by simp [allStmts, comparedRange], hbody⟩
  · cases h

/-- Three integers. -/
def comparedFrame : Frame :=
  ⟨⟨[], .ofList [(entryName, .ofList [("a", ⟨.int, false⟩), ("b", ⟨.int, false⟩),
    ("i", ⟨.int, true⟩)])]⟩, entryName⟩

/-- What `for (long long i = 0; i < a == b; i++) \x7b` is read as. -/
def comparedHead : Header where
  inits := [("i", Cpp.zeroTree)]
  test := .plain (.binary "==" (.binary "<" (Cpp.counterTree "i") (Cpp.counterTree "a"))
    (Cpp.counterTree "b"))
  counter := "i"
  stride := none

theorem readsHeader_comparedHead :
    Cpp.ReadsHeader (Cpp.lex "for (long long i = 0; i < a == b; i++) \x7b".toList)
      comparedHead := by
  have hnames : ∀ x ∈ ["i", "a", "b"], Cpp.isName x = true ∧ Cpp.spell x = x := by decide +kernel
  have hplain : ∀ x ∈ ["i", "a", "b"], (Name.source x).Plain := fun x hx => (hnames x hx).1
  have htext : ∀ x ∈ ["i", "a", "b"], (Name.source x).text = x := fun x hx => (hnames x hx).2
  have hread : ∀ x ∈ ["i", "a", "b"], ∀ k ≤ 8,
      Read (Derives k) (Cpp.Expr.var (.source x)).text (Cpp.counterTree x) := by
    intro x hx k hk
    have hvar := (hplain x hx).read hk
    rwa [Name.tree, htext x hx] at hvar
  have hless := Cpp.read_binary .lessThan (hread "i" (by simp) 4 (by decide))
    (hread "a" (by simp) 5 (by decide))
  have hequal := Cpp.read_binary .equal (hless.lower (by decide) (by decide))
    (hread "b" (by simp) 4 (by decide))
  have hinit : Cpp.ReadInit (.source "i", .int 0) ("i", Cpp.zeroTree) :=
    ⟨hplain "i" (by simp), htext "i" (by simp), Frame.read_zero.lower (by decide) (by decide)⟩
  have hadvance := Cpp.read_increment (hplain "i" (by simp))
  rw [htext "i" (by simp)] at hadvance
  have hline := Cpp.readsHeader_line (H := comparedHead) (Cpp.read_counters hinit .nil)
    (hequal.test (by decide) (by decide)) hadvance 0
  have hsame : Cpp.line 0 (Cpp.headText [(.source "i", .int 0)]
      (.binary .equal (.binary .lessThan (.var (.source "i")) (.var (.source "a")))
        (.var (.source "b"))) (.increment (.source "i"))) =
      "for (long long i = 0; i < a == b; i++) \x7b" := by decide +kernel
  rwa [hsame] at hline

/-- With equal operands the range holds one number, but its loop never ends. -/
theorem not_ranges_comparedHead :
    ¬ comparedHead.Ranges Cpp.zeroTree
      (.binary "==" (Cpp.counterTree "a") (Cpp.counterTree "b")) none := by
  intro h
  -- All variables are zero, and the body does nothing.
  have hstate : ∀ k : Nat, comparedHead.state (.exact _) (fun _ τ => τ) (fun _ => 0) k =
      some (Function.update (fun _ => 0) "i" (k : Int)) := by
    intro k
    induction k with
    | zero => rfl
    | succ k ih =>
      rw [Header.state, ih]
      simp [comparedHead, Cpp.Valuation.stride]
  have hone : ∀ k : Nat, Cpp.Tree.integer (Function.update (fun _ => 0) "i" (k : Int))
      (.binary "==" (Cpp.counterTree "a") (Cpp.counterTree "b")) = some 1 := by
    intro k
    simp [Cpp.Tree.integer, Cpp.counterTree, Cpp.compare?]
  have hranges := h (.exact _) (fun _ τ => τ) (fun _ => 0) 0 1 1 rfl rfl rfl (fun _ _ _ _ => rfl)
    (.inr fun k τ hτ => by
      rw [hstate, Option.some.injEq] at hτ
      rw [← hτ]
      exact hone k)
  obtain ⟨-, τ, hτ, hholds⟩ := hranges.2 (by decide)
  have hlength : (rangeValues 0 1 1).length = 1 := by decide
  rw [hlength, hstate, Option.some.injEq] at hτ
  have hon : (Cpp.Valuation.exact comparedHead.names).holds τ comparedHead.test = some true := by
    rw [← hτ]
    simp [comparedHead, Cpp.Valuation.holds, Cpp.Valuation.exact, Cpp.Tree.integer, Cpp.counterTree,
      Cpp.compare?]
  rw [hholds] at hon
  cases hon

theorem range_head_counts_iff_comparedEnd :
    ∃ p body head first st₁, readSource comparedEnd = .ok p ∧
      .forLoop "i" comparedRange body ∈ allStmts p ∧
      comparedFrame.loopHead ⟨["b", "a"], 0⟩ "i" comparedRange (Stmt.assignedIn body) =
        .ok (head, first, st₁) ∧
      (head.loop []).lines 0 = ["for (long long i = 0; i < a == b; i++) \x7b", "\x7d"] ∧
      head.ReadsAs comparedHead ∧
      ¬ comparedHead.Counts Cpp.zeroTree
        (.binary "==" (Cpp.counterTree "a") (Cpp.counterTree "b")) none ∧
      ¬ comparedHead.Ranges Cpp.zeroTree
        (.binary "==" (Cpp.counterTree "a") (Cpp.counterTree "b")) none := by
  have hshape : (readSource comparedEnd).toOption.map endsCompared = some true := by decide +kernel
  obtain ⟨p, hp, hends⟩ := exists_of_toOption_map hshape
  obtain ⟨body, hloop, hbody⟩ := mem_of_endsCompared hends
  have hlines : (comparedFrame.loopHead ⟨["b", "a"], 0⟩ "i" comparedRange []).toOption.map
      (fun r => (r.1.loop []).lines 0) =
      some ["for (long long i = 0; i < a == b; i++) \x7b", "\x7d"] := by decide +kernel
  obtain ⟨⟨head, first, st₁⟩, hemitted, htext⟩ := exists_of_toOption_map hlines
  have hhead : comparedFrame.loopHead ⟨["b", "a"], 0⟩ "i" comparedRange (Stmt.assignedIn body) =
      .ok (head, first, st₁) := by
    rw [hbody]
    exact hemitted
  have hfinite : ∀ x, .float x ∈ comparedRange.parts → x.isFinite = true := by
    simp [comparedRange, Expr.parts, Expr.partsOfOption]
  obtain ⟨H, hreads, hcounts, -⟩ := range_head_counts_iff hp hloop hfinite hhead
  obtain ⟨line, rest, hfirst, hunique⟩ := hreads 0 []
  obtain rfl : comparedHead = H := by
    rw [htext, List.cons.injEq] at hfirst
    exact (hunique comparedHead).mp (hfirst.1 ▸ readsHeader_comparedHead)
  have hspell : Cpp.spell "a" = "a" ∧ Cpp.spell "b" = "b" ∧ Cpp.intLiteral 0 = "0" := by
    decide +kernel
  refine ⟨p, body, head, first, st₁, hp, hloop, hhead, htext, hreads, ?_, not_ranges_comparedHead⟩
  simp only [Frame.intended, Frame.operated, Frame.valued, hspell] at hcounts
  refine fun h => hcounts.mp h ⟨⟨by decide, rfl, ?_, ?_⟩, rfl⟩
  · rw [hbody]
    exact List.not_mem_nil
  · rw [hbody]
    decide

end Braces
