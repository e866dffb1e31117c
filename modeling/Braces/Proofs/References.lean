import Braces.Proofs.Usage.Forwarding
import Braces.Proofs.WellScoped

/-!
# Parameters and references

What makes a parameter a list, stored into or given another value, told by chains of forwarded
parameters, and the mode that follows. A parameter that goes by constant reference is nowhere
written: its body gives it no other value, stores to none of its elements and passes it on to none
that does.
-/

namespace Braces

open Table Program

theorem unmarked_declared_le (fs : List Function) :
    Table.unmarked ⟨fs.map Function.signature, .empty⟩ ≤ 2 * (fs.map (·.params.length)).sum := by
  have hlength : ((fs.map Function.signature).flatMap (·.params)).length =
      (fs.map (·.params.length)).sum := by
    simp [List.length_flatMap, Function.signature, Function.comp_def]
  have := Table.unmarked_add_markLevel ⟨fs.map Function.signature, .empty⟩
  rw [hlength] at this
  omega

/-- Marking comes to an end, after a pass that sets no mark. Each parameter has then exactly the
marks that are called for at the ends of its chains, and once inference is through it goes by a
mutable reference exactly if its elements are stored to and it is not given another value. -/
theorem marks_follow_forwarding {fs : List Function} (hnodup : (fs.map (·.name)).Nodup) :
    (∃ n ≤ 2 * (fs.map (·.params.length)).sum,
        markUsage fs ⟨fs.map Function.signature, .empty⟩ =
          (markAll fs)^[n + 1] ⟨fs.map Function.signature, .empty⟩ ∧
        ((markAll fs)^[n + 1] ⟨fs.map Function.signature, .empty⟩).view Param.marks =
          ((markAll fs)^[n] ⟨fs.map Function.signature, .empty⟩).view Param.marks) ∧
      (∀ f ∈ fs, ∀ i x, f.params[i]? = some x →
        ∃ q, ((markUsage fs ⟨fs.map Function.signature, .empty⟩).paramsOf f.name)[i]? = some q ∧
          q.name = x ∧
          (q.mutated = true ↔ Reaches fs StoresInto (f, i)) ∧
          (q.ty = .list ↔ Reaches fs UsesAsSequence (f, i)) ∧
          (q.reassigned = true ↔ Reassigns f.body x)) ∧
      ∀ (p : Program) (t : Table), p.routines = fs → p.infer = .ok t →
        ∀ f ∈ fs, ∀ i x, f.params[i]? = some x →
          ∃ q, (t.paramsOf f.name)[i]? = some q ∧ q.name = x ∧
            (q.mutated = true ↔ Reaches fs StoresInto (f, i)) ∧
            (q.reassigned = true ↔ Reassigns f.body x) ∧
            (q.mode = .mutRef ↔ q.mutated = true ∧ q.reassigned = false) := by
  refine ⟨?_, ?_, ?_⟩
  · obtain ⟨n, hn, heq, hview⟩ := markUsage_eq_iterate fs ⟨fs.map Function.signature, .empty⟩
    exact ⟨n, Nat.le_trans hn (unmarked_declared_le fs), heq, hview⟩
  · intro f hf i x hx
    obtain ⟨q, hq, hmarks⟩ := exists_marksOf hnodup hf hx
    exact ⟨q, hq, hmarks.name, hmarks.mutated_iff, hmarks.list_iff, hmarks.reassigned_iff⟩
  · rintro p t rfl ht f hf i x hx
    obtain ⟨q, hq, hname, hmode, hlist, hmut, hre⟩ := exists_param_of_infer ht hf hx
    refine ⟨q, hq, hname, hmut, hre, ?_⟩
    rw [hmode, Param.modeFor_eq_mutRef_iff, and_iff_right_iff_imp]
    exact fun hm => hlist ((hmut.1 hm.1).mono fun _ _ => StoresInto.usesAsSequence)

/-- Passes its list on. -/
def sift : Function where
  name := "sift"
  params := ["a", "n"]
  body :=
    [.ifElse (.binary .greaterThan (.var "n") (.int 0))
      [.eval (.call "swap" [.var "a", .var "n"])] none]

/-- Stores into its list and passes it back. -/
def swap : Function where
  name := "swap"
  params := ["b", "k"]
  body :=
    [.assignAt (.var "b") (.int 0) (.index (.var "b") (.var "k")),
      .assign "k" (.binary .sub (.var "k") (.int 1)),
      .eval (.call "sift" [.var "b", .var "k"])]

def sifting : Program :=
  [.funcDef sift.name sift.params sift.body, .funcDef swap.name swap.params swap.body]

theorem marks_follow_forwarding_sifting :
    ([sift, swap].map (·.name)).Nodup ∧
      ∃ t, sifting.routines = [sift, swap] ∧ sifting.infer = .ok t ∧
        ∃ q, (t.paramsOf "sift")[0]? = some q ∧ q.name = "a" ∧ q.mode = .mutRef := by
  have hnodup : ([sift, swap].map (·.name)).Nodup := by decide
  have hroutines : sifting.routines = [sift, swap] := rfl
  have hok : sifting.infer.toBool = true := by decide +kernel
  obtain ⟨t, ht⟩ := exists_of_toBool hok
  obtain ⟨-, -, hmodes⟩ := marks_follow_forwarding hnodup
  obtain ⟨q, hq, hname, hmut, hre, hmode⟩ :=
    hmodes sifting t hroutines ht sift List.mem_cons_self 0 "a" rfl
  have hpasses : Passes sift.body "a" "swap" 0 :=
    ⟨[.var "a", .var "n"], by simp [sift, Stmt.nodes, Stmt.withinBlock, Stmt.within,
      Stmt.withinElse, Stmt.operands, Expr.partsOf, Expr.parts], rfl⟩
  have hforwards : Forwards [sift, swap] (sift, 0) (swap, 0) :=
    ⟨by simp, by decide, "a", rfl, hpasses⟩
  have hstores : StoresInto swap.body "b" := ⟨.int 0, _, List.mem_cons_self⟩
  have hkept : ¬Reassigns sift.body "a" := by
    simp [Reassigns, sift, Stmt.withinBlock, Stmt.within, Stmt.withinElse]
  refine ⟨hnodup, t, hroutines, ht, q, hq, hname, hmode.2 ⟨hmut.2 ?_, ?_⟩⟩
  · exact .forwarded hforwards (.direct rfl hstores)
  · exact Bool.eq_false_iff.2 fun h => hkept (hre.1 h)

/-! ## Constant references -/

/-- In an accepted source, a parameter that goes by constant reference is never given another value
by an assignment or a loop, its elements are never stored to, and it is never passed on as it is to
a parameter that goes by mutable reference. -/
theorem constRef_never_written {source text : String} (h : compile source = .ok text) :
    ∃ p t, readSource source = .ok p ∧ p.infer = .ok t ∧
      ∀ f ∈ p.functions, ∀ (i : Nat) (x : String) (q : Param), f.params[i]? = some x →
        (t.paramsOf f.name)[i]? = some q → q.mode = .constRef →
          ¬Reassigns f.body x ∧ ¬StoresInto f.body x ∧
            ∀ callee j r, Passes f.body x callee j → (t.paramsOf callee)[j]? = some r →
              r.mode ≠ .mutRef := by
  obtain ⟨p, t, -, hp, ht, -⟩ := exists_of_compile h
  refine ⟨p, t, hp, ht, fun f hf i x q hx hq hmode => ?_⟩
  -- The entry function has no signature.
  have hf : f ∈ p.routines := by
    refine List.mem_filter.2 ⟨hf, decide_eq_true fun hname => ?_⟩
    rw [hname, paramsOf_entryName ht] at hq
    cases hq
  obtain ⟨q', hq', -, hmode', hlist, hmut, hre⟩ := exists_param_of_infer ht hf hx
  obtain rfl : q' = q := Option.some.inj (hq'.symm.trans hq)
  obtain ⟨hty, hkept⟩ := q'.modeFor_eq_constRef_iff.1 (hmode'.symm.trans hmode)
  -- What is stored into is a list, and lists that go by constant reference are not stored into.
  have hstores : ¬Reaches p.routines StoresInto (f, i) := by
    intro hreach
    have hislist := hlist (hreach.mono fun _ _ => StoresInto.usesAsSequence)
    have hmutated := hmut.2 hreach
    rcases hty with ⟨-, hunmut⟩ | hstr
    · rw [hmutated] at hunmut
      cases hunmut
    · rw [hislist] at hstr
      cases hstr
  refine ⟨fun h => ?_, fun h => hstores (.direct hx h), fun callee j r hpass hr hmutRef => ?_⟩
  · rw [hre.2 h] at hkept
    cases hkept
  · obtain ⟨g, hg, rfl, hforwards⟩ := Lists.forwards (names_of_infer ht) hx hpass hr
    obtain ⟨r', hr', -, hmode', -, hmut', -⟩ :=
      exists_param_of_infer ht hg (List.getElem?_eq_getElem hforwards.2.1)
    obtain rfl : r' = r := Option.some.inj (hr'.symm.trans hr)
    obtain ⟨-, hmutated, -⟩ := r'.modeFor_eq_mutRef_iff.1 (hmode'.symm.trans hmutRef)
    exact hstores (.forwarded hforwards (hmut'.1 hmutated))

/-- A list that is measured, beside one that is stored into. -/
def readingBeside : String :=
  "def put(a):\n a[0]=1\ndef size(a,b):\n put(b)\n return len(a)\nsize([1],[2])\n"

theorem constRef_never_written_readingBeside :
    ∃ p t, readSource readingBeside = .ok p ∧ p.infer = .ok t ∧
      (t.paramsOf "size").map (·.mode) = [.constRef, .mutRef] ∧
      ∀ f ∈ p.functions, ∀ (i : Nat) (x : String) (q : Param), f.params[i]? = some x →
        (t.paramsOf f.name)[i]? = some q → q.mode = .constRef →
          ¬Reassigns f.body x ∧ ¬StoresInto f.body x ∧
            ∀ callee j r, Passes f.body x callee j → (t.paramsOf callee)[j]? = some r →
              r.mode ≠ .mutRef := by
  have hok : (compile readingBeside).toBool = true := by decide +kernel
  have hmodes : ((readSource readingBeside).toOption.bind (·.infer.toOption)).map
      (fun t => (t.paramsOf "size").map (·.mode)) = some [.constRef, .mutRef] := by decide +kernel
  obtain ⟨text, h⟩ := exists_of_toBool hok
  obtain ⟨p, t, hp, ht, hwritten⟩ := constRef_never_written h
  rw [hp, Except.toOption, Option.bind_some, ht] at hmodes
  exact ⟨p, t, hp, ht, Option.some.inj hmodes, hwritten⟩

end Braces
