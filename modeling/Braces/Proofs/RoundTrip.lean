import Braces.Compile
import Braces.Proofs.Printing.Stmts

/-!
# Programs are read back from their text

Every program that text can spell is what reading its text gives, whatever choices the text makes.
In particular an `else` block that is all one condition is the same program as an `elif`.
-/

namespace Braces

theorem kinds_beforeEnd {ts : List Token} {ks : List Kind} (h : kinds ts = ks ++ [.eof])
    (hks : .eof ∉ ks) : kinds (beforeEnd ts) = ks := by
  obtain ⟨us, ending, rfl, rfl, hending⟩ := List.map_eq_append_iff.mp h
  obtain ⟨t, rfl, ht⟩ := List.map_eq_singleton_iff.mp hending
  have hus : ∀ u ∈ us, decide (u.kind ≠ .eof) = true := by
    intro u hu
    refine decide_eq_true fun heof => ?_
    exact hks (heof ▸ List.mem_map_of_mem hu)
  rw [beforeEnd, List.takeWhile_append_of_pos hus, List.takeWhile_cons, if_neg (by simp [ht]),
    List.append_nil, kinds]

/-- Reading the text of a program, in any style, gives the program. -/
theorem readSource_text (style : Style) (p : Program) (h : p.isSource = true) :
    readSource (p.text style) = .ok p := by
  obtain ⟨ts, hscan, hkinds, heof⟩ := scan_text style h
  have hparse : parse ts = .ok p := readProgram_tokenKinds h (kinds_beforeEnd hkinds heof)
  rw [readSource, hscan]
  exact congrArg (Except.mapError CompileError.parse) hparse

/-- A function with a loop over a chain of conditions, and a statement after it. -/
def clampProgram : Program :=
  [.funcDef "clamp" ["xs", "top"]
    [.forLoop "i" (.range (.int 0) (some (.len (.var "xs"))) (some (.int 2)))
      [.ifElse (.binary .greaterThan (.index (.var "xs") (.var "i")) (.var "top"))
        [.assignAt (.var "xs") (.var "i")
          (.binary .sub (.var "top") (.binary .sub (.int 9) (.int 8)))]
        (some [.ifElse (.unary .not (.bool true)) [.continue_]
          (some [.whileLoop (.unary .neg (.unary .neg (.var "top"))) [.break_]])])],
     .ret (some (.str "it's"))],
   .print [.call "clamp" [.list [.int 5, .int 12], .int 10]]]

/-- No parentheses and no single quotes but where they are needed. -/
def Style.plain (chained : Bool) : Style := ⟨fun _ => false, fun _ => false, fun _ => chained⟩

/-- Three blocks end at once, and the chain of conditions is read back from either form. -/
theorem readSource_text_clamp :
    clampProgram.isSource = true ∧
    clampProgram.text (.plain true) =
"def clamp(xs, top):
    for i in range(0, len(xs), 2):
        if xs[i] > top:
            xs[i] = top - (9 - 8)
        elif not True:
            continue
        else:
            while -(-top):
                break
    return \"it's\"
print(clamp([5, 12], 10))
" ∧
    readSource (clampProgram.text (.plain true)) = .ok clampProgram ∧
    readSource (clampProgram.text (.plain false)) = .ok clampProgram :=
  ⟨rfl, by decide +kernel, readSource_text _ _ rfl, readSource_text _ _ rfl⟩

end Braces
