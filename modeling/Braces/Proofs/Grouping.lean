import Braces.Proofs.Grouping.Emission
import Braces.Proofs.Reading.Stmts

/-!
# Grouping is kept

The text that is emitted for an expression of a source is read, by the grammar of the target, as the
tree that the expression means, and as no other.
-/

namespace Braces

/-- The text of an emitted expression is read as the tree that the expression means, and as no
other. -/
theorem text_reads_intended {source : String} {p : Program} {e : Expr} {f : Frame} {c : Cpp.Expr}
    (hp : readSource source = .ok p) (he : e ∈ p.parts)
    (hfinite : ∀ x, .float x ∈ e.parts → x.isFinite = true) (hc : f.expr e = .ok c)
    (tree : Cpp.Tree) : Cpp.Derives 1 (Cpp.lex c.text.toList) tree ↔ tree = f.intended e := by
  have hprintable : Printable e.parts :=
    ⟨fun e' he' => isWritten_of_readSource hp (blockParts_trans he he'), hfinite⟩
  have hemits := Frame.emits_of_expr hc
  have hreads := hemits.reads.whole
  rw [(hemits.lexical hprintable).lex_text]
  constructor
  · intro htree
    exact htree.unique hreads
  · rintro rfl
    exact hreads

/-- Comparisons within a comparison, a difference on the right of another, and two signs in a
row. -/
def nestedSigns : String := "(a < b) == (a - (b - -1) < 2)\n"

/-- Two integers. -/
def nestedSignsFrame : Frame :=
  ⟨⟨[], .ofList [(entryName, .ofList [("a", ⟨.int, false⟩), ("b", ⟨.int, false⟩)])]⟩, entryName⟩

/-- The expression of that source. -/
def nestedSignsExpr : Expr :=
  .binary .equal (.binary .lessThan (.var "a") (.var "b"))
    (.binary .lessThan (.binary .sub (.var "a") (.binary .sub (.var "b") (.unary .neg (.int 1))))
      (.int 2))

/-- Whether a program is that expression alone. -/
def isNestedSigns : Program → Bool
  | [.eval (.binary .equal (.binary .lessThan (.var a) (.var b))
      (.binary .lessThan (.binary .sub (.var a') (.binary .sub (.var b') (.unary .neg (.int m))))
        (.int n)))] => a = "a" ∧ b = "b" ∧ a' = "a" ∧ b' = "b" ∧ m = 1 ∧ n = 2
  | _ => false

theorem eq_of_isNestedSigns {p : Program} (h : isNestedSigns p = true) :
    p = [.eval nestedSignsExpr] := by
  unfold isNestedSigns at h
  split at h
  · obtain ⟨rfl, rfl, rfl, rfl, rfl, rfl⟩ := of_decide_eq_true h
    rfl
  · cases h

theorem text_reads_intended_nestedSigns :
    ∃ c, readSource nestedSigns = .ok [.eval nestedSignsExpr] ∧
      nestedSignsFrame.expr nestedSignsExpr = .ok c ∧
      c.text = "(a < b) == (a - (b - -1) < 2)" ∧
      ∀ tree, Cpp.Derives 1 (Cpp.lex "(a < b) == (a - (b - -1) < 2)".toList) tree ↔
        tree = .binary "==" (.binary "<" (.atom (.word "a")) (.atom (.word "b")))
          (.binary "<"
            (.binary "-" (.atom (.word "a"))
              (.binary "-" (.atom (.word "b")) (.prefixed "-" (.atom (.number "1")))))
            (.atom (.number "2"))) := by
  have hread : readSource nestedSigns = .ok [.eval nestedSignsExpr] := by
    have hshape : (readSource nestedSigns).toOption.map isNestedSigns = some true := by
      decide +kernel
    obtain ⟨p, hp, hsigns⟩ := exists_of_toOption_map hshape
    rw [hp, eq_of_isNestedSigns hsigns]
  have hemit : ((nestedSignsFrame.expr nestedSignsExpr).map Cpp.Expr.text).toOption =
      some "(a < b) == (a - (b - -1) < 2)" := by decide +kernel
  cases hc : nestedSignsFrame.expr nestedSignsExpr with
  | error e => rw [hc] at hemit; cases hemit
  | ok c =>
    rw [hc] at hemit
    have htext : c.text = "(a < b) == (a - (b - -1) < 2)" := Option.some.inj hemit
    refine ⟨c, hread, rfl, htext, fun tree => ?_⟩
    have hfinite : ∀ x, .float x ∈ nestedSignsExpr.parts → x.isFinite = true := by
      simp [nestedSignsExpr, Expr.parts]
    have hmem : nestedSignsExpr ∈ Program.parts [.eval nestedSignsExpr] := by
      simp [Program.parts, blockParts, Stmt.parts, Expr.mem_parts_self]
    have hreads := text_reads_intended hread hmem hfinite hc tree
    have ha : Cpp.spell "a" = "a" := by decide +kernel
    have hb : Cpp.spell "b" = "b" := by decide +kernel
    have hone : Cpp.intLiteral 1 = "1" := by decide +kernel
    have htwo : Cpp.intLiteral 2 = "2" := by decide +kernel
    simpa only [htext, nestedSignsExpr, Frame.intended, Frame.operated, Frame.valued,
      BinOp.cppSymbol, UnOp.cppSymbol, ha, hb, hone, htwo] using hreads

end Braces
