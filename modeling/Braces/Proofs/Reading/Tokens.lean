import Braces.Proofs.Grouping.Written
import Braces.Proofs.Partition

/-!
# The tokens of a text

Tokens that are scanned from text carry values with a written form. Each spelling is one, and tokens
of layout carry no value.
-/

namespace Braces

/-- Whether the value of a kind has a written form. -/
def Kind.isWritten : Kind → Bool
  | .int n => 0 ≤ n
  | .float x => x.isWritten
  | .str s => Cpp.isClosed s.toList
  | .ident name => Cpp.isName name
  | _ => true

theorem isWritten_ofRatio (num den : Nat) : (Double.ofRatio false num den).isWritten = true := by
  unfold Double.ofRatio
  split
  · rfl
  · dsimp only
    split <;> split <;> rfl

/-- Text that can stand between two quotes of one kind is closed. -/
theorem isClosed_of_isQuotable {quote : Char} {cs : List Char} (h : isQuotable quote cs = true) :
    Cpp.isClosed cs = true := by
  fun_induction isQuotable quote cs with
  | case1 => rfl
  | case2 | case3 => cases h
  | case4 d r hc ih =>
    unfold Cpp.isClosed
    simp_all
  | case5 c r hc hslash ih =>
    unfold Cpp.isClosed
    simp_all

theorem Kind.SpelledAs.isWritten {k : Kind} {text : List Char} (h : k.SpelledAs text) :
    k.isWritten = true := by
  cases h with
  | fixed hk => cases k <;> first | rfl | cases hk
  | bool => rfl
  | ident hname => exact (Bool.and_eq_true_iff.mp hname).1
  | int => simp [Kind.isWritten]
  | float => exact isWritten_ofRatio _ _
  | str _ hs => exact isClosed_of_isQuotable hs

theorem isWritten_of_isLayout {k : Kind} (h : k.isLayout = true) : k.isWritten = true := by
  cases k <;> first | rfl | cases h

theorem isWritten_of_scan {source : String} {ts : List Token} (h : scan source = .ok ts) :
    ∀ t ∈ ts, t.kind.isWritten = true := by
  intro t ht
  obtain hlayout | ⟨text, hspelled⟩ := spelledAs_of_scan h t ht
  · exact isWritten_of_isLayout hlayout
  · exact hspelled.isWritten

end Braces
