import Braces.Text.Alphabetic

/-!
# White space

The characters with the property White_Space of the Unicode character database, as ranges of code
points in increasing order.
-/

namespace Braces.Text

def spaces : List (Nat × Nat) :=
  [
    (0x9, 0xd), (0x20, 0x20), (0x85, 0x85), (0xa0, 0xa0), (0x1680, 0x1680), (0x2000, 0x200a),
    (0x2028, 0x2029), (0x202f, 0x202f), (0x205f, 0x205f), (0x3000, 0x3000)
  ]

def isSpace (c : Char) : Bool := inRanges spaces c.toNat

/-- Text without the white space at its end. -/
def trimEnd (s : String) : String := String.ofList (s.toList.reverse.dropWhile isSpace).reverse

end Braces.Text
