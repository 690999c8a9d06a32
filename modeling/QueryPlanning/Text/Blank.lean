/-!
# Blanks

The characters that Unicode gives the property `White_Space`, and the text that is left when they
are taken off both ends. `Char.isWhitespace` knows six of the twenty-five; every one of those is a
blank here.
-/

namespace QueryPlanning.Text

/-- The first and last code point of each run of `White_Space` characters. -/
def blankRuns : List (Nat × Nat) :=
  [(0x09, 0x0D), (0x20, 0x20), (0x85, 0x85), (0xA0, 0xA0), (0x1680, 0x1680), (0x2000, 0x200A),
    (0x2028, 0x2029), (0x202F, 0x202F), (0x205F, 0x205F), (0x3000, 0x3000)]

def isBlank (c : Char) : Bool :=
  blankRuns.any fun run ↦ run.1 ≤ c.toNat && c.toNat ≤ run.2

/-- Takes the blanks off both ends. -/
def trimBlanks (cs : List Char) : List Char :=
  ((cs.dropWhile isBlank).reverse.dropWhile isBlank).reverse

/-- `trimBlanks` on a string. -/
def trim (s : String) : String :=
  String.ofList (trimBlanks s.toList)

/-- Lower-cases the ASCII letters and leaves all other characters. -/
def lowerAscii (s : String) : String :=
  String.ofList (s.toList.map Char.toLower)

/-- Equality up to the case of ASCII letters. -/
def sameName (a b : String) : Bool :=
  lowerAscii a == lowerAscii b

end QueryPlanning.Text
