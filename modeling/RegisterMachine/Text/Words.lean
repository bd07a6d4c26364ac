/-!
# Lines and words

A text is cut into lines at line feeds and a line into words at blanks. A carriage return is a
blank, so a text with two-character line ends has the same words as one with line feeds alone.
A semicolon opens a comment that reaches to the end of its line.
-/

namespace RegisterMachine.Text

/-- The characters with the Unicode property `White_Space`. -/
def isBlank (c : Char) : Bool :=
  (9 ≤ c.toNat && c.toNat ≤ 13) || (0x2000 ≤ c.toNat && c.toNat ≤ 0x200A) ||
    [0x20, 0x85, 0xA0, 0x1680, 0x2028, 0x2029, 0x202F, 0x205F, 0x3000].contains c.toNat

/-- The lines of a text; a text without a line feed is one line. -/
def lines (text : List Char) : List (List Char) :=
  text.splitOn '\n'

def withoutComment (line : List Char) : List Char :=
  line.takeWhile (· != ';')

/-- The maximal runs of characters that are not blank. -/
def words (line : List Char) : List (List Char) :=
  (line.splitOnP isBlank).filter (!·.isEmpty)

def lowered (text : List Char) : List Char :=
  text.map Char.toLower

end RegisterMachine.Text
