/-!
# Blank characters

The reader skips four characters. A wider class of blanks decides which lines of a file are skipped
and whether text after a form is worth a note.
-/
namespace PocketLisp

/-- The blanks of the reader: tab, line feed, carriage return and space. -/
def isBlank (c : Char) : Bool :=
  c = '\t' || c = '\n' || c = '\r' || c = ' '

def isDelimiter (c : Char) : Bool :=
  c = '(' || c = ')' || c = '\'' || isBlank c

def skipBlanks (text : List Char) : List Char :=
  text.dropWhile isBlank

/-- White space in the wide sense: the separators and spaces of Unicode and the control characters
that are counted among them. -/
def isWideBlank (c : Char) : Bool :=
  let n := c.toNat
  (0x09 ≤ n && n ≤ 0x0D) || (0x1C ≤ n && n ≤ 0x20) || n = 0x85 || n = 0xA0 || n = 0x1680 ||
    (0x2000 ≤ n && n ≤ 0x200A) || n = 0x2028 || n = 0x2029 || n = 0x202F || n = 0x205F ||
    n = 0x3000

def isBlankText (text : String) : Bool :=
  text.toList.all isWideBlank

theorem isDelimiter_of_isBlank {c : Char} (h : isBlank c = true) : isDelimiter c = true := by
  simp [isDelimiter, h]

theorem length_skipBlanks_le (text : List Char) : (skipBlanks text).length ≤ text.length :=
  (List.dropWhile_sublist isBlank).length_le

end PocketLisp
