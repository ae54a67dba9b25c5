/-!
# Lines of text

A carriage return, a line feed, or both in this order end a line. Every line end counts as a line
feed, and a line keeps it.
-/
namespace PocketLisp

def unifyLineEnds : List Char → List Char
  | [] => []
  | '\r' :: '\n' :: rest => '\n' :: unifyLineEnds rest
  | '\r' :: rest => '\n' :: unifyLineEnds rest
  | c :: rest => c :: unifyLineEnds rest

/-- Puts a character in front of lines. A line feed is a line of its own there. -/
def consLine (c : Char) : List (List Char) → List (List Char)
  | [] => [[c]]
  | line :: lines => if c = '\n' then [c] :: line :: lines else (c :: line) :: lines

/-- The lines of a text, each with the line feed that ends it. -/
def splitLines (text : List Char) : List (List Char) :=
  text.foldr consLine []

def fileLines (text : String) : List String :=
  (splitLines (unifyLineEnds text.toList)).map String.ofList

def dropLineFeed (line : List Char) : List Char :=
  line.filter (· ≠ '\n')

def inputLines (text : String) : List String :=
  (splitLines (unifyLineEnds text.toList)).map (fun line => String.ofList (dropLineFeed line))

def decodeLines? (bytes : ByteArray) : Option (List String) :=
  (String.fromUTF8? bytes).map fileLines

end PocketLisp
