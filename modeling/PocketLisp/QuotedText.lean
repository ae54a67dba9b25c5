import PocketLisp.UnprintableCharacters

/-!
# Quoted text

A text in quotes, with escapes for the quote, the backslash and characters that cannot be shown.
Single quotes enclose the text unless it holds some and no double quotes.
-/
namespace PocketLisp

def hexDigit (n : Nat) : Char :=
  Char.ofNat (if n < 10 then '0'.toNat + n else 'a'.toNat + (n - 10))

/-- The last `width` hexadecimal digits of `n`, in front of `rest`. -/
def hexDigitsOnto : Nat → Nat → List Char → List Char
  | 0, _, rest => rest
  | width + 1, n, rest => hexDigitsOnto width (n / 16) (hexDigit (n % 16) :: rest)

/-- A character by its code point, with as many digits as its size needs. -/
def codePointEscape (c : Char) : List Char :=
  if c.toNat < 0x100 then '\\' :: 'x' :: hexDigitsOnto 2 c.toNat []
  else if c.toNat < 0x10000 then '\\' :: 'u' :: hexDigitsOnto 4 c.toNat []
  else '\\' :: 'U' :: hexDigitsOnto 8 c.toNat []

def quotedChar (quote c : Char) : List Char :=
  if c = quote || c = '\\' then ['\\', c]
  else if c = '\n' then ['\\', 'n']
  else if c = '\r' then ['\\', 'r']
  else if c = '\t' then ['\\', 't']
  else if isPrintable c then [c]
  else codePointEscape c

def quoteFor (text : List Char) : Char :=
  if text.contains '\'' && !text.contains '"' then '"' else '\''

def quotedText (text : String) : String :=
  let cs := text.toList
  let quote := quoteFor cs
  String.ofList (quote :: (cs.flatMap (quotedChar quote) ++ [quote]))

end PocketLisp
