namespace FeatureNet

namespace Json

/-- A number as written: digits before the point, after it, and those of a signed exponent. -/
structure Literal where
  negative : Bool
  whole : List Char
  fraction : Option (List Char)
  exponent : Option (Bool × List Char)
deriving DecidableEq

/-- A character of a string, or the 16-bit unit of an escape such as \u0041. -/
inductive Piece
  | plain (c : Char)
  | unit (code : Nat)
deriving DecidableEq

abbrev Quoted := List Piece

/-- A text as it is written, before anything is made of it: numbers keep their digits, strings their
escapes, and objects their repeated keys. -/
inductive Doc
  | null
  | bool (b : Bool)
  | number (n : Literal)
  | text (q : Quoted)
  | array (items : List Doc)
  | object (members : List (Quoted × Doc))

def isHighSurrogate (code : Nat) : Bool := 0xD800 ≤ code && code < 0xDC00

def isLowSurrogate (code : Nat) : Bool := 0xDC00 ≤ code && code < 0xE000

/-- The characters of a string. Two escaped surrogates, high then low, make one character; a surrogate
that stands alone makes none. -/
def Quoted.chars? : Quoted → Option (List Char)
  | [] => some []
  | .plain c :: rest => (chars? rest).map (c :: ·)
  | .unit high :: .unit low :: rest =>
    if isHighSurrogate high then
      if isLowSurrogate low then
        (chars? rest).map (Char.ofNat (0x10000 + (high - 0xD800) * 0x400 + (low - 0xDC00)) :: ·)
      else none
    else if isLowSurrogate high then none
    else (chars? (.unit low :: rest)).map (Char.ofNat high :: ·)
  | .unit code :: rest =>
    if isHighSurrogate code || isLowSurrogate code then none
    else (chars? rest).map (Char.ofNat code :: ·)

def Quoted.string? (q : Quoted) : Option String := q.chars?.map String.ofList

end Json

end FeatureNet
