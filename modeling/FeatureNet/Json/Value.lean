import FeatureNet.Decimal.Layout

namespace FeatureNet

namespace Json

/-- A JSON value. Objects keep the order of their members. -/
inductive Value
  | null
  | bool (b : Bool)
  | int (n : Int)
  | float (x : Binary64)
  | text (s : String)
  | array (items : List Value)
  | object (members : List (String × Value))

/-- Numbers have the fewest digits that read back, a point below 10^16 and from 10^-5 on, and an exponent
elsewhere. -/
def numberLayout : Decimal.Layout where
  tie := .toEven
  positional place := -5 ≤ place && place < 16
  fraction := true

/-- There is no text for an infinity or a not-a-number; null stands for it. -/
def floatText (x : Binary64) : List Char :=
  if x.isFinite then numberLayout.text x else ['n', 'u', 'l', 'l']

/-- A character of a string: quote, backslash and control characters are escaped, all others stand as
they are. -/
def escape (c : Char) : List Char :=
  match c with
  | '"' => ['\\', '"']
  | '\\' => ['\\', '\\']
  | '\x08' => ['\\', 'b']
  | '\x0c' => ['\\', 'f']
  | '\n' => ['\\', 'n']
  | '\r' => ['\\', 'r']
  | '\t' => ['\\', 't']
  | c =>
    if c < ' ' then
      ['\\', 'u', '0', '0', Nat.digitChar (c.toNat / 16), Nat.digitChar (c.toNat % 16)]
    else [c]

def quote (s : String) : List Char := '"' :: s.toList.flatMap escape ++ ['"']

def atomText : Value → List Char
  | .null => ['n', 'u', 'l', 'l']
  | .bool true => ['t', 'r', 'u', 'e']
  | .bool false => ['f', 'a', 'l', 's', 'e']
  | .int n => Decimal.integerText n
  | .float x => floatText x
  | .text s => quote s
  | .array _ | .object _ => []

mutual

/-- The form without blanks. -/
def Value.compact : Value → List Char
  | .array [] => ['[', ']']
  | .array (first :: items) => '[' :: first.compact ++ compactItems items ++ [']']
  | .object [] => ['{', '}']
  | .object ((key, first) :: members) =>
    '{' :: quote key ++ ':' :: first.compact ++ compactMembers members ++ ['}']
  | atom => atomText atom

def compactItems : List Value → List Char
  | [] => []
  | item :: items => ',' :: item.compact ++ compactItems items

def compactMembers : List (String × Value) → List Char
  | [] => []
  | (key, item) :: members => ',' :: quote key ++ ':' :: item.compact ++ compactMembers members

end

def newLine (depth : Nat) : List Char := '\n' :: List.replicate (2 * depth) ' '

mutual

/-- The form with one item or member a line, two blanks deeper than what holds it. -/
def Value.pretty (depth : Nat) : Value → List Char
  | .array [] => ['[', ']']
  | .array (first :: items) =>
    '[' :: newLine (depth + 1) ++ first.pretty (depth + 1) ++ prettyItems (depth + 1) items ++
      newLine depth ++ [']']
  | .object [] => ['{', '}']
  | .object ((key, first) :: members) =>
    '{' :: newLine (depth + 1) ++ quote key ++ ':' :: ' ' :: first.pretty (depth + 1) ++
      prettyMembers (depth + 1) members ++ newLine depth ++ ['}']
  | atom => atomText atom

def prettyItems (depth : Nat) : List Value → List Char
  | [] => []
  | item :: items => ',' :: newLine depth ++ item.pretty depth ++ prettyItems depth items

def prettyMembers (depth : Nat) : List (String × Value) → List Char
  | [] => []
  | (key, item) :: members =>
    ',' :: newLine depth ++ quote key ++ ':' :: ' ' :: item.pretty depth ++
      prettyMembers depth members

end

def Value.compactText (v : Value) : String := String.ofList v.compact

def Value.prettyText (v : Value) : String := String.ofList (v.pretty 0)

end Json

end FeatureNet
