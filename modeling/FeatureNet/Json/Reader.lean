import FeatureNet.Json.Doc

namespace FeatureNet

namespace Json

def isBlank (c : Char) : Bool := c = ' ' || c = '\t' || c = '\n' || c = '\r'

def skipBlanks (cs : List Char) : List Char := cs.dropWhile isBlank

def hexDigit? (c : Char) : Option Nat :=
  if '0' ≤ c ∧ c ≤ '9' then some (c.toNat - '0'.toNat)
  else if 'a' ≤ c ∧ c ≤ 'f' then some (c.toNat - 'a'.toNat + 10)
  else if 'A' ≤ c ∧ c ≤ 'F' then some (c.toNat - 'A'.toNat + 10)
  else none

def hexUnit? (a b c d : Char) : Option Nat := do
  return (((← hexDigit? a) * 16 + (← hexDigit? b)) * 16 + (← hexDigit? c)) * 16 + (← hexDigit? d)

/-- The character that a one-letter escape stands for. -/
def shortEscape? (c : Char) : Option Char :=
  match c with
  | '"' => some '"'
  | '\\' => some '\\'
  | '/' => some '/'
  | 'b' => some '\x08'
  | 'f' => some '\x0c'
  | 'n' => some '\n'
  | 'r' => some '\r'
  | 't' => some '\t'
  | _ => none

/-- A string after its opening quote, and what follows its closing one. -/
def readQuoted : List Char → Option (Quoted × List Char)
  | [] => none
  | '"' :: rest => some ([], rest)
  | '\\' :: 'u' :: a :: b :: c :: d :: rest => do
    let code ← hexUnit? a b c d
    let (q, rest) ← readQuoted rest
    return (.unit code :: q, rest)
  | '\\' :: e :: rest => do
    let c ← shortEscape? e
    let (q, rest) ← readQuoted rest
    return (.plain c :: q, rest)
  | c :: rest =>
    if c < ' ' then none
    else do
      let (q, rest) ← readQuoted rest
      return (.plain c :: q, rest)

/-- One digit or more. -/
def readDigits (cs : List Char) : Option (List Char × List Char) :=
  let digits := cs.takeWhile Char.isDigit
  if digits.isEmpty then none else some (digits, cs.dropWhile Char.isDigit)

/-- The digits before the point: a zero, or digits that do not begin with one. -/
def readWhole : List Char → Option (List Char × List Char)
  | '0' :: rest => some (['0'], rest)
  | cs => readDigits cs

def readFraction : List Char → Option (Option (List Char) × List Char)
  | '.' :: rest => (readDigits rest).map fun (digits, rest) => (some digits, rest)
  | rest => some (none, rest)

def readSign : List Char → Bool × List Char
  | '-' :: rest => (true, rest)
  | '+' :: rest => (false, rest)
  | rest => (false, rest)

def readExponent : List Char → Option (Option (Bool × List Char) × List Char)
  | c :: rest =>
    if c = 'e' ∨ c = 'E' then
      let (negative, rest) := readSign rest
      (readDigits rest).map fun (digits, rest) => (some (negative, digits), rest)
    else some (none, c :: rest)
  | [] => some (none, [])

def readUnsigned (negative : Bool) (cs : List Char) : Option (Literal × List Char) := do
  let (whole, rest) ← readWhole cs
  let (fraction, rest) ← readFraction rest
  let (exponent, rest) ← readExponent rest
  return ({ negative, whole, fraction, exponent }, rest)

def readLiteral : List Char → Option (Literal × List Char)
  | '-' :: rest => readUnsigned true rest
  | cs => readUnsigned false cs

mutual

/-- A value, blanks before it skipped, and the text after it. Every call leaves one less for the calls
inside it. -/
def readValue (calls : Nat) (cs : List Char) : Option (Doc × List Char) :=
  match calls with
  | 0 => none
  | calls + 1 =>
    match skipBlanks cs with
    | 'n' :: 'u' :: 'l' :: 'l' :: rest => some (.null, rest)
    | 't' :: 'r' :: 'u' :: 'e' :: rest => some (.bool true, rest)
    | 'f' :: 'a' :: 'l' :: 's' :: 'e' :: rest => some (.bool false, rest)
    | '"' :: rest => (readQuoted rest).map fun (q, rest) => (.text q, rest)
    | '[' :: rest =>
      match skipBlanks rest with
      | ']' :: rest => some (.array [], rest)
      | rest => (readItems calls rest).map fun (items, rest) => (.array items, rest)
    | '{' :: rest =>
      match skipBlanks rest with
      | '}' :: rest => some (.object [], rest)
      | rest => (readMembers calls rest).map fun (members, rest) => (.object members, rest)
    | rest => (readLiteral rest).map fun (n, rest) => (.number n, rest)

/-- The items of an array from the first on, up to and with the closing bracket. -/
def readItems (calls : Nat) (cs : List Char) : Option (List Doc × List Char) :=
  match calls with
  | 0 => none
  | calls + 1 => do
    let (item, rest) ← readValue calls cs
    match skipBlanks rest with
    | ',' :: rest =>
      let (items, rest) ← readItems calls rest
      return (item :: items, rest)
    | ']' :: rest => return ([item], rest)
    | _ => none

/-- The members of an object from the first on, up to and with the closing brace. -/
def readMembers (calls : Nat) (cs : List Char) : Option (List (Quoted × Doc) × List Char) :=
  match calls with
  | 0 => none
  | calls + 1 =>
    match skipBlanks cs with
    | '"' :: rest => do
      let (key, rest) ← readQuoted rest
      match skipBlanks rest with
      | ':' :: rest =>
        let (item, rest) ← readValue calls rest
        match skipBlanks rest with
        | ',' :: rest =>
          let (members, rest) ← readMembers calls rest
          return ((key, item) :: members, rest)
        | '}' :: rest => return ([(key, item)], rest)
        | _ => none
      | _ => none
    | _ => none

end

/-- Reads a whole text. Two calls a character are enough, since a value and a list of values together
take a character. -/
def Doc.ofChars? (cs : List Char) : Option Doc := do
  let (doc, rest) ← readValue (2 * cs.length + 2) cs
  if (skipBlanks rest).isEmpty then some doc else none

/-- Reads a text by the strict grammar: four blank characters, no leading zeros, no raw control characters
in strings, nothing after the value. -/
def Doc.read? (text : String) : Option Doc := Doc.ofChars? text.toList

end Json

end FeatureNet
