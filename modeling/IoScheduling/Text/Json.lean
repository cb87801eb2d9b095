import IoScheduling.Text.Numeral

/-!
# JSON

JSON texts after RFC 8259, strictly: no byte order mark, no comments, no trailing commas. Numbers
are kept as they are written, and objects keep all their members in order, so that the reader of a
value decides what a number or a repeated name means.
-/
namespace IoScheduling.Text

inductive Json where
  | null
  | bool (value : Bool)
  | number (value : Numeral)
  /-- A string literal whose escapes name half of a surrogate pair is well formed, but stands for
  no text. -/
  | string (text : Option String)
  | array (items : List Json)
  | object (members : List (Option String × Json))
  deriving Repr

namespace Json

def isSpace (c : Char) : Bool := c = ' ' || c = '\t' || c = '\n' || c = '\r'

def skipSpace (cs : List Char) : List Char := cs.dropWhile isSpace

def digitValue (c : Char) : Nat := c.toNat - '0'.toNat

def digits (cs : List Char) : List Nat × List Char :=
  ((cs.takeWhile Char.isDigit).map digitValue, cs.dropWhile Char.isDigit)

def someDigits (cs : List Char) : Option (List Nat × List Char) :=
  match digits cs with
  | ([], _) => none
  | r => some r

def readWhole (cs : List Char) : Option (List Nat × List Char) :=
  match someDigits cs with
  | some (0 :: _ :: _, _) => none
  | r => r

def readFraction (cs : List Char) : Option (Option (List Nat) × List Char) :=
  match cs with
  | '.' :: rest => (someDigits rest).map fun (ds, rest) => (some ds, rest)
  | _ => some (none, cs)

def readExponent (cs : List Char) : Option (Option (Bool × List Nat) × List Char) :=
  let signed (negative : Bool) (rest : List Char) :=
    (someDigits rest).map fun (ds, rest) => (some (negative, ds), rest)
  match cs with
  | c :: rest =>
    if c = 'e' ∨ c = 'E' then
      match rest with
      | '-' :: rest => signed true rest
      | '+' :: rest => signed false rest
      | _ => signed false rest
    else some (none, cs)
  | [] => some (none, cs)

def readNumeral (cs : List Char) : Option (Numeral × List Char) := do
  let (negative, cs) := match cs with
    | '-' :: rest => (true, rest)
    | _ => (false, cs)
  let (whole, cs) ← readWhole cs
  let (fraction, cs) ← readFraction cs
  let (exponent, cs) ← readExponent cs
  return (⟨negative, whole, fraction, exponent⟩, cs)

def hexValue (c : Char) : Option Nat :=
  if c.isDigit then some (digitValue c)
  else if 'a' ≤ c ∧ c ≤ 'f' then some (c.toNat - 'a'.toNat + 10)
  else if 'A' ≤ c ∧ c ≤ 'F' then some (c.toNat - 'A'.toNat + 10)
  else none

def readUnit (cs : List Char) : Option (Nat × List Char) :=
  match cs with
  | a :: b :: c :: d :: rest => do
    let ds ← [a, b, c, d].mapM hexValue
    return (ds.foldl (fun n d => n * 16 + d) 0, rest)
  | _ => none

def readEscape (cs : List Char) : Option (Nat × List Char) :=
  match cs with
  | '"' :: rest => some (0x22, rest)
  | '\\' :: rest => some (0x5c, rest)
  | '/' :: rest => some (0x2f, rest)
  | 'b' :: rest => some (0x08, rest)
  | 'f' :: rest => some (0x0c, rest)
  | 'n' :: rest => some (0x0a, rest)
  | 'r' :: rest => some (0x0d, rest)
  | 't' :: rest => some (0x09, rest)
  | 'u' :: rest => readUnit rest
  | _ => none

inductive Piece where
  | plain (c : Char)
  | escaped (unit : Nat)
  deriving DecidableEq, Repr

def readPieces : Nat → List Char → Option (List Piece × List Char)
  | 0, _ => none
  | fuel + 1, cs =>
    match cs with
    | [] => none
    | '"' :: rest => some ([], rest)
    | '\\' :: rest => do
      let (unit, rest) ← readEscape rest
      let (pieces, rest) ← readPieces fuel rest
      return (.escaped unit :: pieces, rest)
    | c :: rest =>
      if c.toNat < 0x20 then none
      else do
        let (pieces, rest) ← readPieces fuel rest
        return (.plain c :: pieces, rest)

/-- The characters that the pieces stand for: two escapes that form a surrogate pair make one, and
half of a pair makes none. -/
def charsOfPieces : List Piece → Option (List Char)
  | [] => some []
  | .plain c :: rest => (charsOfPieces rest).map (c :: ·)
  | .escaped high :: rest =>
    if 0xd800 ≤ high ∧ high < 0xdc00 then
      match rest with
      | .escaped low :: rest =>
        if 0xdc00 ≤ low ∧ low < 0xe000 then
          (charsOfPieces rest).map
            (Char.ofNat (0x10000 + (high - 0xd800) * 0x400 + (low - 0xdc00)) :: ·)
        else none
      | _ => none
    else if 0xdc00 ≤ high ∧ high < 0xe000 then none
    else (charsOfPieces rest).map (Char.ofNat high :: ·)

def readText (cs : List Char) : Option (Option String × List Char) :=
  (readPieces (cs.length + 1) cs).map fun (pieces, rest) =>
    ((charsOfPieces pieces).map String.ofList, rest)

def readWord (word : List Char) (value : Json) (cs : List Char) : Option (Json × List Char) :=
  if word.isPrefixOf cs then some (value, cs.drop word.length) else none

mutual

def readValue : Nat → List Char → Option (Json × List Char)
  | 0, _ => none
  | fuel + 1, cs =>
    match skipSpace cs with
    | [] => none
    | '[' :: rest =>
      match skipSpace rest with
      | ']' :: rest => some (.array [], rest)
      | rest => (readItems fuel rest).map fun (items, rest) => (.array items, rest)
    | '\x7b' :: rest =>
      match skipSpace rest with
      | '\x7d' :: rest => some (.object [], rest)
      | rest => (readMembers fuel rest).map fun (members, rest) => (.object members, rest)
    | '"' :: rest => (readText rest).map fun (text, rest) => (.string text, rest)
    | 'n' :: rest => readWord "ull".toList .null rest
    | 't' :: rest => readWord "rue".toList (.bool true) rest
    | 'f' :: rest => readWord "alse".toList (.bool false) rest
    | cs => (readNumeral cs).map fun (n, rest) => (.number n, rest)

def readItems : Nat → List Char → Option (List Json × List Char)
  | 0, _ => none
  | fuel + 1, cs => do
    let (item, rest) ← readValue fuel cs
    match skipSpace rest with
    | ',' :: rest =>
      let (items, rest) ← readItems fuel rest
      return (item :: items, rest)
    | ']' :: rest => return ([item], rest)
    | _ => none

def readMembers : Nat → List Char → Option (List (Option String × Json) × List Char)
  | 0, _ => none
  | fuel + 1, cs =>
    match skipSpace cs with
    | '"' :: rest => do
      let (name, rest) ← readText rest
      match skipSpace rest with
      | ':' :: rest =>
        let (value, rest) ← readValue fuel rest
        match skipSpace rest with
        | ',' :: rest =>
          let (members, rest) ← readMembers fuel rest
          return ((name, value) :: members, rest)
        | '\x7d' :: rest => return ([(name, value)], rest)
        | _ => none
      | _ => none
    | _ => none

end

/-- The value that is written by the whole text, blanks around it apart. -/
def parse? (text : String) : Option Json :=
  let cs := text.toList
  match readValue (2 * cs.length + 1) cs with
  | some (value, rest) => if (skipSpace rest).isEmpty then some value else none
  | none => none

def ofNat (n : Nat) : Json := .number (.ofNat n)

def ofString (s : String) : Json := .string (some s)

def hexDigit (n : Nat) : Char := Nat.digitChar (n % 16)

def escapeChar (c : Char) : List Char :=
  match c with
  | '"' => ['\\', '"']
  | '\\' => ['\\', '\\']
  | '\x08' => ['\\', 'b']
  | '\x0c' => ['\\', 'f']
  | '\n' => ['\\', 'n']
  | '\r' => ['\\', 'r']
  | '\t' => ['\\', 't']
  | c =>
    if c.toNat < 0x20 then
      ['\\', 'u', '0', '0', hexDigit (c.toNat / 16), hexDigit c.toNat]
    else [c]

def writeText (text : Option String) : List Char :=
  match text with
  | some s => '"' :: (s.toList.flatMap escapeChar ++ ['"'])
  | none => "\"\\ud800\"".toList

def writeDigits (ds : List Nat) : List Char := ds.map Nat.digitChar

def writeNumeral (n : Numeral) : List Char :=
  (if n.negative then ['-'] else []) ++ writeDigits n.whole ++
    (match n.fraction with
      | some ds => '.' :: writeDigits ds
      | none => []) ++
    match n.exponent with
      | some (negative, ds) => 'e' :: (if negative then ['-'] else []) ++ writeDigits ds
      | none => []

def newline (depth : Nat) : List Char := '\n' :: List.replicate (2 * depth) ' '

mutual

def writePretty (depth : Nat) : Json → List Char
  | .null => "null".toList
  | .bool true => "true".toList
  | .bool false => "false".toList
  | .number n => writeNumeral n
  | .string text => writeText text
  | .array [] => ['[', ']']
  | .array (item :: items) =>
    '[' :: newline (depth + 1) ++ writePretty (depth + 1) item ++
      writeItems (depth + 1) items ++ newline depth ++ [']']
  | .object [] => ['\x7b', '\x7d']
  | .object ((name, value) :: members) =>
    '\x7b' :: newline (depth + 1) ++ writeText name ++ [':', ' '] ++
      writePretty (depth + 1) value ++ writeMembers (depth + 1) members ++
      newline depth ++ ['\x7d']

def writeItems (depth : Nat) : List Json → List Char
  | [] => []
  | item :: items => ',' :: newline depth ++ writePretty depth item ++ writeItems depth items

def writeMembers (depth : Nat) : List (Option String × Json) → List Char
  | [] => []
  | (name, value) :: members =>
    ',' :: newline depth ++ writeText name ++ [':', ' '] ++ writePretty depth value ++
      writeMembers depth members

end

def pretty (value : Json) : String := String.ofList (writePretty 0 value)

def field? (value : Json) (name : String) : Option Json :=
  match value with
  | .object members => (members.reverse.find? fun (n, _) => n == some name).map (·.2)
  | _ => none

end Json

end IoScheduling.Text
