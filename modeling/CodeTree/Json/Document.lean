/-
Documents: the data that files and responses are written in, and their two written
forms. The compact form has no spaces; the indented form puts every element and
every member on a line of its own. Members stand in the order in which they were
written.
-/

import CodeTree.Data.Assoc
import CodeTree.Number.Decimal

namespace CodeTree

/-- A number of a document: a whole number, or a double. -/
inductive Numeral where
  | whole (n : Int)
  | double (number : Double)
deriving DecidableEq, Inhabited

/-- A document. -/
inductive Document where
  | null
  | bool (truth : Bool)
  | number (numeral : Numeral)
  | text (characters : String)
  | array (items : List Document)
  | object (members : List (String × Document))
deriving Inhabited

namespace Numeral

/-! ### Text of numbers -/

/-- Numbers whose scientific exponent lies between these two are written without an exponent. -/
def leastPlain : Int := -5

@[inherit_doc leastPlain]
def greatestPlain : Int := 15

def zeros (count : Nat) : List Char := List.replicate count '0'

/-- A decimal without an exponent; a whole one ends in a point and a zero. -/
def plainText (decimal : Decimal) : List Char :=
  let digits := Nat.toDigits 10 decimal.digits
  let leading := decimal.scientificExponent
  if 0 ≤ decimal.exponent then digits ++ zeros decimal.exponent.toNat ++ ['.', '0']
  else if 0 ≤ leading then
    digits.take (leading.toNat + 1) ++ '.' :: digits.drop (leading.toNat + 1)
  else '0' :: '.' :: zeros (leading.natAbs - 1) ++ digits

/-- A decimal with an exponent, whose sign is always written. -/
def scientificText (decimal : Decimal) : List Char :=
  let leading := decimal.scientificExponent
  let mantissa := match Nat.toDigits 10 decimal.digits with
    | [] => []
    | [digit] => [digit]
    | digit :: rest => digit :: '.' :: rest
  mantissa ++ 'e' :: (if leading < 0 then '-' else '+') :: Nat.toDigits 10 leading.natAbs

/-- The text of a double: the fewest digits that read back as it. What is no finite number has no
text of its own and is written as an absent value. -/
def doubleText (number : Double) : String :=
  if !number.isFinite then "null"
  else
    let sign := if number.negative then ['-'] else []
    let magnitude :=
      if number.isZero then ['0', '.', '0']
      else
        let decimal := Decimal.shortest number
        let leading := decimal.scientificExponent
        if leastPlain ≤ leading && leading ≤ greatestPlain then plainText decimal
        else scientificText decimal
    String.ofList (sign ++ magnitude)

def text : Numeral → String
  | whole n => toString n
  | double number => doubleText number

/-- The double that a number of a document is read as. -/
def toDouble : Numeral → Double
  | whole n => .ofInt n
  | double number => number

end Numeral

namespace Document

/-! ### Text of strings -/

def hexDigit (n : Nat) : Char := (Nat.toDigits 16 n).headD '0'

/-- The escaped form of a character: quotes, backslashes and control characters are escaped, and
nothing else is. -/
def escape (c : Char) : List Char :=
  if c = '"' then ['\\', '"']
  else if c = '\\' then ['\\', '\\']
  else if c = '\n' then ['\\', 'n']
  else if c = '\r' then ['\\', 'r']
  else if c = '\t' then ['\\', 't']
  else if c = '\x08' then ['\\', 'b']
  else if c = '\x0c' then ['\\', 'f']
  else if c.toNat < 0x20 then
    ['\\', 'u', '0', '0', hexDigit (c.toNat / 16), hexDigit (c.toNat % 16)]
  else [c]

def quote (characters : String) : String :=
  String.ofList ('"' :: characters.toList.flatMap escape ++ ['"'])

/-! ### Compact form -/

mutual

/-- The compact form of a document. -/
def compact : Document → String
  | null => "null"
  | bool true => "true"
  | bool false => "false"
  | number numeral => numeral.text
  | text characters => quote characters
  | array items => "[" ++ ",".intercalate (compactItems items) ++ "]"
  | object members => "\x7b" ++ ",".intercalate (compactMembers members) ++ "\x7d"

def compactItems : List Document → List String
  | [] => []
  | item :: rest => compact item :: compactItems rest

def compactMembers : List (String × Document) → List String
  | [] => []
  | (key, value) :: rest => (quote key ++ ":" ++ compact value) :: compactMembers rest

end

/-! ### Indented form -/

/-- A bracketed block with one part a line, or the bare brackets when there are no parts. -/
def block (opening closing : String) (depth : Nat) (parts : List String) : String :=
  match parts with
  | [] => opening ++ closing
  | parts =>
    let margin := String.ofList (List.replicate (2 * (depth + 1)) ' ')
    let lines := parts.map (fun part => "\n" ++ margin ++ part)
    let closingMargin := String.ofList (List.replicate (2 * depth) ' ')
    opening ++ ",".intercalate lines ++ "\n" ++ closingMargin ++ closing

mutual

/-- The indented form of a document that stands at a nesting depth. -/
def indented (depth : Nat) : Document → String
  | array items => block "[" "]" depth (indentedItems (depth + 1) items)
  | object members => block "\x7b" "\x7d" depth (indentedMembers (depth + 1) members)
  | null => "null"
  | bool true => "true"
  | bool false => "false"
  | number numeral => numeral.text
  | text characters => quote characters

def indentedItems (depth : Nat) : List Document → List String
  | [] => []
  | item :: rest => indented depth item :: indentedItems depth rest

def indentedMembers (depth : Nat) : List (String × Document) → List String
  | [] => []
  | (key, value) :: rest =>
    (quote key ++ ": " ++ indented depth value) :: indentedMembers depth rest

end

/-! ### Access -/

/-- The member under a key, of an object. -/
def member? (key : String) : Document → Option Document
  | object members => Entries.lookup key members
  | _ => none

end Document

end CodeTree
