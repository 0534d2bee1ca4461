/-
Reading documents from text. A reader works on the bytes of the text and gives back
what it read together with the bytes that follow. When it fails it says what is
wrong and which bytes it had not yet consumed, from which the line and the column
are counted.
-/

import CodeTree.Json.Document

namespace CodeTree

/-- What can be wrong with the text of a document. -/
inductive Flaw where
  | endInValue
  | endInObject
  | endInList
  | endInString
  | noValue
  | badWord
  | keyNotString
  | noColon
  | noListComma
  | noObjectComma
  | trailingComma
  | trailingCharacters
  | badNumber
  | numberOutOfRange
  | badEscape
  | loneSurrogate
  | unfinishedSurrogate
  | controlCharacter
  | tooDeep
deriving DecidableEq

def Flaw.message : Flaw → String
  | endInValue => "EOF while parsing a value"
  | endInObject => "EOF while parsing an object"
  | endInList => "EOF while parsing a list"
  | endInString => "EOF while parsing a string"
  | noValue => "expected value"
  | badWord => "expected ident"
  | keyNotString => "key must be a string"
  | noColon => "expected `:`"
  | noListComma => "expected `,` or `]`"
  | noObjectComma => "expected `,` or `\x7d`"
  | trailingComma => "trailing comma"
  | trailingCharacters => "trailing characters"
  | badNumber => "invalid number"
  | numberOutOfRange => "number out of range"
  | badEscape => "invalid escape"
  | loneSurrogate => "lone leading surrogate in hex escape"
  | unfinishedSurrogate => "unexpected end of hex escape"
  | controlCharacter => "control character (\\u0000-\\u001F) found while parsing a string"
  | tooDeep => "recursion limit exceeded"

/-- A flaw and where it stands: lines count from one, and the column is the number of bytes of the
line that had been consumed. -/
structure ReadError where
  flaw : Flaw
  line : Nat
  column : Nat
deriving DecidableEq

def ReadError.message (error : ReadError) : String :=
  s!"{error.flaw.message} at line {error.line} column {error.column}"

namespace Reader

abbrev Bytes := List UInt8

/-- A flaw together with the bytes that had not been consumed when it was found. -/
structure Stop where
  flaw : Flaw
  rest : Bytes

/-- A flaw at the next byte, which counts as consumed. -/
def atNext {α : Type} (flaw : Flaw) (bytes : Bytes) : Except Stop α := .error ⟨flaw, bytes.drop 1⟩

/-- A flaw before the next byte. -/
def before {α : Type} (flaw : Flaw) (bytes : Bytes) : Except Stop α := .error ⟨flaw, bytes⟩

def isBlank (b : UInt8) : Bool := b == 0x20 || b == 0x09 || b == 0x0a || b == 0x0d

def isDigit (b : UInt8) : Bool := 0x30 ≤ b && b ≤ 0x39

def isExponentMark (b : UInt8) : Bool := b == 'e'.toUInt8 || b == 'E'.toUInt8

def skipBlanks (bytes : Bytes) : Bytes := bytes.dropWhile isBlank

/-! ### Words -/

/-- Reads the rest of a word. -/
def word : Bytes → Bytes → Except Stop Bytes
  | [], rest => .ok rest
  | _ :: _, [] => before .endInValue []
  | expected :: more, found :: rest =>
    if found = expected then word more rest else before .badWord rest

/-! ### Numbers -/

/-- Significands are kept below this bound; digits that would exceed it only count as places. -/
def significandBound : Nat := Nat.pow 2 64

/-- Exponents from this bound on are not computed. -/
def exponentBound : Nat := Nat.pow 2 31

/-- Takes digits into the number as long as it stays below the bound, and counts them. -/
def takeDigits (bound : Nat) : Nat → Nat → Bytes → Nat × Nat × Bytes
  | value, count, [] => (value, count, [])
  | value, count, b :: rest =>
    let next := value * 10 + (b.toNat - 0x30)
    if isDigit b && next < bound then takeDigits bound next (count + 1) rest
    else (value, count, b :: rest)

/-- Finishes a number with a fraction or an exponent. -/
def finish (negative : Bool) (significand : Nat) (exponent : Int) (bytes : Bytes) :
    Except Stop (Numeral × Bytes) :=
  match Decimal.toDouble? significand exponent with
  | some number => .ok (.double { number with negative := negative }, bytes)
  | none => before .numberOutOfRange bytes

/-- Reads what follows the mark of an exponent. -/
def exponentPart (negative : Bool) (significand : Nat) (start : Int) (bytes : Bytes) :
    Except Stop (Numeral × Bytes) :=
  let minus := bytes.head? == some '-'.toUInt8
  let signed := minus || bytes.head? == some '+'.toUInt8
  let digits := if signed then bytes.drop 1 else bytes
  match digits with
  | [] => before .endInValue []
  | b :: rest =>
    if isDigit b then
      match takeDigits exponentBound 0 0 (b :: rest) with
      | (value, _, next :: rest) =>
        if isDigit next then
          if significand ≠ 0 && !minus then before .numberOutOfRange rest
          else .ok (.double (.zero negative), rest.dropWhile isDigit)
        else
          finish negative significand (if minus then start - value else start + value) (next :: rest)
      | (value, _, []) =>
        finish negative significand (if minus then start - value else start + value) []
    else before .badNumber rest

/-- Reads an exponent if there is one. -/
def exponentOrEnd (negative : Bool) (significand : Nat) (exponent : Int) :
    Bytes → Except Stop (Numeral × Bytes)
  | [] => finish negative significand exponent []
  | b :: rest =>
    if isExponentMark b then exponentPart negative significand exponent rest
    else finish negative significand exponent (b :: rest)

/-- Reads what follows the point. At least one digit is due. -/
def fractionPart (negative : Bool) (significand : Nat) (exponent : Int) (bytes : Bytes) :
    Except Stop (Numeral × Bytes) :=
  match bytes with
  | [] => before .endInValue []
  | b :: _ =>
    if isDigit b then
      match takeDigits significandBound significand 0 bytes with
      | (value, count, rest) =>
        exponentOrEnd negative value (exponent - count) (rest.dropWhile isDigit)
    else atNext .badNumber bytes

/-- A number without fraction and exponent. Beyond the range of 64-bit integers, and at minus
zero, it is a double. -/
def wholeNumber (negative : Bool) (significand : Nat) : Numeral :=
  if !negative then .whole significand
  else if significand = 0 || Nat.pow 2 63 < significand then
    .double { Double.ofRatio false significand 1 with negative := true }
  else .whole (-significand)

/-- Reads what follows the whole part, `extra` places of which were left out of the significand. -/
def afterWhole (negative : Bool) (significand extra : Nat) (bytes : Bytes) :
    Except Stop (Numeral × Bytes) :=
  match bytes with
  | [] =>
    if extra = 0 then .ok (wholeNumber negative significand, [])
    else finish negative significand extra []
  | b :: rest =>
    if b = '.'.toUInt8 then fractionPart negative significand extra rest
    else if isExponentMark b then exponentPart negative significand extra rest
    else if extra = 0 then .ok (wholeNumber negative significand, bytes)
    else finish negative significand extra bytes

/-- Reads a number after its sign. A leading zero is followed by no further digit. -/
def unsignedNumber (negative : Bool) (bytes : Bytes) : Except Stop (Numeral × Bytes) :=
  match bytes with
  | [] => before .endInValue []
  | b :: rest =>
    if b = '0'.toUInt8 then
      if (rest.head?.any isDigit) then atNext .badNumber rest else afterWhole negative 0 0 rest
    else if isDigit b then
      match takeDigits significandBound 0 0 bytes with
      | (value, _, rest) =>
        afterWhole negative value (rest.takeWhile isDigit).length (rest.dropWhile isDigit)
    else before .badNumber rest

/-! ### Strings -/

def hexValue? (b : UInt8) : Option Nat :=
  if isDigit b then some (b.toNat - 0x30)
  else if 'a'.toUInt8 ≤ b && b ≤ 'f'.toUInt8 then some (b.toNat - 87)
  else if 'A'.toUInt8 ≤ b && b ≤ 'F'.toUInt8 then some (b.toNat - 55)
  else none

/-- Reads the four digits of a code unit. -/
def codeUnit : Bytes → Except Stop (Nat × Bytes)
  | a :: b :: c :: d :: rest =>
    match hexValue? a, hexValue? b, hexValue? c, hexValue? d with
    | some a, some b, some c, some d => .ok (((a * 16 + b) * 16 + c) * 16 + d, rest)
    | _, _, _, _ => before .badEscape rest
  | _ => before .endInString []

/-- Expects one byte of the second half of a surrogate pair. -/
def pairByte (expected : UInt8) : Bytes → Except Stop Bytes
  | [] => before .endInString []
  | b :: rest => if b = expected then .ok rest else before .unfinishedSurrogate rest

/-- Reads a character by its code, which for characters beyond sixteen bits is a pair of
surrogates. -/
def codedCharacter (bytes : Bytes) : Except Stop (Char × Bytes) := do
  let (unit, rest) ← codeUnit bytes
  if 0xdc00 ≤ unit && unit ≤ 0xdfff then before .loneSurrogate rest
  else if unit < 0xd800 || 0xdbff < unit then .ok (Char.ofNat unit, rest)
  else
    let rest ← pairByte '\\'.toUInt8 rest
    let rest ← pairByte 'u'.toUInt8 rest
    let (second, rest) ← codeUnit rest
    if second < 0xdc00 || 0xdfff < second then before .loneSurrogate rest
    else .ok (Char.ofNat ((unit - 0xd800) * 0x400 + (second - 0xdc00) + 0x10000), rest)

/-- Reads what follows a backslash. -/
def escaped : Bytes → Except Stop (Char × Bytes)
  | [] => before .endInString []
  | b :: rest =>
    if b = '"'.toUInt8 then .ok ('"', rest)
    else if b = '\\'.toUInt8 then .ok ('\\', rest)
    else if b = '/'.toUInt8 then .ok ('/', rest)
    else if b = 'b'.toUInt8 then .ok ('\x08', rest)
    else if b = 'f'.toUInt8 then .ok ('\x0c', rest)
    else if b = 'n'.toUInt8 then .ok ('\n', rest)
    else if b = 'r'.toUInt8 then .ok ('\r', rest)
    else if b = 't'.toUInt8 then .ok ('\t', rest)
    else if b = 'u'.toUInt8 then codedCharacter rest
    else before .badEscape rest

/-- Reads the bytes of a string after its opening quote. Each turn consumes a byte, so that the
number of bytes bounds the number of turns. -/
def stringBytes : Nat → ByteArray → Bytes → Except Stop (ByteArray × Bytes)
  | 0, _, bytes => before .endInString bytes
  | _ + 1, _, [] => before .endInString []
  | turns + 1, taken, b :: rest =>
    if b = '"'.toUInt8 then .ok (taken, rest)
    else if b = '\\'.toUInt8 then do
      let (c, rest) ← escaped rest
      stringBytes turns (taken ++ c.toString.toUTF8) rest
    else if b < 0x20 then before .controlCharacter rest
    else stringBytes turns (taken.push b) rest

def string (bytes : Bytes) : Except Stop (String × Bytes) := do
  let (taken, rest) ← stringBytes (bytes.length + 1) ByteArray.empty bytes
  .ok ((String.fromUTF8? taken).getD "", rest)

/-! ### Values -/

/-- Brackets may nest to one less than this depth. -/
def depthLimit : Nat := 128

/-- Words, numbers and strings, by their first byte. -/
def scalar (b : UInt8) (bytes rest : Bytes) : Except Stop (Document × Bytes) :=
  if b = 'n'.toUInt8 then do .ok (.null, ← word "ull".toUTF8.toList rest)
  else if b = 't'.toUInt8 then do .ok (.bool true, ← word "rue".toUTF8.toList rest)
  else if b = 'f'.toUInt8 then do .ok (.bool false, ← word "alse".toUTF8.toList rest)
  else if b = '-'.toUInt8 then do
    let (numeral, rest) ← unsignedNumber true rest
    .ok (.number numeral, rest)
  else if isDigit b then do
    let (numeral, rest) ← unsignedNumber false bytes
    .ok (.number numeral, rest)
  else if b = '"'.toUInt8 then do
    let (characters, rest) ← string rest
    .ok (.text characters, rest)
  else atNext .noValue bytes

/-- Decides whether another element stands in a list, and skips the comma before it. -/
def nextElement (first : Bool) (bytes : Bytes) : Except Stop (Option Bytes × Bytes) :=
  match skipBlanks bytes with
  | [] => before .endInList []
  | b :: rest =>
    if b = ']'.toUInt8 then .ok (none, rest)
    else if first then .ok (some (b :: rest), [])
    else if b = ','.toUInt8 then
      match skipBlanks rest with
      | [] => before .endInValue []
      | c :: rest =>
        if c = ']'.toUInt8 then before .trailingComma rest else .ok (some (c :: rest), [])
    else before .noListComma rest

/-- Decides whether another member stands in an object, and skips the comma and the quote before its
key. -/
def nextMember (first : Bool) (bytes : Bytes) : Except Stop (Option Bytes × Bytes) :=
  match skipBlanks bytes with
  | [] => before .endInObject []
  | b :: rest =>
    if b = '\x7d'.toUInt8 then .ok (none, rest)
    else if first then
      if b = '"'.toUInt8 then .ok (some rest, []) else before .keyNotString rest
    else if b = ','.toUInt8 then
      match skipBlanks rest with
      | [] => before .endInValue []
      | c :: rest =>
        if c = '"'.toUInt8 then .ok (some rest, [])
        else if c = '\x7d'.toUInt8 then before .trailingComma rest
        else before .keyNotString rest
    else before .noObjectComma rest

/-- Skips the colon after a key. -/
def colon (bytes : Bytes) : Except Stop Bytes :=
  match skipBlanks bytes with
  | [] => before .endInObject []
  | b :: rest => if b = ':'.toUInt8 then .ok rest else before .noColon rest

mutual

/-- Reads a value. `turns` bounds the number of values and elements still to be read, and `depth`
the brackets that may still be opened, plus one. -/
def value : Nat → Nat → Bytes → Except Stop (Document × Bytes)
  | 0, _, bytes => before .endInValue bytes
  | turns + 1, depth, bytes =>
    match skipBlanks bytes with
    | [] => before .endInValue []
    | b :: rest =>
      if b = '['.toUInt8 then
        if depth ≤ 1 then before .tooDeep rest
        else do
          let (items, rest) ← elements turns (depth - 1) true rest
          .ok (.array items, rest)
      else if b = '\x7b'.toUInt8 then
        if depth ≤ 1 then before .tooDeep rest
        else do
          let (pairs, rest) ← members turns (depth - 1) true rest
          .ok (.object (Assoc.ofList pairs).entries, rest)
      else scalar b (b :: rest) rest

/-- Reads the elements of a list up to its closing bracket. -/
def elements : Nat → Nat → Bool → Bytes → Except Stop (List Document × Bytes)
  | 0, _, _, bytes => before .endInList bytes
  | turns + 1, depth, first, bytes => do
    match ← nextElement first bytes with
    | (none, rest) => .ok ([], rest)
    | (some start, _) =>
      let (item, rest) ← value turns depth start
      let (items, rest) ← elements turns depth false rest
      .ok (item :: items, rest)

/-- Reads the members of an object up to its closing brace. -/
def members : Nat → Nat → Bool → Bytes → Except Stop (List (String × Document) × Bytes)
  | 0, _, _, bytes => before .endInObject bytes
  | turns + 1, depth, first, bytes => do
    match ← nextMember first bytes with
    | (none, rest) => .ok ([], rest)
    | (some start, _) =>
      let (key, rest) ← string start
      let rest ← colon rest
      let (item, rest) ← value turns depth rest
      let (items, rest) ← members turns depth false rest
      .ok ((key, item) :: items, rest)

end

/-- Reads a document that fills the whole text. -/
def whole (bytes : Bytes) : Except Stop Document := do
  let (document, rest) ← value (2 * bytes.length + 2) depthLimit bytes
  match skipBlanks rest with
  | [] => .ok document
  | rest => atNext .trailingCharacters rest

/-- Where a stop stands in the text. -/
def locate (bytes : Bytes) (stop : Stop) : ReadError :=
  let consumed := bytes.take (bytes.length - stop.rest.length)
  { flaw := stop.flaw
    line := consumed.count 0x0a + 1
    column := (consumed.reverse.takeWhile (· != 0x0a)).length }

end Reader

/-- Reads a document from text. -/
def Document.read (text : String) : Except ReadError Document :=
  let bytes := text.toUTF8.toList
  match Reader.whole bytes with
  | .ok document => .ok document
  | .error stop => .error (Reader.locate bytes stop)

end CodeTree
