/-
Text as descriptions show it: in quotes, with an escape for quotes, backslashes and for
what has no picture of its own.
-/

import CodeTree.Text.Hidden

namespace CodeTree

namespace Text

/-- A character as it stands between quotes. -/
def shownChar (c : Char) : List Char :=
  if c = '"' then ['\\', '"']
  else if c = '\\' then ['\\', '\\']
  else if c = '\n' then ['\\', 'n']
  else if c = '\r' then ['\\', 'r']
  else if c = '\t' then ['\\', 't']
  else if c = '\x00' then ['\\', '0']
  else if isHidden c then '\\' :: 'u' :: '\x7b' :: Nat.toDigits 16 c.toNat ++ ['\x7d']
  else [c]

/-- Text in quotes, as descriptions show it. -/
def shown (characters : String) : String :=
  String.ofList ('"' :: characters.toList.flatMap shownChar ++ ['"'])

end Text

end CodeTree
