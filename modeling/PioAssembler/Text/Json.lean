/-!
# JSON documents

The part of JSON that programs are written in: there are no fractions, no signs and no null.
`Value.pretty` writes a value with one item per line, two spaces deeper for each level; only
what may not stand in a string is escaped.
-/

namespace PioAssembler

namespace Json

/-- A JSON value. The fields of an object have an order. -/
inductive Value where
  | number (n : Nat)
  | bool (b : Bool)
  | string (s : String)
  | array (items : List Value)
  | object (fields : List (String × Value))

/-- A character as it stands in a string: quote, backslash and the control characters below
U+0020 are escaped, the usual ones of them by a letter. -/
def escape (c : Char) : List Char :=
  if c = '"' then ['\\', '"']
  else if c = '\\' then ['\\', '\\']
  else if c = '\x08' then ['\\', 'b']
  else if c = '\x0c' then ['\\', 'f']
  else if c = '\n' then ['\\', 'n']
  else if c = '\r' then ['\\', 'r']
  else if c = '\t' then ['\\', 't']
  else if c.toNat < 0x20 then
    ['\\', 'u', '0', '0', Nat.digitChar (c.toNat / 16), Nat.digitChar (c.toNat % 16)]
  else [c]

/-- A text between quotes. -/
def quote (s : String) : List Char := '"' :: s.toList.flatMap escape ++ ['"']

/-- The end of a line and the indentation of the next one. -/
def newline (depth : Nat) : List Char := '\n' :: List.replicate (2 * depth) ' '

/-- Items between brackets, one to a line; without items only the brackets. -/
def enclose (opening closing : Char) (depth : Nat) (items : List (List Char)) : List Char :=
  if items.isEmpty then [opening, closing]
  else
    opening :: newline (depth + 1) ++ List.intercalate (',' :: newline (depth + 1)) items
      ++ newline depth ++ [closing]

mutual

/-- The text of a value that stands at the given depth. -/
def Value.pretty (depth : Nat) : Value → List Char
  | .number n => Nat.toDigits 10 n
  | .bool b => if b then ['t', 'r', 'u', 'e'] else ['f', 'a', 'l', 's', 'e']
  | .string s => quote s
  | .array items => enclose '[' ']' depth (prettyItems (depth + 1) items)
  | .object fields => enclose '\x7b' '\x7d' depth (prettyFields (depth + 1) fields)

/-- The texts of the items of an array. -/
def prettyItems (depth : Nat) : List Value → List (List Char)
  | [] => []
  | v :: rest => v.pretty depth :: prettyItems depth rest

/-- The texts of the fields of an object. -/
def prettyFields (depth : Nat) : List (String × Value) → List (List Char)
  | [] => []
  | field :: rest => prettyField depth field :: prettyFields depth rest

/-- A key and its value. -/
def prettyField (depth : Nat) : String × Value → List Char
  | (key, v) => quote key ++ [':', ' '] ++ v.pretty depth

end

end Json

end PioAssembler
