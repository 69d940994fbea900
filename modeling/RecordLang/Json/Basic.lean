import RecordLang.Text.Quoted

/-!
# JSON text

Values as they are written into reports: an item or a member on a line of its own, indented by two
blanks for every level.
-/

namespace RecordLang

/-- A value of a report. -/
inductive Json where
  | bool (value : Bool)
  | nat (value : Nat)
  | string (value : String)
  | array (items : List Json)
  | object (members : List (String × Json))

namespace Json

/-- How a character is written in a string. -/
def escape (c : Char) : String :=
  if c = '"' then "\\\""
  else if c = '\\' then "\\\\"
  else if c = Char.ofNat 8 then "\\b"
  else if c = Char.ofNat 12 then "\\f"
  else if c = '\n' then "\\n"
  else if c = '\r' then "\\r"
  else if c = '\t' then "\\t"
  else if c.toNat < 32 then "\\u" ++ Text.zeroPadded 4 (Text.hex c.toNat)
  else String.singleton c

def quote (s : String) : String := "\"" ++ String.join (s.toList.map escape) ++ "\""

mutual

/-- The text of a value whose lines after the first begin with `indent`. -/
def render (indent : String) : Json → String
  | bool b => if b then "true" else "false"
  | nat n => toString n
  | string s => quote s
  | array [] => "[]"
  | array (j :: js) =>
    "[\n" ++ renderItems (indent ++ "  ") (j :: js) ++ "\n" ++ indent ++ "]"
  | object [] => "\x7b\x7d"
  | object (m :: ms) =>
    "\x7b\n" ++ renderMembers (indent ++ "  ") (m :: ms) ++ "\n" ++ indent ++ "\x7d"

def renderItems (indent : String) : List Json → String
  | [] => ""
  | [j] => indent ++ render indent j
  | j :: js => indent ++ render indent j ++ ",\n" ++ renderItems indent js

def renderMembers (indent : String) : List (String × Json) → String
  | [] => ""
  | [(k, j)] => indent ++ quote k ++ ": " ++ render indent j
  | (k, j) :: ms => indent ++ quote k ++ ": " ++ render indent j ++ ",\n" ++ renderMembers indent ms

end

/-- The text of a value. -/
def text (j : Json) : String := render "" j

end Json

end RecordLang
