/-!
# Indented layout

Nested values as text, one part on a line, indented by four blanks for every level, with a comma
behind every part.
-/

namespace RecordLang

/-- A value as it is laid out. -/
inductive Layout where
  | word (text : String)
  | record (name : String) (fields : List (String × Layout))
  | tuple (name : String) (items : List Layout)
  | list (items : List Layout)

namespace Layout

mutual

/-- The text of a value whose lines after the first begin with `indent`. -/
def render (indent : String) : Layout → String
  | word text => text
  | record name fields =>
    name ++ " \x7b\n" ++ renderFields (indent ++ "    ") fields ++ indent ++ "\x7d"
  | tuple name items => name ++ "(\n" ++ renderItems (indent ++ "    ") items ++ indent ++ ")"
  | list [] => "[]"
  | list (l :: ls) => "[\n" ++ renderItems (indent ++ "    ") (l :: ls) ++ indent ++ "]"

def renderItems (indent : String) : List Layout → String
  | [] => ""
  | l :: ls => indent ++ render indent l ++ ",\n" ++ renderItems indent ls

def renderFields (indent : String) : List (String × Layout) → String
  | [] => ""
  | (k, l) :: fs => indent ++ k ++ ": " ++ render indent l ++ ",\n" ++ renderFields indent fs

end

/-- The text of a value. -/
def text (l : Layout) : String := render "" l

def nat (n : Nat) : Layout := word (toString n)

def bool (b : Bool) : Layout := word (if b then "true" else "false")

/-- A value that may be missing. -/
def option : Option Layout → Layout
  | none => word "None"
  | some l => tuple "Some" [l]

end Layout

end RecordLang
