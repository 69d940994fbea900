import RecordLang.Diagnostic.Code

/-!
# Events

The steps of an analysis, as they are logged.
-/

namespace RecordLang

/-- A step of an analysis. -/
inductive Event where
  | started (file : String)
  | lexed (file : String) (tokens faults : Nat)
  | parsed (file : String) (statements faults : Nat)
  | statement (line : Nat) (kind : String)
  | scopeEntered (depth : Nat)
  | scopeLeft (depth : Nat)
  | recordDeclared (name : String) (fields : Nat)
  | typeFault (code : Code) (line : Nat) (message : String)
  | typeChecked (statements : Nat)
  | skipped (faults : Nat)
  deriving DecidableEq, Repr

namespace Event

/-- The importance of an event. -/
inductive Level where
  | info | debug | trace
  deriving DecidableEq, Repr

def Level.render : Level → String
  | info => "INFO"
  | debug => "DEBUG"
  | trace => "TRACE"

def level : Event → Level
  | started _ => .info
  | lexed .. | statement .. | scopeEntered _ | scopeLeft _ => .trace
  | parsed .. | recordDeclared .. | typeFault .. | typeChecked _ | skipped _ => .debug

/-- The parts of an analysis. -/
inductive Component where
  | analysis | lexer | parser | context | checker
  deriving DecidableEq, Repr

/-- The part that an event comes from. -/
def component : Event → Component
  | started _ | skipped _ => .analysis
  | lexed .. => .lexer
  | parsed .. => .parser
  | scopeEntered _ | scopeLeft _ => .context
  | statement .. | recordDeclared .. | typeFault .. | typeChecked _ => .checker

/-- The name of the stretch of work that begins with the event. -/
def opens : Event → Option String
  | started _ => some "analyze"
  | _ => none

/-- What is logged of an event, by name and value. -/
def fields : Event → List (String × String)
  | started file => [("file", file)]
  | lexed file tokens faults =>
    [("message", "lexed"), ("file", file), ("tokens", toString tokens),
      ("errors", toString faults)]
  | parsed file statements faults =>
    [("message", "parsed"), ("file", file), ("statements", toString statements),
      ("errors", toString faults)]
  | statement line kind =>
    [("message", "check statement"), ("line", toString line), ("kind", kind)]
  | scopeEntered depth => [("message", "enter scope"), ("depth", toString depth)]
  | scopeLeft depth => [("message", "exit scope"), ("depth", toString depth)]
  | recordDeclared name fields =>
    [("message", "record declared"), ("record", name), ("fields", toString fields)]
  | typeFault code line message =>
    [("message", "type error"), ("code", code.render), ("line", toString line),
      ("message", message)]
  | typeChecked statements =>
    [("message", "program type-checked"), ("statements", toString statements)]
  | skipped faults => [("message", "skipping type check"), ("errors", toString faults)]

end Event

end RecordLang
