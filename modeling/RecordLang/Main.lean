import RecordLang.Command.Run

/-!
# The command line

Reads the files that a command names, prints its output, and ends with 0 if there was no fault,
with 1 if there was one or a file could not be read, and with 2 if the command line is no command.
-/

namespace RecordLang

/-- The bytes of a file, if it can be read. -/
def readBytes? (file : String) : IO (Option (List UInt8)) := do
  try
    let bytes ← IO.FS.readBinFile file
    pure (some bytes.toList)
  catch _ => pure none

/-- Runs a command on the files that it names. -/
def Command.execute (command : Command) : IO UInt32 := do
  let contents ← command.files.mapM fun file => do pure (file, ← readBytes? file)
  match command.run fun file => (contents.lookup file).join with
  | .error e =>
    IO.eprintln ("error: " ++ e.message)
    pure 1
  | .ok outcome =>
    IO.print outcome.output
    pure (if outcome.failed then 1 else 0)

/-- Tells why a command line is no command; a wish for help or the version is no fault. -/
def UsageError.tell (e : UsageError) : IO UInt32 := do
  if e = .help ∨ e = .version then
    IO.print e.message
    pure 0
  else
    IO.eprint e.message
    pure 2

end RecordLang

def main (args : List String) : IO UInt32 :=
  match RecordLang.Command.ofArgs args with
  | .ok command => command.execute
  | .error e => e.tell
