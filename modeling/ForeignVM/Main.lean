import ForeignVM.Command.Outcome

/-!
# ForeignVM.Main

The command itself: reads the file of a request and writes its outputs. A command line that is
not well formed ends it with code two, a request without outcome with that of a process that has
been aborted.
-/

namespace ForeignVM

/-- Why a file cannot be read. A directory can be opened, and fails to be read with the number of
its own. -/
def readFailure : IO.Error → FileError
  | .noFileOrDirectory .. => .notFound
  | .permissionDenied .. => .permissionDenied
  | .inappropriateType _ 21 _ => .isDirectory
  | .inappropriateType .. => .notDirectory
  | .invalidArgument .. => .nameTooLong
  | e => .other (toString e)

def readBytes (path : String) : IO (Except FileError Bytes) := do
  try
    let bytes ← IO.FS.readBinFile path
    pure (.ok bytes.toList)
  catch e => pure (.error (readFailure e))

/-- Shown for a command line that is not well formed. -/
def usage : String :=
  "usage: (dump | exec | trace) UNIT [--routine NAME] [--arg VALUE]... [--fuel N]\n" ++
  "  [--recursion-limit N] [--color auto|always|never] [--compact] [--no-result] [-v]\n"

end ForeignVM

open ForeignVM in
def main (args : List String) : IO UInt32 := do
  match Request.ofArguments? args with
  | none =>
    IO.eprint usage
    pure 2
  | some request =>
    match request.outcome (← readBytes request.path) with
    | none => pure 134
    | some outcome =>
      IO.eprint outcome.errors
      IO.print outcome.output
      pure outcome.code
