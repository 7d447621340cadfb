import ForeignVM.Command.Request
import ForeignVM.Machine.Run
import ForeignVM.Pool.ForProgram
import ForeignVM.Program.Dump
import ForeignVM.Program.File
import ForeignVM.Trace

/-!
# ForeignVM.Command.Outcome

What the command does. A program that cannot be loaded or prepared ends it with code one, a run
that fails with code two. The result of a run goes to the output as JSON, or below its trace as
readable text; the lines that the program prints go to the error output. There is no outcome if
the process ends before its time.

* `LoadError`       — why a program cannot be run.
* `Native.print`    — the one native that the command provides.
* `Request.outcome` — exit code and outputs of a request, from the bytes of its file, if the process
  comes to its end.
-/

namespace ForeignVM

inductive LoadError where
  | program (path : String) (cause : ProgramError)
  | unknownRoutine (name : String)
  | noEntry
  | invalidArg (text : String)
  | pool (cause : RuntimeError)
  deriving DecidableEq, Repr

def LoadError.message : LoadError → String
  | .program path cause => path ++ ": " ++ cause.message
  | .unknownRoutine name => "unit has no routine named `" ++ name ++ "`"
  | .noEntry => "unit has no entry routine; pass --routine"
  | .invalidArg text =>
    "invalid argument `" ++ text ++ "`: expected an integer, float, true or false"
  | .pool cause => "cannot prepare constants: " ++ cause.message

/-- The routine of a name, or the entry routine if there is no name. -/
def Program.resolve (p : Program) : Option String → Except LoadError RoutineId
  | some name =>
    match p.routineNamed? name with
    | some id => .ok id
    | none => .error (.unknownRoutine name)
  | none =>
    match p.entry with
    | some id => .ok id
    | none => .error .noEntry

def Argument.parse (text : String) : Except LoadError Value :=
  match value? text with
  | some v => .ok v
  | none => .error (.invalidArg text)

/-- The line that a print of some values writes. -/
def printLine (args : List Value) : String := " ".intercalate (args.map Value.text)

/-- Natives that are known to the command. Their state is what has been printed, the last line
first. -/
def Native.print : Native (List String) := fun call memory lines =>
  (.ok .void, memory, printLine call.args :: lines)

def Native.registry (name : String) : Option (Native (List String)) :=
  if name = "print" then some Native.print else none

structure Outcome where
  code : UInt32
  output : String
  errors : String
  deriving DecidableEq, Repr

namespace Outcome

def failure (message : String) : Outcome := ⟨1, "", "error: " ++ message ++ "\n"⟩

end Outcome

/-- A program with all that is needed to run it. -/
structure Prepared where
  program : Program
  pool : Pool
  routine : RoutineId
  args : List Value

namespace Request

def loadProgram (r : Request) (file : Except FileError Bytes) : Except LoadError Program :=
  match file with
  | .error cause => .error (.program r.path (.file cause))
  | .ok bytes =>
    match Program.ofFile bytes with
    | .ok p => .ok p
    | .error cause => .error (.program r.path cause)

def prepare (r : Request) (file : Except FileError Bytes) : Except LoadError Prepared := do
  let program ← r.loadProgram file
  let routine ← program.resolve r.routine
  let args ← r.args.mapM Argument.parse
  match Pool.forProgram program with
  | .ok pool => pure ⟨program, pool, routine, args⟩
  | .error cause => .error (.pool cause)

/-- No terminal is known to show colours, so they are used on demand only. -/
def palette (r : Request) : Palette := .ofFlag (r.color = .always)

def printed (lines : List String) : String := String.join (lines.reverse.map (· ++ "\n"))

/-- Runs a prepared program; `onValue` is the output for its result, and `onTrace` that for its
trace. -/
def runPrepared {τ : Type} (m : Machine (List String)) (p : Prepared) (watch : Observer τ)
    (trace : τ) (onTrace : τ → String) (onValue : Value → String) : Option Outcome :=
  match m.execute watch p.routine p.args (.idle .empty p.pool [] trace) with
  | .ok v s => some ⟨0, onTrace s.trace ++ onValue v, printed s.host⟩
  | .error (.abort _) _ => none
  | .error e s =>
    some ⟨2, onTrace s.trace, printed s.host ++ "runtime error: " ++ e.message ++ "\n"⟩

def execOutcome (m : Machine (List String)) (p : Prepared) : Option Outcome :=
  runPrepared m p .silent () (fun _ => "") fun v => v.json.compact ++ "\n"

def traceOutcome (r : Request) (m : Machine (List String)) (p : Prepared) : Option Outcome :=
  let result := fun (v : Value) =>
    if r.noResult then "" else r.palette.inDim "---" ++ "\n" ++ v.text ++ "\n"
  runPrepared m p (Tracing.observer ⟨p.program, r.palette, r.verbose⟩) .empty Trace.text result

def runOutcome (r : Request) (file : Except FileError Bytes)
    (run : Machine (List String) → Prepared → Option Outcome) : Option Outcome :=
  match r.prepare file with
  | .error e => some (.failure e.message)
  | .ok p =>
    match Machine.build p.program Native.registry r.limits with
    | .error e => some (.failure e.message)
    | .ok m => run m p

def dumpOutcome (r : Request) (file : Except FileError Bytes) : Option Outcome :=
  match r.loadProgram file with
  | .error e => some (.failure e.message)
  | .ok p =>
    match p.dump r.palette with
    | none => none
    | some (.error e) => some (.failure e.message)
    | some (.ok text) => some ⟨0, text, ""⟩

def outcome (r : Request) (file : Except FileError Bytes) : Option Outcome :=
  match r.verb with
  | .dump => r.dumpOutcome file
  | .exec => r.runOutcome file execOutcome
  | .trace => r.runOutcome file r.traceOutcome

end Request
end ForeignVM
