import ForeignVM.Code.Listing
import ForeignVM.Machine.State
import ForeignVM.Value.Text

/-!
# ForeignVM.Trace

Readable traces of runs. Instructions are written as in listings, each call is indented below the
name of its routine and closed by its result, and the life of constants is noted where it
happens. Reads of constants that are there already, calls of natives and allocations are left out
unless the trace is verbose.

* `Tracing.observer` — adds the lines of an event to a trace.
* `Trace.text`       — the lines of a trace.
-/

namespace ForeignVM

/-- The lines so far, the last one first, and the number of calls that have not returned. -/
structure Trace where
  lines : List String
  depth : Nat
  deriving DecidableEq, Repr

namespace Trace

def empty : Trace := ⟨[], 0⟩

def add (t : Trace) (line : String) : Trace :=
  { t with lines := (String.ofList (List.replicate (2 * t.depth) ' ') ++ line) :: t.lines }

def text (t : Trace) : String := String.join (t.lines.reverse.map (· ++ "\n"))

end Trace

/-- How a run of a program is traced. -/
structure Tracing where
  program : Program
  palette : Palette
  verbose : Bool

namespace Tracing

def constName (c : Tracing) (offset : UInt32) : String :=
  match c.program.constants.find? (·.offset == offset) with
  | some constant => constant.name
  | none => "?"

def routineName (c : Tracing) (id : RoutineId) : String :=
  match c.program.routine? id with
  | some r => r.name
  | none => "?"

def nativeName (c : Tracing) (id : NativeId) : String := c.program.natives.getD id.position "?"

def constLine (c : Tracing) (offset : UInt32) (state : String) : String :=
  c.palette.inDim
    ("const " ++ c.constName offset ++ " @" ++ toString offset.toNat ++ ": " ++ state)

/-- Adds a line that only verbose traces have. -/
def detail (c : Tracing) (line : String) (t : Trace) : Trace :=
  if c.verbose then t.add line else t

def observer (c : Tracing) : Observer Trace
  | .instr l, t => t.add (listingLine c.palette (c.program.sources.find? l.ip) l)
  | .called id, t =>
    let t := t.add (c.palette.inBlue (c.routineName id) ++ ":")
    { t with depth := t.depth + 1 }
  | .returned v, t =>
    let t := t.add ("=> " ++ c.palette.inGreen v.text)
    { t with depth := t.depth - 1 }
  | .constInit offset, t => t.add (c.constLine offset "init")
  | .constReady offset, t => t.add (c.constLine offset "ready")
  | .constHit offset, t => c.detail (c.constLine offset "cached") t
  | .native id, t => c.detail ("native " ++ c.nativeName id) t
  | .allocated address size, t =>
    c.detail
      ("alloc " ++ toString size ++ " bytes at 0x" ++ Numeral.hex address.toNat) t

end Tracing
end ForeignVM
