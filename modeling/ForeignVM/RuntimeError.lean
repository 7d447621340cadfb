import ForeignVM.Code.Error
import ForeignVM.Memory
import ForeignVM.Pool.Error
import ForeignVM.Types.Table

/-!
# ForeignVM.RuntimeError

Why an execution stops without a result.

* `Abort`        — the process itself comes to its end.
* `RuntimeError` — what the host is told, unless it is an abort.
-/

namespace ForeignVM

/-- Why the process ends in the middle of an instruction, and neither a result nor an error is ever
returned. -/
inductive Abort where
  /-- The name of the type has no end, and the stack overflows while it is made. -/
  | endlessName (id : TypeId)
  /-- Bytes are copied to a place of another length. -/
  | lengthMismatch (target source : Nat)
  /-- A place that is looked for in bytes begins or ends behind them. -/
  | outOfRange (offset size length : Nat)
  deriving DecidableEq, Repr

def Abort.message : Abort → String
  | .endlessName _ => "stack overflow"
  | .lengthMismatch target source =>
    "copy_from_slice: source slice length (" ++ toString source ++
      ") does not match destination slice length (" ++ toString target ++ ")"
  | .outOfRange offset size length =>
    if length < offset then
      "range start index " ++ toString offset ++ " out of range for slice of length " ++
        toString length
    else
      "range end index " ++ toString size ++ " out of range for slice of length " ++
        toString (length - offset)

inductive RuntimeError where
  | fuelExhausted (limit : UInt32)
  | recursionLimit (limit : UInt32)
  | stackUnderflow (ip : UInt32)
  | typeMismatch (expected found : String)
  | arityMismatch (routine : String) (expected got : Nat)
  | invalidCast (kinds : UInt8)
  | nilProc
  | closureContext
  | routineContext (id : RoutineId)
  | unknownField (aggregate field : String)
  | unknownLocal (routine : String) (slot : UInt16)
  | unknownRoutine (id : RoutineId)
  | unknownNative (name : String)
  | native (name message : String)
  | memory (cause : MemoryError)
  | code (cause : CodecError)
  | pool (cause : PoolError)
  | type (cause : TypeError)
  | abort (cause : Abort)
  deriving DecidableEq, Repr

def RuntimeError.message : RuntimeError → String
  | .fuelExhausted limit =>
    "runtime execution limit exceeded (" ++ toString limit.toNat ++ " steps)"
  | .recursionLimit limit =>
    "runtime recursion limit exceeded (" ++ toString limit.toNat ++ " frames)"
  | .stackUnderflow ip => "value stack underflow at " ++ Numeral.padded 4 ip.toNat
  | .typeMismatch expected found =>
    "type mismatch: expected " ++ expected ++ ", found " ++ found
  | .arityMismatch routine expected got =>
    "`" ++ routine ++ "` expects " ++ toString expected ++ " arguments, got " ++ toString got
  | .invalidCast kinds => "invalid cast operand 0x" ++ Numeral.paddedHex 2 kinds.toNat
  | .nilProc => "call through nil proc"
  | .closureContext => "cannot store a closure context in a non-closure proc"
  | .routineContext id =>
    "routine #" ++ toString id.position ++ " cannot receive a closure context"
  | .unknownField aggregate field =>
    "aggregate `" ++ aggregate ++ "` has no field `" ++ field ++ "`"
  | .unknownLocal routine slot => "`" ++ routine ++ "` has no local slot " ++ toString slot.toNat
  | .unknownRoutine id => "unknown routine #" ++ toString id.position
  | .unknownNative name => "unknown native `" ++ name ++ "`"
  | .native name message => "native `" ++ name ++ "` failed: " ++ message
  | .memory cause => cause.message
  | .code cause => cause.message
  | .pool cause => cause.message
  | .type cause => cause.message
  | .abort cause => cause.message

end ForeignVM
