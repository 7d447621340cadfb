import ForeignVM.Code.Error
import ForeignVM.Types.Table
import ForeignVM.Wire.Reader

/-!
# ForeignVM.Program.Error

Why a program cannot be loaded.

* `FileError`    — its file cannot be read, with the number the system gives the reason.
* `ProgramError` — the file cannot be read, or is no program, or no valid one.
-/

namespace ForeignVM

inductive FileError where
  | notFound
  | permissionDenied
  | notDirectory
  | isDirectory
  | nameTooLong
  | other (reason : String)
  deriving DecidableEq, Repr

def FileError.message : FileError → String
  | .notFound => "No such file or directory (os error 2)"
  | .permissionDenied => "Permission denied (os error 13)"
  | .notDirectory => "Not a directory (os error 20)"
  | .isDirectory => "Is a directory (os error 21)"
  | .nameTooLong => "File name too long (os error 36)"
  | .other reason => reason

inductive ProgramError where
  | invalidMagic
  | unsupportedVersion (version : UInt32)
  | fileTooSmall (size : Nat)
  | sizeMismatch (header : UInt32) (actual : Nat)
  | checksumMismatch (header actual : UInt32)
  | payload (cause : WireError)
  | json
  | file (cause : FileError)
  | types (cause : TypeError)
  | code (cause : CodecError)
  | misalignedEntry (name : String) (entry : UInt32)
  | paramsExceedLocals (name : String)
  | unknownRoutine (id : RoutineId)
  deriving DecidableEq, Repr

def ProgramError.message : ProgramError → String
  | .invalidMagic => "invalid magic: expected QZBC"
  | .unsupportedVersion version =>
    "unsupported version: " ++ toString version.toNat ++ " (expected 1)"
  | .fileTooSmall size => "file too small: " ++ toString size ++ " bytes (minimum 16)"
  | .sizeMismatch header actual =>
    "size mismatch: header says " ++ toString header.toNat ++ " payload bytes, got " ++
      toString actual
  | .checksumMismatch header actual =>
    "checksum mismatch: header says " ++ Numeral.paddedHex 8 header.toNat ++
      ", payload hashes to " ++ Numeral.paddedHex 8 actual.toNat
  | .payload cause => "malformed payload: " ++ cause.message
  | .json => "malformed json"
  | .file cause => "io error: " ++ cause.message
  | .types cause => "type table: " ++ cause.message
  | .code cause => "code: " ++ cause.message
  | .misalignedEntry name entry =>
    "routine `" ++ name ++ "` entry " ++ Numeral.padded 4 entry.toNat ++
      " is not an instruction boundary"
  | .paramsExceedLocals name => "routine `" ++ name ++ "` declares more params than locals"
  | .unknownRoutine id => "unknown routine #" ++ toString id.position

end ForeignVM
