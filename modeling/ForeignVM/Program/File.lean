import ForeignVM.Program.Container
import ForeignVM.Program.JsonForm
import ForeignVM.Program.Validity

/-!
# ForeignVM.Program.File

Programs in files. A file that starts with the magic is a container, any other is JSON.

* `Program.ofText`  — a program from its JSON text.
* `Program.ofFile`  — a program from the bytes of a file, validated.
-/

namespace ForeignVM
namespace Program

def ofText (text : String) : Except ProgramError Program :=
  match ofText? text with
  | some p => .ok p
  | none => .error .json

/-- The program in a file, whatever its form, as it stands there. -/
def read (file : Bytes) : Except ProgramError Program :=
  if Header.expectedMagic.isPrefixOf file then ofContainer file
  else
    match ofSymbols? (symbols file) with
    | some p => .ok p
    | none => .error .json

def ofFile (file : Bytes) : Except ProgramError Program :=
  match read file with
  | .error e => .error e
  | .ok p =>
    match p.validate with
    | .error e => .error e
    | .ok () => .ok p

end Program
end ForeignVM
