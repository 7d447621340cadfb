import ForeignVM.Layout
import ForeignVM.Pool.Basic
import ForeignVM.Program.Basic
import ForeignVM.RuntimeError

/-!
# ForeignVM.Pool.ForProgram

The pool that a program was compiled for.

* `Pool.forProgram` — all constants of a program declared, at the offsets that its code uses.
-/

namespace ForeignVM
namespace Pool

/-- Declares one constant of a program and checks its offset. -/
def declareConstant (l : Layouts) (p : Pool) (c : Constant) : Except RuntimeError Pool :=
  match l.sizeOf c.ty with
  | .error e => .error (.type e)
  | .ok size =>
    match p.declare c.name c.ty size c.initializer with
    | .error e _ => .error (.pool e)
    | .ok assigned p =>
      if assigned = c.offset then .ok p
      else .error (.pool (.offsetMismatch c.name c.offset assigned))

def forProgram (program : Program) : Except RuntimeError Pool :=
  match Layouts.compute program.types with
  | .error e => .error (.type e)
  | .ok l => program.constants.foldlM (declareConstant l) empty

end Pool
end ForeignVM
