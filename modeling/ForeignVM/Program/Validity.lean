import ForeignVM.Program.Error
import ForeignVM.Program.Basic
import ForeignVM.Types.Validity

/-!
# ForeignVM.Program.Validity

The structural soundness of programs: a valid type table, code that consists of whole
instructions, routines that start at an instruction and have locals for their parameters, and
ids that exist. `Program.validate` reports the first violation in this order.
-/

namespace ForeignVM
namespace Program

/-- Checks an id of a routine. -/
def requireRoutine (p : Program) (id : RoutineId) : Except ProgramError Unit :=
  match p.routine? id with
  | some _ => .ok ()
  | none => .error (.unknownRoutine id)

def requireTypes (p : Program) (ids : List TypeId) : Except ProgramError Unit :=
  match p.types.requireAll ids with
  | .ok () => .ok ()
  | .error e => .error (.types e)

def checkRoutine (p : Program) (boundaries : List UInt32) (r : Routine) :
    Except ProgramError Unit :=
  if !boundaries.contains r.entry then .error (.misalignedEntry r.name r.entry)
  else if r.locals.length < r.params.toNat then .error (.paramsExceedLocals r.name)
  else p.requireTypes (r.locals ++ r.ret.toList)

def checkRoutines (p : Program) (boundaries : List UInt32) :
    List Routine → Except ProgramError Unit
  | [] => .ok ()
  | r :: rest =>
    match p.checkRoutine boundaries r with
    | .error e => .error e
    | .ok () => p.checkRoutines boundaries rest

def checkConstants (p : Program) : List Constant → Except ProgramError Unit
  | [] => .ok ()
  | c :: rest =>
    match p.requireTypes [c.ty] with
    | .error e => .error e
    | .ok () =>
      match p.requireRoutine c.initializer with
      | .error e => .error e
      | .ok () => p.checkConstants rest

def checkEntry (p : Program) : Except ProgramError Unit :=
  match p.entry with
  | some id => p.requireRoutine id
  | none => .ok ()

def validate (p : Program) : Except ProgramError Unit :=
  match p.types.validate with
  | .error e => .error (.types e)
  | .ok () =>
    match decodeAll p.code with
    | (_, some e) => .error (.code e)
    | (instrs, none) =>
      match p.checkRoutines (instrs.map (·.ip)) p.routines.toList with
      | .error e => .error e
      | .ok () =>
        match p.checkConstants p.constants with
        | .error e => .error e
        | .ok () => p.checkEntry

end Program
end ForeignVM
