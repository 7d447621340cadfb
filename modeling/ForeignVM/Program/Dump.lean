import ForeignVM.Code.Listing
import ForeignVM.Program.Basic

/-!
# ForeignVM.Program.Dump

The readable form of a whole program: types, routines, constants and natives, then the code with
a label at the start of every routine. The sections of constants and of natives are left out
when they are empty. There is no such form if the name of a type that is shown has no end.

* `Program.dump` — the text, or the error that the code ends in.
-/

namespace ForeignVM
namespace Program

def heading (c : Palette) (title : String) : String := c.inBlue ("[" ++ title ++ "]") ++ "\n"

def aggregateText? (t : TypeTable) (keyword name : String) (fields : OrderedMap TypeId) :
    Option String := do
  let shown ← fields.entries.mapM fun e => do
    let type ← t.name? e.2
    some (e.1 ++ ": " ++ type)
  some (keyword ++ " " ++ name ++ " \x7b " ++ ", ".intercalate shown ++ " \x7d")

def typeText? (t : TypeTable) (id : TypeId) : TypeDef → Option String
  | .struct name fields => aggregateText? t "struct" name fields
  | .union name fields => aggregateText? t "union" name fields
  | .proc _ _ true => do
    let name ← t.name? id
    some (name ++ " closure")
  | _ => t.name? id

def dumpTypes? (c : Palette) (t : TypeTable) : Option String := do
  let lines ← (t.defs.toList.zip t.ids).mapM fun e => do
    let text ← typeText? t e.2 e.1
    some (e.2.text ++ " = " ++ c.inGreen text ++ "\n")
  some (heading c "types" ++ String.join lines ++ "\n")

/-- A name filled with blanks to a width. -/
def column (width : Nat) (name : String) : String :=
  name ++ String.ofList (List.replicate (width - name.length) ' ')

def retText? (t : TypeTable) (ret : Option TypeId) : Option String :=
  match ret with
  | some ty => t.name? ty
  | none => some "void"

def dumpRoutine? (c : Palette) (t : TypeTable) (width : Nat) (r : Routine) : Option String := do
  let params ← (r.locals.take r.params.toNat).mapM t.name?
  let ret ← retText? t r.ret
  some (c.inBlue (column width r.name) ++ " = " ++ Numeral.padded 4 r.entry.toNat ++ " :: (" ++
    ", ".intercalate params ++ ") -> " ++ ret ++ "  " ++
    c.inDim ("locals=" ++ toString r.locals.length) ++ "\n")

/-- The names are set in a column as wide as the longest of them in bytes. -/
def dumpRoutines? (c : Palette) (p : Program) : Option String := do
  let width := p.routines.foldl (fun w r => max w r.name.utf8ByteSize) 0
  let lines ← p.routines.toList.mapM (dumpRoutine? c p.types width)
  some (heading c "routines" ++ String.join lines ++ "\n")

def dumpConstant? (c : Palette) (p : Program) (k : Constant) : Option String := do
  let initializer :=
    match p.routine? k.initializer with
    | some r => r.name
    | none => "?"
  let type ← p.types.name? k.ty
  some (k.name ++ " @" ++ toString k.offset.toNat ++ " :: " ++ type ++ " <- " ++
    c.inBlue initializer ++ "\n")

def dumpConstants? (c : Palette) (p : Program) : Option String := do
  let lines ← p.constants.mapM (dumpConstant? c p)
  some (if lines.isEmpty then "" else heading c "constants" ++ String.join lines ++ "\n")

def dumpNatives (c : Palette) (p : Program) : String :=
  if p.natives.isEmpty then ""
  else
    let line := fun (e : String × Nat) => "#" ++ toString e.2 ++ " " ++ c.inGreen e.1 ++ "\n"
    heading c "natives" ++ String.join (p.natives.toList.zipIdx.map line) ++ "\n"

/-- The lines of the code. A blank line stands before every label but the first. -/
def codeLines (c : Palette) (p : Program) : Bool → List Located → List String
  | _, [] => []
  | first, l :: rest =>
    let line := listingLine c (p.sources.find? l.ip) l ++ "\n"
    match p.labelAt? l.ip with
    | none => line :: codeLines c p first rest
    | some label =>
      let blank := if first then "" else "\n"
      (blank ++ c.inBlue label ++ ":\n") :: line :: codeLines c p false rest

def dumpCode (c : Palette) (p : Program) : Except CodecError String :=
  match decodeAll p.code with
  | (_, some e) => .error e
  | (instrs, none) => .ok (heading c "code" ++ String.join (codeLines c p true instrs))

def dump (p : Program) (c : Palette) : Option (Except CodecError String) := do
  let types ← dumpTypes? c p.types
  let routines ← dumpRoutines? c p
  let constants ← dumpConstants? c p
  match dumpCode c p with
  | .error e => some (.error e)
  | .ok code => some (.ok (types ++ routines ++ constants ++ dumpNatives c p ++ code))

end Program
end ForeignVM
