import ForeignVM.Program.Basic
import ForeignVM.Wire.Writer

/-!
# ForeignVM.Program.Wire

The binary form of a program: the parts of each structure in order, a number in front of each
alternative. Bytes after the end are ignored. Of entries with the same key the last one counts.

* `WireWriter.program`, `WireReader.program` — a whole program.
-/

namespace ForeignVM

namespace WireWriter

def typeId (id : TypeId) : Bytes := u16 id.index

def routineId (id : RoutineId) : Bytes := u16 id.index

def variant (n : Nat) : Bytes := varint .u32 n

def fields (m : OrderedMap TypeId) : Bytes := list (pair text typeId) m.entries

def typeDef : TypeDef → Bytes
  | .scalar kind => variant 0 ++ variant kind.code
  | .struct name fs => variant 1 ++ (text name ++ fields fs)
  | .union name fs => variant 2 ++ (text name ++ fields fs)
  | .pointer pointee => variant 3 ++ typeId pointee
  | .proc params ret closure =>
    variant 4 ++ (list typeId params ++ (option typeId ret ++ flag closure))

def node (n : SourceNode) : Bytes := text n.text ++ (u32 n.line ++ u32 n.column)

def routine (r : Routine) : Bytes :=
  text r.name ++ (u32 r.entry ++ (u16 r.params ++ (list typeId r.locals ++ option typeId r.ret)))

def constant (c : Constant) : Bytes :=
  text c.name ++ (typeId c.ty ++ (routineId c.initializer ++ u32 c.offset))

def program (p : Program) : Bytes :=
  bytes p.code.toList ++ (list (pair u32 node) p.sources.entries ++
    (list typeDef p.types.defs.toList ++ (list routine p.routines.toList ++
      (list constant p.constants ++ (list text p.natives.toList ++ option routineId p.entry)))))

end WireWriter

namespace WireReader

def typeId : WireReader TypeId := TypeId.mk <$> u16

def routineId : WireReader RoutineId := RoutineId.mk <$> u16

def variant : WireReader Nat := varint .u32

def fields : WireReader (OrderedMap TypeId) := OrderedMap.ofList <$> list (pair text typeId)

def scalarKind : WireReader ScalarKind := do
  match ScalarKind.ofCode? (← variant) with
  | some kind => pure kind
  | none => throw .unknownVariant

def typeDef : WireReader TypeDef := do
  match ← variant with
  | 0 => .scalar <$> scalarKind
  | 1 => do
    let name ← text
    .struct name <$> fields
  | 2 => do
    let name ← text
    .union name <$> fields
  | 3 => .pointer <$> typeId
  | 4 => do
    let params ← list typeId
    let ret ← option typeId
    .proc params ret <$> flag
  | _ => throw .unknownVariant

def node : WireReader SourceNode := do
  let text ← text
  let line ← u32
  let column ← u32
  pure ⟨text, line, column⟩

def routine : WireReader Routine := do
  let name ← text
  let entry ← u32
  let params ← u16
  let locals ← list typeId
  let ret ← option typeId
  pure ⟨name, entry, params, locals, ret⟩

def constant : WireReader Constant := do
  let name ← text
  let ty ← typeId
  let initializer ← routineId
  let offset ← u32
  pure ⟨name, ty, initializer, offset⟩

def program : WireReader Program := do
  let code ← bytes
  let sources ← list (pair u32 node)
  let types ← list typeDef
  let routines ← list routine
  let constants ← list constant
  let natives ← list text
  let entry ← option routineId
  pure ⟨code.toArray, .ofList sources, ⟨types.toArray⟩, routines.toArray, constants,
    natives.toArray, entry⟩

end WireReader
end ForeignVM
