import ForeignVM.Code.Instr
import ForeignVM.Code.SourceMap

/-!
# ForeignVM.Code.Assembler

Building code with jumps to labels that may be bound later. Appending an instruction gives its
address.

* `emit`, `emitNode` — appends an instruction, the latter with its source.
* `label`, `bind`    — makes a label and binds it to the current address; a later binding wins.
* `emitJump`         — appends an instruction with a single 32-bit operand, to be filled in.
* `finish`           — fills in the jump targets, in the order of the jumps.
-/

namespace ForeignVM

structure Label where
  index : Nat
  deriving DecidableEq, Repr

/-- A target operand to be filled in: where it lies and the label it stands for. -/
structure Fixup where
  offset : Nat
  label : Label
  deriving DecidableEq, Repr

structure Assembler where
  code : Array UInt8
  sources : SourceMap
  labels : Array (Option UInt32)
  fixups : Array Fixup
  deriving DecidableEq, Repr

namespace Assembler

def empty : Assembler := ⟨#[], .empty, #[], #[]⟩

/-- The result of a step, with the assembler that it leaves behind, also when it is refused. -/
abbrev Result (α : Type) := EStateM.Result CodecError Assembler α

/-- The address of the next instruction. -/
def ip (a : Assembler) : UInt32 := UInt32.ofNat a.code.size

def emit (a : Assembler) (op : Opcode) (operands : List Operand) : Result UInt32 :=
  match Instr.ofOperands op operands with
  | .error e => .error e a
  | .ok i => .ok a.ip { a with code := a.code ++ i.encode }

def emitNode (a : Assembler) (op : Opcode) (operands : List Operand) (node : SourceNode) :
    Result UInt32 :=
  match a.emit op operands with
  | .error e b => .error e b
  | .ok ip b => .ok ip { b with sources := b.sources.insert ip node }

def label (a : Assembler) : Assembler × Label :=
  ({ a with labels := a.labels.push none }, ⟨a.labels.size⟩)

def bind (a : Assembler) (l : Label) : Assembler :=
  { a with labels := a.labels.setIfInBounds l.index (some a.ip) }

def emitJump (a : Assembler) (op : Opcode) (l : Label) : Result UInt32 :=
  match a.emit op [.u32 0] with
  | .error e b => .error e b
  | .ok ip b => .ok ip { b with fixups := b.fixups.push ⟨ip.toNat + op.slotOffset 0, l⟩ }

/-- Overwrites bytes from `offset` on. -/
def overwrite (code : Array UInt8) (offset : Nat) : Bytes → Array UInt8
  | [] => code
  | b :: rest => overwrite (code.setIfInBounds offset b) (offset + 1) rest

/-- The address that a label is bound to. -/
def target? (a : Assembler) (l : Label) : Option UInt32 := (a.labels[l.index]?).join

def patch (a : Assembler) (code : Array UInt8) : List Fixup → Except CodecError (Array UInt8)
  | [] => .ok code
  | f :: rest =>
    match a.target? f.label with
    | none => .error (.unboundLabel f.label.index)
    | some target => a.patch (overwrite code f.offset (Operand.u32 target).encode) rest

/-- The code with all jumps resolved, and its source map. -/
def finish (a : Assembler) : Except CodecError (Array UInt8 × SourceMap) :=
  match a.patch a.code a.fixups.toList with
  | .error e => .error e
  | .ok code => .ok (code, a.sources)

end Assembler
end ForeignVM
