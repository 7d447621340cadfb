import ForeignVM.Proofs.Strict
import ForeignVM.Proofs.Stream

/-!
# ForeignVM.Proofs.Accessors

Operands as the executor asks for them. The decoder fills the cells of an instruction as the table
of opcodes says; the executor then asks, for each opcode, for operands of types of its own choice,
by their places. Table and executor agree on every opcode, so it always finds what it asks for.

* `Fetched`               — an instruction as the decoder leaves it; `fetchStrict`.
* `Fetched.u8` ... `u64`  — an operand of a type; a panic if there is none, or one of another type.
* `Fetched.access`        — what the executor asks for, opcode by opcode.
* `decodeStrict_eq`       — together they decode as `decodeAt` does, without a panic.
-/

namespace ForeignVM

open Panic

/-- How many cells an instruction has for its operands. -/
def maxOperands : Nat := 2

structure Fetched where
  opcode : Opcode
  ip : UInt32
  next : UInt32
  cells : List Operand
  /-- How many cells are in use. -/
  count : Nat

/-- Reads each operand from what the code has from `cursor` on. -/
def readOperandsStrict (code : Array UInt8) : List OperandSlot → Nat → Except Panic (List Operand)
  | [], _ => return []
  | slot :: slots, cursor => do
    let own ← front slot.type.width (← behind cursor code.toList)
    let rest ← readOperandsStrict code slots (cursor + slot.type.width)
    return .ofBytes slot.type own :: rest

/-- The instruction at an address; cells that the opcode does not use hold zero. -/
def fetchStrict (code : Array UInt8) (ip : UInt32) : Except Fault Fetched :=
  let start := ip.toNat
  let available := code.size - start
  match code[start]? with
  | none => .error (.error (.code (.truncated ip 1 available)))
  | some tag =>
    match Opcode.ofTag? tag with
    | none => .error (.error (.code (.unknownOpcode ip tag)))
    | some op =>
      if available < op.length then .error (.error (.code (.truncated ip op.length available)))
      else do
        let read ← readOperandsStrict code (op.slots.take maxOperands) (start + 1)
        let unused := List.replicate (maxOperands - read.length) (.u8 0)
        return ⟨op, ip, UInt32.ofNat (start + op.length), read ++ unused, op.slots.length⟩

namespace Operand

def u8? : Operand → Option UInt8
  | .u8 v => some v
  | _ => none

def u16? : Operand → Option UInt16
  | .u16 v => some v
  | _ => none

def u32? : Operand → Option UInt32
  | .u32 v => some v
  | _ => none

def i64? : Operand → Option Int64
  | .i64 v => some v
  | _ => none

def u64? : Operand → Option UInt64
  | .u64 v => some v
  | _ => none

end Operand

namespace Fetched

variable (f : Fetched) (i : Nat)

def operand : Except Panic Operand := do element (← front f.count f.cells) i

/-- Operand `i`, which has to be of the type that is asked for. -/
def typed {α : Type} (asked : OperandType) (value? : Operand → Option α) : Except Panic α := do
  let o ← f.operand i
  match value? o with
  | some v => return v
  | none => .error (.operand i asked o.type)

def u8 : Except Panic UInt8 := f.typed i .u8 Operand.u8?

def u16 : Except Panic UInt16 := f.typed i .u16 Operand.u16?

def u32 : Except Panic UInt32 := f.typed i .u32 Operand.u32?

def i64 : Except Panic Int64 := f.typed i .i64 Operand.i64?

def u64 : Except Panic UInt64 := f.typed i .u64 Operand.u64?

/-- The executor does not look at the table of opcodes. -/
def access : Except Panic Instr :=
  match f.opcode with
  | .nop => return .nop
  | .pushI64 => return .pushI64 (← f.i64 0)
  | .pushU64 => return .pushU64 (← f.u64 0)
  | .pushF64 => return .pushF64 ⟨← f.u64 0⟩
  | .pushBool => return .pushBool (← f.u8 0)
  | .pushZero => return .pushZero ⟨← f.u16 0⟩
  | .pop => return .pop
  | .dup => return .dup
  | .swap => return .swap
  | .localGet => return .localGet (← f.u16 0)
  | .localSet => return .localSet (← f.u16 0)
  | .localAddr => return .localAddr (← f.u16 0)
  | .add => return .add
  | .sub => return .sub
  | .mul => return .mul
  | .lt => return .lt
  | .eq => return .eq
  | .not => return .not
  | .cast => return .cast (← f.u8 0)
  | .jump => return .jump (← f.u32 0)
  | .jumpIfFalse => return .jumpIfFalse (← f.u32 0)
  | .call => return .call ⟨← f.u16 0⟩
  | .ret => return .ret
  | .constGet => return .constGet (← f.u32 0)
  | .fieldGet => return .fieldGet ⟨← f.u16 0⟩ (← f.u16 1)
  | .fieldSet => return .fieldSet ⟨← f.u16 0⟩ (← f.u16 1)
  | .fieldAddr => return .fieldAddr ⟨← f.u16 0⟩ (← f.u16 1)
  | .load => return .load ⟨← f.u16 0⟩
  | .store => return .store ⟨← f.u16 0⟩
  | .malloc => return .malloc ⟨← f.u16 0⟩ (← f.u32 1)
  | .ptrIndex => return .ptrIndex ⟨← f.u16 0⟩
  | .procRef => return .procRef ⟨← f.u16 0⟩ ⟨← f.u16 1⟩
  | .nativeRef => return .nativeRef ⟨← f.u16 0⟩ ⟨← f.u16 1⟩
  | .procContext => return .procContext
  | .callProc => return .callProc ⟨← f.u16 0⟩

end Fetched

def decodeStrict (code : Array UInt8) (ip : UInt32) : Except Fault Located := do
  let f ← fetchStrict code ip
  return ⟨← f.access, f.ip, f.next⟩

theorem Opcode.length_slots_le (op : Opcode) : op.slots.length ≤ maxOperands := by
  cases op <;> decide

theorem readOperandsStrict_eq {code : Array UInt8} {slots : List OperandSlot} {cursor : Nat}
    (h : cursor + Opcode.width slots ≤ code.size) :
    readOperandsStrict code slots cursor = .ok (readOperands code slots cursor) := by
  induction slots generalizing cursor with
  | nil => rfl
  | cons slot slots ih =>
    have hwidth : Opcode.width (slot :: slots) = slot.type.width + Opcode.width slots := rfl
    have hrest : (code.toList.drop cursor).length = code.size - cursor := by
      rw [List.length_drop, Array.length_toList]
    rw [readOperandsStrict, behind_ok (by rw [Array.length_toList]; omega), ok_bind,
      front_ok (by omega), ok_bind, ih (by omega), readOperands, toList_extract_eq,
      Nat.add_sub_cancel_left]
    rfl

/-- The executor finds the operands of every instruction. -/
theorem Fetched.access_eq (i : Instr) (ip next : UInt32) (unused : List Operand) :
    access ⟨i.opcode, ip, next, i.operands ++ unused, i.operands.length⟩ = .ok i := by
  cases i <;> rfl

theorem decodeStrict_eq (code : Array UInt8) (ip : UInt32) :
    decodeStrict code ip = refuse .code (decodeAt code ip) := by
  unfold decodeStrict fetchStrict decodeAt
  dsimp only
  cases code[ip.toNat]? with
  | none => rfl
  | some tag =>
    dsimp only
    cases hop : Opcode.ofTag? tag with
    | none => rfl
    | some op =>
      dsimp only
      by_cases hshort : code.size - ip.toNat < op.length
      · rw [if_pos hshort, if_pos hshort]
        rfl
      · rw [if_neg hshort, if_neg hshort, List.take_of_length_le op.length_slots_le]
        have hwidth := Opcode.length_eq op
        obtain ⟨i, hi⟩ :=
          Instr.exists_ofOperands (type_readOperands code op.slots (ip.toNat + 1))
        obtain ⟨hopcode, hoperands⟩ := Instr.ofOperands_ok_iff.mp hi
        have hcount : op.slots.length = i.operands.length := by
          rw [hoperands, ← List.length_map (f := Operand.type), type_readOperands, List.length_map]
        rw [readOperandsStrict_eq (by omega), lift_ok, ok_bind, hi, ← hoperands, hcount, ← hopcode,
          pure_bind, Fetched.access_eq]
        rfl

end ForeignVM
