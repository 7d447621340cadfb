import ForeignVM.Data.ByteStore
import ForeignVM.Text.Numeral

/-!
# ForeignVM.Memory

The address space: blocks of bytes that are allocated, zeroed, and released independently. An
address holds the number of the block in its upper half and the offset in its lower half, so it
fits a pointer word; block zero does not exist, and address zero is null. Numbers of released
blocks are not used again, so a dangling pointer never reaches a newer block.

* `Memory.alloc`, `free`, `read`, `write` — blocks and their bytes.
* `Memory.live` — how many blocks are allocated and not released.
* `Address.shift` — moves an address within its block.
-/

namespace ForeignVM

inductive MemoryError where
  | invalidAddress (address : UInt64)
  | nullDereference
  | allocationTooLarge (size : Nat)
  deriving DecidableEq, Repr

def MemoryError.message : MemoryError → String
  | .invalidAddress address => "invalid address 0x" ++ Numeral.hex address.toNat
  | .nullDereference => "null pointer dereference"
  | .allocationTooLarge size =>
    "allocation of " ++ toString size ++ " bytes exceeds the block size limit"

namespace Address

/-- The number of offsets, and of blocks, that an address can name. -/
def half : Nat := 2 ^ 32

def block (address : UInt64) : Nat := address.toNat / half

def offset (address : UInt64) : Nat := address.toNat % half

def ofBlock (block : Nat) : UInt64 := UInt64.ofNat (block * half)

/-- The address `delta` bytes further in the same block, whether or not the block reaches that
far. -/
def shift (address : UInt64) (delta : Int) : Except MemoryError UInt64 :=
  if address = 0 then .error .nullDereference
  else
    let moved := (offset address : Int) + delta
    if 0 ≤ moved ∧ moved < half then
      .ok (UInt64.ofNat (block address * half + moved.toNat))
    else .error (.invalidAddress address)

end Address

structure Block where
  size : Nat
  bytes : ByteStore
  deriving DecidableEq, Repr

/-- The live blocks by number. Block zero and the blocks from `next` on have never been
allocated. -/
structure Memory where
  blocks : SparseArray Block
  next : Nat
  next_pos : 0 < next
  null_absent : blocks.get? 0 = none
  unused_absent : ∀ i, next ≤ i → blocks.get? i = none
  deriving DecidableEq, Repr

namespace Memory

def empty : Memory :=
  ⟨.empty, 1, Nat.one_pos, SparseArray.get?_empty 0, fun i _ => SparseArray.get?_empty i⟩

instance : Inhabited Memory := ⟨empty⟩

/-- The number of live blocks. -/
def live (m : Memory) : Nat := m.blocks.count

/-- Appends a block under the next number. -/
def addBlock (m : Memory) (b : Block) : Memory where
  blocks := m.blocks.put m.next (some b)
  next := m.next + 1
  next_pos := Nat.succ_pos m.next
  null_absent := by
    rw [SparseArray.get?_put, if_neg (Nat.ne_of_lt m.next_pos)]
    exact m.null_absent
  unused_absent := fun i h => by
    rw [SparseArray.get?_put, if_neg (by omega)]
    exact m.unused_absent i (by omega)

/-- Replaces a block that has been allocated, or releases it. -/
def setBlock (m : Memory) (i : Nat) (b : Option Block) : Memory :=
  if h : 0 < i ∧ i < m.next then
    { m with
      blocks := m.blocks.put i b
      null_absent := by
        rw [SparseArray.get?_put, if_neg (Nat.ne_of_lt h.1)]
        exact m.null_absent
      unused_absent := fun k hk => by
        rw [SparseArray.get?_put, if_neg (by omega)]
        exact m.unused_absent k hk }
  else m

def alloc (m : Memory) (size : Nat) : Except MemoryError (UInt64 × Memory) :=
  if Address.half ≤ size ∨ Address.half ≤ m.next then .error (.allocationTooLarge size)
  else .ok (Address.ofBlock m.next, m.addBlock ⟨size, .empty⟩)

/-- Releases the block that starts at an address. -/
def free (m : Memory) (address : UInt64) : Except MemoryError Memory :=
  if address = 0 then .error .nullDereference
  else
    match m.blocks.get? (Address.block address) with
    | some _ =>
      if Address.offset address = 0 then .ok (m.setBlock (Address.block address) none)
      else .error (.invalidAddress address)
    | none => .error (.invalidAddress address)

/-- The live block that contains `length` bytes from an address on. -/
def blockAt (m : Memory) (address : UInt64) (length : Nat) : Except MemoryError Block :=
  if address = 0 then .error .nullDereference
  else
    match m.blocks.get? (Address.block address) with
    | some b =>
      if Address.offset address + length ≤ b.size then .ok b
      else .error (.invalidAddress address)
    | none => .error (.invalidAddress address)

def read (m : Memory) (address : UInt64) (length : Nat) : Except MemoryError Bytes :=
  match m.blockAt address length with
  | .error e => .error e
  | .ok b => .ok (b.bytes.read (Address.offset address) length)

def write (m : Memory) (address : UInt64) (bytes : Bytes) : Except MemoryError Memory :=
  match m.blockAt address bytes.length with
  | .error e => .error e
  | .ok b =>
    let stored := b.bytes.write (Address.offset address) bytes
    .ok (m.setBlock (Address.block address) (some { b with bytes := stored }))

/-- A live block has been allocated. -/
theorem bounds_of_get? {m : Memory} {i : Nat} {b : Block} (h : m.blocks.get? i = some b) :
    0 < i ∧ i < m.next := by
  constructor
  · refine Nat.pos_of_ne_zero fun hi => ?_
    rw [hi, m.null_absent] at h
    cases h
  · refine Nat.lt_of_not_le fun hi => ?_
    rw [m.unused_absent i hi] at h
    cases h

theorem get?_addBlock (m : Memory) (b : Block) (i : Nat) :
    (m.addBlock b).blocks.get? i = if i = m.next then some b else m.blocks.get? i :=
  SparseArray.get?_put _ _ _ _

/-- Replacing a live block changes nothing else. -/
theorem get?_setBlock {m : Memory} {i : Nat} {b : Block} (h : m.blocks.get? i = some b)
    (b' : Option Block) (k : Nat) :
    (m.setBlock i b').blocks.get? k = if k = i then b' else m.blocks.get? k := by
  rw [setBlock, dif_pos (bounds_of_get? h)]
  exact SparseArray.get?_put _ _ _ _

end Memory
end ForeignVM
