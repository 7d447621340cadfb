import ForeignVM.Data.Crc32
import ForeignVM.Program.Error
import ForeignVM.Program.Wire

/-!
# ForeignVM.Program.Container

The container file: a header of sixteen bytes (magic, format version, checksum and size of the
payload, each number in four bytes) and the payload.

* `Header.forPayload`, `Header.encode`, `Header.decode?` — the header.
* `Program.toContainer`, `Program.ofContainer`           — the whole file. Reading checks the
  size of the file, magic, version, payload size and checksum in this order.
-/

namespace ForeignVM

structure Header where
  magic : Bytes
  version : UInt32
  checksum : UInt32
  payloadSize : UInt32
  deriving DecidableEq, Repr

namespace Header

def expectedMagic : Bytes := [0x51, 0x5a, 0x42, 0x43]

def currentVersion : UInt32 := 1

def size : Nat := 16

def forPayload (payload : Bytes) : Header :=
  ⟨expectedMagic, currentVersion, Crc32.checksum payload, UInt32.ofNat payload.length⟩

def encode (h : Header) : Bytes :=
  h.magic ++ LittleEndian.encode 4 h.version.toNat ++ LittleEndian.encode 4 h.checksum.toNat ++
    LittleEndian.encode 4 h.payloadSize.toNat

/-- The number in the four bytes from `offset` on. -/
def word (bytes : Bytes) (offset : Nat) : UInt32 :=
  UInt32.ofNat (LittleEndian.decode ((bytes.drop offset).take 4))

/-- The header in the first sixteen bytes. -/
def decode? (bytes : Bytes) : Option Header :=
  if bytes.length < size then none
  else some ⟨bytes.take 4, word bytes 4, word bytes 8, word bytes 12⟩

def magicOk (h : Header) : Bool := h.magic = expectedMagic

def versionOk (h : Header) : Bool := h.version = currentVersion

end Header

/-- A payload behind a header that fits it. -/
def sealPayload (payload : Bytes) : Bytes := (Header.forPayload payload).encode ++ payload

/-- The payload of a container whose header fits it. -/
def openContainer (file : Bytes) : Except ProgramError Bytes :=
  match Header.decode? file with
  | none => .error (.fileTooSmall file.length)
  | some header =>
    let payload := file.drop Header.size
    let actual := Crc32.checksum payload
    if !header.magicOk then .error .invalidMagic
    else if !header.versionOk then .error (.unsupportedVersion header.version)
    else if header.payloadSize.toNat ≠ payload.length then
      .error (.sizeMismatch header.payloadSize payload.length)
    else if actual ≠ header.checksum then .error (.checksumMismatch header.checksum actual)
    else .ok payload

namespace Program

def toContainer (p : Program) : Bytes := sealPayload (WireWriter.program p)

def ofContainer (file : Bytes) : Except ProgramError Program :=
  match openContainer file with
  | .error e => .error e
  | .ok payload =>
    match WireReader.program.run payload with
    | .error e => .error (.payload e)
    | .ok (p, _) => .ok p

end Program
end ForeignVM
