import ForeignVM.Data.LittleEndian

/-!
# ForeignVM.Data.Crc32

The CRC-32 of a byte string: the remainder register starts with all ones, takes in each byte at
its low end and shifts it out bit by bit, and is complemented at the end. The polynomial is
written with its bits reversed.

* `Crc32.shift`    — one bit.
* `Crc32.absorb`   — one byte.
* `Crc32.checksum` — a whole string.
-/

namespace ForeignVM
namespace Crc32

def polynomial : UInt32 := 0xedb88320

def shift (register : UInt32) : UInt32 :=
  if register &&& 1 = 1 then (register >>> 1) ^^^ polynomial else register >>> 1

def shifts : Nat → UInt32 → UInt32
  | 0, register => register
  | n + 1, register => shifts n (shift register)

def absorb (register : UInt32) (byte : UInt8) : UInt32 := shifts 8 (register ^^^ byte.toUInt32)

def checksum (bytes : Bytes) : UInt32 := ~~~(bytes.foldl absorb 0xffffffff)

end Crc32
end ForeignVM
