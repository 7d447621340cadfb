import ForeignVM.Code.Instr
import ForeignVM.Text.Numeral

/-!
# ForeignVM.Code.Error

The texts of the errors that encoding, decoding and assembling report.
-/

namespace ForeignVM

def CodecError.message : CodecError → String
  | .operandCount op got =>
    op.name ++ " expects " ++ toString op.slots.length ++ " operands, got " ++ toString got
  | .operandType op slot got =>
    op.name ++ " operand `" ++ slot.name ++ "` expects " ++ slot.type.name ++ ", got " ++ got.name
  | .unknownOpcode ip byte =>
    "unknown opcode 0x" ++ Numeral.paddedHex 2 byte.toNat ++ " at " ++ Numeral.padded 4 ip.toNat
  | .truncated ip needed available =>
    "instruction at " ++ Numeral.padded 4 ip.toNat ++ " needs " ++ toString needed ++
      " bytes, stream has " ++ toString available
  | .unboundLabel label => "label L" ++ toString label ++ " was never bound"

end ForeignVM
