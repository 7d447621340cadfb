import ForeignVM.Types.Scalar

/-!
# ForeignVM.Code.Cast

The operand of a cast: the codes of two scalar kinds in a byte, that of the source in the upper
four bits and that of the target in the lower.

* `Cast.pack`    — the operand of two kinds.
* `Cast.unpack?` — the kinds of an operand, if both codes are known.
-/

namespace ForeignVM
namespace Cast

def pack (source target : ScalarKind) : UInt8 := UInt8.ofNat (source.code * 16 + target.code)

def unpack? (kinds : UInt8) : Option (ScalarKind × ScalarKind) :=
  match ScalarKind.ofCode? (kinds.toNat / 16), ScalarKind.ofCode? (kinds.toNat % 16) with
  | some source, some target => some (source, target)
  | _, _ => none

theorem unpack?_pack (source target : ScalarKind) :
    unpack? (pack source target) = some (source, target) := by
  cases source <;> cases target <;> rfl

end Cast
end ForeignVM
