import ForeignVM.Code.Cast
import ForeignVM.Code.Instr
import ForeignVM.Code.SourceMap
import ForeignVM.Decimal.Style
import ForeignVM.Palette
import ForeignVM.Text.Numeral

/-!
# ForeignVM.Code.Listing

Readable code, one line per instruction: the address with at least four digits, the opcode, the
operands in order, a note that explains them where the table has one, and the source.

* `Instr.note?`   — the explanation of an instruction's operands.
* `listingLine`   — one instruction; execution traces use the same line.
* `disassemble`   — the whole code, or the error that ends it.
-/

namespace ForeignVM

/-- How far a jump goes from the instruction after it. -/
def jumpNote (target next : UInt32) : String :=
  Numeral.signed ((target.toNat : Int) - (next.toNat : Int))

def Instr.note? (next : UInt32) : Instr → Option String
  | .pushF64 value => some value.text
  | .pushBool value => some (if value = 0 then "false" else "true")
  | .cast kinds =>
    match Cast.unpack? kinds with
    | some (source, target) => some (source.name ++ "->" ++ target.name)
    | none => some "?->?"
  | .jump target | .jumpIfFalse target => some (jumpNote target next)
  | .constGet offset =>
    some ("flag@" ++ toString offset.toNat ++ " data@" ++ toString (offset.toNat + 1))
  | _ => none

def listingLine (c : Palette) (node? : Option SourceNode) (l : Located) : String :=
  let address := c.inDim (Numeral.padded 4 l.ip.toNat) ++ " "
  let operands := String.join (l.instr.operands.map fun o => " " ++ c.inGreen o.text)
  let note :=
    match l.instr.note? l.next with
    | some text => " " ++ c.inGreen ("(" ++ text ++ ")")
    | none => ""
  let source :=
    match node? with
    | some node => "  " ++ c.inDim ("; " ++ node.display)
    | none => ""
  address ++ c.inBlue l.instr.opcode.name ++ operands ++ note ++ source

def disassemble (code : Array UInt8) (sources : SourceMap) (c : Palette) :
    Except CodecError String :=
  match decodeAll code with
  | (_, some e) => .error e
  | (instrs, none) =>
    .ok (String.join (instrs.map fun l => listingLine c (sources.find? l.ip) l ++ "\n"))

end ForeignVM
