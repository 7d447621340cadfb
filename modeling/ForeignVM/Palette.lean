/-!
# ForeignVM.Palette

Terminal colours of listings and traces: blue for opcode names and labels, green for operands
and values, dim for addresses and annotations.
-/

namespace ForeignVM

structure Palette where
  blue : String
  green : String
  dim : String
  reset : String
  deriving DecidableEq, Repr

namespace Palette

def colored : Palette := ⟨"\x1b[34m", "\x1b[32m", "\x1b[2m", "\x1b[0m"⟩

def plain : Palette := ⟨"", "", "", ""⟩

def ofFlag (enabled : Bool) : Palette := if enabled then colored else plain

def isEnabled (p : Palette) : Bool := !p.blue.isEmpty

def inBlue (p : Palette) (text : String) : String := p.blue ++ text ++ p.reset

def inGreen (p : Palette) (text : String) : String := p.green ++ text ++ p.reset

def inDim (p : Palette) (text : String) : String := p.dim ++ text ++ p.reset

end Palette
end ForeignVM
