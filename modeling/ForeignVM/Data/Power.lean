/-!
# ForeignVM.Data.Power

Powers of numbers. They are the powers of the core library in all modules: a module that imports
the theory of monoids would otherwise read `2 ^ n` as a power in a monoid, and another notion than
the module that it is about.
-/

namespace ForeignVM

/-- What `b ^ n` means unless something else is said. -/
@[default_instance 20000]
instance (priority := 20000) natPower : Pow Nat Nat := instPowNat

@[default_instance 15000]
instance (priority := 20000) intPower : Pow Int Nat := instPowNat

end ForeignVM
