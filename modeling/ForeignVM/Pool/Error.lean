/-!
# ForeignVM.Pool.Error

What can go wrong with the pool of constants.
-/

namespace ForeignVM

inductive PoolError where
  | alreadyDeclared (name : String)
  | undeclaredOffset (offset : UInt32)
  | missingInitializer (offset : UInt32)
  | alreadyInitialized (offset : UInt32)
  | sizeMismatch (offset : UInt32) (expected got : Nat)
  | offsetMismatch (name : String) (compiled assigned : UInt32)
  deriving DecidableEq, Repr

def PoolError.message : PoolError → String
  | .alreadyDeclared name => "constant `" ++ name ++ "` declared twice"
  | .undeclaredOffset offset => "no constant declared at offset " ++ toString offset.toNat
  | .missingInitializer offset => "no initializer bound at offset " ++ toString offset.toNat
  | .alreadyInitialized offset =>
    "constant at offset " ++ toString offset.toNat ++ " is already initialized"
  | .sizeMismatch offset expected got =>
    "value for offset " ++ toString offset.toNat ++ " is " ++ toString got ++
      " bytes, expected " ++ toString expected
  | .offsetMismatch name compiled assigned =>
    "constant `" ++ name ++ "` was compiled for offset " ++ toString compiled.toNat ++
      ", pool assigned " ++ toString assigned.toNat

end ForeignVM
