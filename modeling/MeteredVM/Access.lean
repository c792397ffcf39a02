import MeteredVM.Gas.Storage

namespace MeteredVM

structure Loaded (α : Type) where
  value : α
  /-- Whether the account or slot had not been accessed before. -/
  cold : Bool
  deriving DecidableEq, Repr

structure Existence where
  cold : Bool
  /-- Whether the call would bring the account into existence. -/
  absent : Bool
  deriving DecidableEq, Repr

structure Destruction where
  /-- The account had a balance. -/
  hadValue : Bool := false
  /-- The beneficiary existed before. -/
  targetExists : Bool := false
  /-- The account was marked for destruction before. -/
  again : Bool := false
  deriving DecidableEq, Repr

end MeteredVM
