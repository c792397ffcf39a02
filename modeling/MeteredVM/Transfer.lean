import MeteredVM.Journal.Basic

namespace MeteredVM

structure TransferPolicy where
  allows : Journal → Address → Word → Bool
  move : Address → Address → Word → EStateM Status Journal Unit

namespace TransferPolicy

def balances : TransferPolicy where
  allows j source value := value == 0 || (j.balance? source).any (value ≤ ·)
  move := Journal.transfer

def free : TransferPolicy where
  allows _ _ _ := true
  move _ _ _ := pure ()

def denied : TransferPolicy where
  allows _ _ _ := false
  move _ _ _ := pure ()

def failing (s : Status) : TransferPolicy where
  allows _ _ _ := true
  move _ _ _ := throw s

end TransferPolicy

end MeteredVM
