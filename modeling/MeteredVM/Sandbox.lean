import MeteredVM.Host
import Std.Data.ExtTreeSet

namespace MeteredVM

structure Sandbox where
  slots : Slots := ∅
  /-- The value of each slot before its first write. -/
  initials : Slots := ∅
  refund : Int := 0
  /-- The log, newest entry first. -/
  logs : List Log := []
  destroyed : Std.ExtTreeSet Address := ∅
  deriving Inhabited

namespace Sandbox

def clear (s : Sandbox) : Sandbox := { destroyed := s.destroyed }

def readSlot (key : Word) : Query Sandbox (Loaded Word) := fun s =>
  match s.slots[key]? with
  | some value => .ok ⟨value, false⟩ s
  | none => .ok ⟨0, true⟩ { s with slots := s.slots.insert key 0 }

def writeSlot (key new : Word) : Query Sandbox (Loaded SlotChange) := fun s =>
  let present := s.slots.getD key 0
  .ok ⟨⟨s.initials.getD key present, present, new⟩, !s.slots.contains key⟩
    { s with slots := s.slots.insert key new, initials := s.initials.insertIfNew key present }

def selfDestruct (a : Address) : Query Sandbox (Loaded Destruction) := fun s =>
  .ok ⟨{ targetExists := true, again := s.destroyed.contains a }, false⟩
    { s with destroyed := s.destroyed.insert a }

def host (environment : Environment) : Host Sandbox where
  environment := environment
  existence _ := pure ⟨false, false⟩
  blockHash _ := pure 0
  balance _ := pure ⟨0, false⟩
  code _ := pure ⟨ByteArray.empty, false⟩
  codeHash _ := pure ⟨emptyCodeHash, false⟩
  readSlot _ key := readSlot key
  writeSlot _ key new := writeSlot key new
  selfDestruct a _ := selfDestruct a
  refund amount s := (Counter.add s.refund amount).map fun r => { s with refund := r }
  log l s := { s with logs := l :: s.logs }
  call request := pure ⟨.stopped, .ofLimit request.gasLimit, ByteArray.empty⟩
  create request := pure ⟨.reverted, none, .ofLimit request.gasLimit, ByteArray.empty⟩

end Sandbox

end MeteredVM
