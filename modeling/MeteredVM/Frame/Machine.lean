import MeteredVM.Frame.Basic
import MeteredVM.Host

/-!
A frame together with the state of its host, and the steps that use both.
-/

namespace MeteredVM

structure Machine (σ : Type) where
  frame : Frame
  world : σ

abbrev Exec (σ α : Type) := EStateM Ending (Machine σ) α

namespace Exec

variable {σ α : Type}

def here (x : Local α) : Exec σ α := fun m =>
  match x m.frame with
  | .ok a f => .ok a { m with frame := f }
  | .error e f => .error e { m with frame := f }

instance : MonadLift (EStateM Ending Frame) (EStateM Ending (Machine σ)) := ⟨here⟩

def ask (q : Query σ α) : Exec σ α := fun m =>
  match q m.world with
  | .ok a world => .ok a { m with world := world }
  | .error _ world => .error (.status .hostFailure) { m with world := world }

def nested (x : Nested σ α) : Exec σ α := fun m =>
  match x m.world with
  | .ok (a, world) => .ok a { m with world := world }
  | .error fault => .error (.fault fault) m

def tell (change : σ → σ) : Exec σ Unit := fun m => .ok () { m with world := change m.world }

end Exec

namespace Machine

variable {σ : Type}

def settle (m : Machine σ) (x : Exec σ Unit) : Except Fault (Machine σ) :=
  match x m with
  | .ok _ m => .ok m
  | .error (.status s) m => .ok { m with frame := { m.frame with status := s } }
  | .error (.fault fault) _ => .error fault

end Machine

end MeteredVM
