import MeteredVM.Frame.Basic
import MeteredVM.Host

namespace MeteredVM

namespace Local

def giveBack (gas : Gas) : Local Unit := fun f =>
  match f.gas.giveBack gas.remaining with
  | .ok gas => .ok () { f with gas := gas }
  | .error fault => .error (.fault fault) f

def setReturnData (data : Bytes) : Local Unit := modify fun f => { f with returnData := data }

/-- Goes on after a call. As much of the output as fits goes into the range of memory set aside
for it. -/
def takeCallReply (reply : CallReply) (into : Span) : Local Unit := do
  setReturnData reply.output
  if reply.status.isOk || reply.status.isRevert then
    giveBack reply.gas
    onMemory (·.set into.start (reply.output.extract 0 (min into.length reply.output.size)))
    push (.ofBool reply.status.isOk)
  else if reply.status = .hostFailure then halt .hostFailure
  else push 0

def takeCreateReply (reply : CreateReply) : Local Unit := do
  setReturnData (if reply.status = .reverted then reply.output else ByteArray.empty)
  if reply.status.isOk then
    giveBack reply.gas
    match reply.address with
    | some a => push (.ofAddress a)
    | none => push 0
  else if reply.status.isRevert then
    giveBack reply.gas
    push 0
  else if reply.status = .hostFailure then halt .hostFailure
  else push 0

end Local

def Frame.settle (f : Frame) (x : Local Unit) : Except Fault Frame :=
  match x f with
  | .ok _ f => .ok f
  | .error (.status s) f => .ok { f with status := s }
  | .error (.fault fault) _ => .error fault

end MeteredVM
