import MeteredVM.Account
import MeteredVM.Database
import MeteredVM.Fault
import MeteredVM.Hardfork
import MeteredVM.Ledger
import MeteredVM.Status

/-!
The journal of a transaction: the loaded accounts, the log and the refund counter, and an entry
for every change, so that the changes of a failed frame can be undone. An account or slot that
is present is warm, so undoing the entry that loaded it makes it cold again.
-/

namespace MeteredVM

inductive JournalEntry where
  | loaded (address : Address)
  /-- The account was marked for destruction and its balance went to the target. -/
  | destroyed (address target : Address) (before : Bool) (balance : Word)
  | touched (address : Address)
  | transferred (source target : Address) (value : Word)
  | nonceRaised (address : Address)
  | created (address : Address)
  /-- The slot had another value before, or none because it was not loaded. -/
  | slotChanged (address : Address) (key : Word) (before : Option Word)
  | codeSet (address : Address)
  deriving DecidableEq, Repr

structure Journal where
  hardfork : Hardfork
  accounts : Accounts := ∅
  /-- The log, newest entry first. -/
  logs : List Log := []
  /-- The number of open frames. -/
  depth : Nat := 0
  /-- The changes since the start, newest first. -/
  entries : List JournalEntry := []
  ledger : Ledger := .empty
  refund : Int := 0
  /-- The lookups made of the database, newest first. -/
  lookups : List Lookup := []
  deriving DecidableEq

structure Checkpoint where
  logs : Nat
  entries : Nat
  refund : Int
  deriving DecidableEq, Repr

namespace Journal

def ofHardfork (fork : Hardfork) : Journal := { hardfork := fork }

def clearsEmpty (j : Journal) : Bool := j.hardfork.includes .spuriousDragon

def update (j : Journal) (a : Address) (f : Account → Account) : Journal :=
  { j with accounts := j.accounts.modify a f }

def note (j : Journal) (e : JournalEntry) : Journal := { j with entries := e :: j.entries }

def balance? (j : Journal) (a : Address) : Option Word := j.accounts[a]?.map (·.info.balance)

def setBalance (j : Journal) (a : Address) (w : Word) : Journal :=
  j.update a fun x => { x with info := { x.info with balance := w } }

def touch (j : Journal) (a : Address) : Journal :=
  match j.accounts[a]? with
  | some x =>
    if x.flags.touched then j
    else (j.note (.touched a)).update a fun x => { x with flags := { x.flags with touched := true } }
  | none => j

def recordRefund (j : Journal) (amount : Int) : Except Fault Journal :=
  (Counter.add j.refund amount).map fun r => { j with refund := r }

def log (j : Journal) (l : Log) : Journal := { j with logs := l :: j.logs }

def setCode (j : Journal) (a : Address) (code : Bytes) : Journal :=
  match j.accounts[a]? with
  | some _ =>
    ((j.touch a).note (.codeSet a)).update a fun x => { x with info := x.info.withCode code }
  | none => j

/-- Raises the nonce of a loaded account and gives the new one; nothing happens if the account is
not loaded or its nonce is the largest. -/
def raiseNonce (j : Journal) (a : Address) : Option (Nat × Journal) :=
  match j.accounts[a]? with
  | some x =>
    if x.info.nonce = Amount.max then none
    else
      some (x.info.nonce + 1,
        ((j.touch a).note (.nonceRaised a)).update a
          fun x => { x with info := { x.info with nonce := x.info.nonce + 1 } })
  | none => none

/-- Moves value between loaded accounts. A payer that has too little is left touched, and a
receiver that has too much leaves the payer debited. -/
def transfer (source target : Address) (value : Word) : EStateM Status Journal Unit := do
  let some funds := (← get).balance? source | throw .hostFailure
  modify (·.touch source)
  if funds < value then throw .outOfFunds
  modify (·.setBalance source (funds - value))
  let some held := (← get).balance? target | throw .hostFailure
  modify (·.touch target)
  if held.uaddOverflow value then throw .balanceOverflow
  modify (·.setBalance target (held + value))
  modify (·.note (.transferred source target value))

def checkpoint (j : Journal) : Checkpoint × Journal :=
  (⟨j.logs.length, j.entries.length, j.refund⟩, { j with depth := j.depth + 1 })

/-- Opens a frame that creates a loaded account. The account must have neither code nor a nonce;
it starts with nonce one since Spurious Dragon. -/
def createCheckpoint (j : Journal) (a : Address) : Except Status (Checkpoint × Journal) :=
  match j.accounts[a]? with
  | none => .error .hostFailure
  | some x =>
    if x.info.codeHash ≠ emptyCodeHash ∨ x.info.nonce ≠ 0 then .error .createCollision
    else
      let (mark, j) := j.checkpoint
      let j := (j.note (.created a)).update a fun x =>
        { x with
          flags := { x.flags with created := true }
          info := { x.info with code := none } }
      let j := j.touch a
      .ok (mark,
        if j.clearsEmpty then j.update a fun x => { x with info := { x.info with nonce := 1 } }
        else j)

def undo (accounts : Accounts) : JournalEntry → Except Fault Accounts
  | .loaded a => .ok (accounts.erase a)
  | .touched a => .ok (accounts.modify a fun x => { x with flags := { x.flags with touched := false } })
  | .destroyed a target before balance =>
    let restored := accounts.modify a fun x =>
      { x with
        flags := { x.flags with destroyed := before }
        info := { x.info with balance := x.info.balance + balance } }
    .ok (if a = target then restored
      else restored.modify target fun x =>
        { x with info := { x.info with balance := x.info.balance - balance } })
  | .transferred source target value =>
    .ok ((accounts.modify source fun x =>
        { x with info := { x.info with balance := x.info.balance + value } }).modify target
      fun x => { x with info := { x.info with balance := x.info.balance - value } })
  | .nonceRaised a =>
    match accounts[a]? with
    | some x =>
      if x.info.nonce = 0 then .error .overflow
      else .ok (accounts.modify a fun x => { x with info := { x.info with nonce := x.info.nonce - 1 } })
    | none => .ok accounts
  | .created a =>
    .ok (accounts.modify a fun x =>
      { x with flags := { x.flags with created := false }, info := { x.info with nonce := 0 } })
  | .slotChanged a key before =>
    .ok (accounts.modify a fun x =>
      { x with
        slots := match before with
          | some value => x.slots.insert key value
          | none => x.slots.erase key })
  | .codeSet a =>
    .ok (accounts.modify a fun x =>
      { x with info := { x.info with codeHash := emptyCodeHash, code := none } })

def undoAll (accounts : Accounts) : List JournalEntry → Except Fault Accounts
  | [] => .ok accounts
  | e :: older => do undoAll (← undo accounts e) older

def commit (j : Journal) : Except Fault Journal :=
  if j.depth = 0 then .error .overflow else .ok { j with depth := j.depth - 1 }

/-- Closes a frame and undoes its changes, those of the log and the refund counter included. -/
def revert (j : Journal) (mark : Checkpoint) : Except Fault Journal :=
  if j.depth = 0 then .error .overflow
  else if j.entries.length < mark.entries then .error .outOfRange
  else do
    let newer := j.entries.length - mark.entries
    let accounts ← undoAll j.accounts (j.entries.take newer)
    .ok { j with
      accounts := accounts
      depth := j.depth - 1
      entries := j.entries.drop newer
      logs := j.logs.drop (j.logs.length - mark.logs)
      refund := mark.refund }

/-- Ends the transaction: gives its accounts and its log, oldest entry first, and empties the
journal. -/
def finalize (j : Journal) : (Accounts × List Log) × Journal :=
  ((j.accounts, j.logs.reverse),
    { j with accounts := ∅, logs := [], depth := 0, entries := [], ledger := .empty, refund := 0 })

end Journal

end MeteredVM
