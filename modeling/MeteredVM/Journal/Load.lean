import MeteredVM.Access
import MeteredVM.Journal.Basic

namespace MeteredVM

abbrev Loading (α : Type) := EStateM Outage Journal α

namespace Journal

def lookup (db : Database) (l : Lookup) : Loading Unit := fun j =>
  match db.outage j.lookups l with
  | some outage => .error outage { j with lookups := l :: j.lookups }
  | none => .ok () { j with lookups := l :: j.lookups }

def fresh (db : Database) (a : Address) : Account :=
  match db.account a with
  | some info => { info := info }
  | none => .notExisting

def loadAccount (db : Database) (a : Address) : Loading (Loaded Account) := do
  match (← get).accounts[a]? with
  | some x => return ⟨x, false⟩
  | none =>
    lookup db (.account a)
    modify fun j => { j with accounts := j.accounts.insert a (fresh db a) }.note (.loaded a)
    return ⟨fresh db a, true⟩

/-- Loads an account and tells whether a call would bring it into existence. Before Spurious
Dragon an account exists if it is in the database or was touched, later if it is not empty. -/
def loadExistence (db : Database) (a : Address) : Loading Existence := do
  let x ← loadAccount db a
  if (← get).clearsEmpty then return ⟨x.cold, x.value.info.isEmpty⟩
  else return ⟨x.cold, x.value.flags.absent && !x.value.flags.touched⟩

def loadCode (db : Database) (a : Address) : Loading (Loaded Bytes) := do
  let x ← loadAccount db a
  match x.value.info.code with
  | some code => return ⟨code, x.cold⟩
  | none =>
    if x.value.info.codeHash ≠ emptyCodeHash then lookup db (.code x.value.info.codeHash)
    let code :=
      if x.value.info.codeHash = emptyCodeHash then ByteArray.empty
      else db.code x.value.info.codeHash
    modify fun j => j.update a fun x => { x with info := { x.info with code := some code } }
    return ⟨code, x.cold⟩

/-- Reads a storage slot. A first read takes the value from the database, or zero for an account
created in this transaction, and records it as the initial value. -/
def readSlot (db : Database) (a : Address) (key : Word) : Loading (Loaded Word) := do
  let x ← loadAccount db a
  match x.value.slots[key]? with
  | some value => return ⟨value, false⟩
  | none =>
    if !x.value.flags.created then lookup db (.slot a key)
    let value := if x.value.flags.created then 0 else db.slot a key
    modify fun j =>
      { j.update a fun x => { x with slots := x.slots.insert key value } with
        ledger := j.ledger.record ⟨a, key⟩ value }.note (.slotChanged a key none)
    return ⟨value, true⟩

def writeSlot (db : Database) (a : Address) (key new : Word) : Loading (Loaded SlotChange) := do
  let present ← readSlot db a key
  let initial := ((← get).ledger.initial? ⟨a, key⟩).getD present.value
  if present.value ≠ new then
    modify fun j =>
      (j.update a fun x => { x with slots := x.slots.insert key new }).note
        (.slotChanged a key (some present.value))
  return ⟨⟨initial, present.value, new⟩, present.cold⟩

/-- Marks an account for destruction and moves its balance to the target. With the account itself
as target the balance is burnt. -/
def selfDestruct (db : Database) (a target : Address) : Loading (Loaded Destruction) := do
  let beneficiary ← loadExistence db target
  let x ← loadAccount db a
  let balance := x.value.info.balance
  modify fun j => j.update a fun x =>
    { x with info := { x.info with balance := 0 }, flags := { x.flags with destroyed := true } }
  if a ≠ target then
    modify fun j => (j.touch target).update target fun x =>
      { x with info := { x.info with balance := x.info.balance + balance } }
  modify (·.note (.destroyed a target x.value.flags.destroyed balance))
  return ⟨⟨balance != 0, !beneficiary.absent, x.value.flags.destroyed⟩, beneficiary.cold⟩

def loadBlockHash (db : Database) (number : Nat) : Loading Hash := do
  lookup db (.blockHash number)
  return db.blockHash number

end Journal

end MeteredVM
