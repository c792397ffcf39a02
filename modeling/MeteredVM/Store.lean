import MeteredVM.Database

/-!
A store that keeps accounts, code and block hashes in maps. A finished transaction is committed
to it, and it is read as a database.
-/

namespace MeteredVM

structure StoredAccount where
  info : AccountInfo := {}
  slots : Slots := ∅
  deriving DecidableEq, Inhabited

/-- Accounts, codes by their hash, and block hashes by number. -/
structure Store where
  accounts : Std.ExtTreeMap Address StoredAccount := ∅
  codes : Std.ExtTreeMap Hash Bytes := ∅
  blockHashes : Std.ExtTreeMap Nat Hash := ∅
  deriving Inhabited

namespace Store

def empty : Store := {}

def accountD (s : Store) (a : Address) : StoredAccount := s.accounts.getD a {}

def filed (i : AccountInfo) : AccountInfo :=
  let hash :=
    match i.code with
    | some code => if code.size = 0 then i.codeHash else MeteredVM.codeHash code
    | none => i.codeHash
  { i with codeHash := if hash = 0 then emptyCodeHash else hash, code := none }

def fileCode (s : Store) (i : AccountInfo) : Store :=
  match i.code with
  | some code =>
    if code.size = 0 then s else { s with codes := s.codes.insert (MeteredVM.codeHash code) code }
  | none => s

def insertInfo (s : Store) (a : Address) (i : AccountInfo) : Store :=
  let s := s.fileCode i
  { s with accounts := s.accounts.insert a { s.accountD a with info := filed i } }

def insertCode (s : Store) (a : Address) (code : Bytes) : Store :=
  s.insertInfo a ((s.accountD a).info.withCode code)

def insertSlot (s : Store) (a : Address) (key value : Word) : Store :=
  let old := s.accountD a
  { s with accounts := s.accounts.insert a { old with slots := old.slots.insert key value } }

def insertBlockHash (s : Store) (number : Nat) (hash : Hash) : Store :=
  { s with blockHashes := s.blockHashes.insert number hash }

def code (s : Store) (hash : Hash) : Bytes := s.codes.getD hash ByteArray.empty

def slot (s : Store) (a : Address) (key : Word) : Word := (s.accountD a).slots.getD key 0

def blockHash (s : Store) (number : Nat) : Hash :=
  s.blockHashes.getD number (Database.placeholderHash number)

def toDatabase (s : Store) : Database where
  account a := s.accounts[a]?.map (·.info)
  code := s.code
  slot := s.slot
  blockHash := s.blockHash
  outage _ _ := none

def mergeSlots (old changes : Slots) : Slots := changes.foldl (fun acc k v => acc.insert k v) old

/-- Writes one account of a finished transaction. What was not touched stays, what was destroyed
loses everything, and what was created starts without the slots stored before. -/
def commitAccount (s : Store) (a : Address) (x : Account) : Store :=
  if !x.flags.touched then s
  else if x.flags.destroyed then { s with accounts := s.accounts.insert a {} }
  else
    let s := s.fileCode x.info
    let before := if x.flags.created then ∅ else (s.accountD a).slots
    { s with accounts := s.accounts.insert a ⟨filed x.info, mergeSlots before x.slots⟩ }

def commit (s : Store) (changes : Accounts) : Store := changes.foldl commitAccount s

end Store

end MeteredVM
