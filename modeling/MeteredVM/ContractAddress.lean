import MeteredVM.Keccak

namespace MeteredVM.ContractAddress

/-- The bytes of a number without leading zeros; none for zero. -/
def minimal (n : Nat) : Bytes := if n = 0 then ByteArray.empty else Bytes.ofNat (n.log2 / 8 + 1) n

/-- A number as an item of a list: a single byte below 128 stands for itself, anything else has
its length in front. -/
def item (n : Nat) : Bytes :=
  if 0 < n ∧ n < 0x80 then ⟨#[UInt8.ofNat n]⟩
  else ⟨#[UInt8.ofNat (0x80 + (minimal n).size)]⟩ ++ minimal n

def pair (a : Address) (n : Nat) : Bytes :=
  let body := ⟨#[0x94]⟩ ++ Bytes.ofAddress a ++ item n
  ⟨#[UInt8.ofNat (0xc0 + body.size)]⟩ ++ body

def ofNonce (creator : Address) (nonce : Nat) : Address :=
  Word.toAddress (keccak256 (pair creator nonce))

def ofSalt (creator : Address) (salt : Word) (initCode : Bytes) : Address :=
  Word.toAddress (keccak256
    (⟨#[0xff]⟩ ++ Bytes.ofAddress creator ++ Bytes.ofWord salt ++ Bytes.ofWord (keccak256 initCode)))

end MeteredVM.ContractAddress
