import MeteredVM.Proofs.Session.Deed
import MeteredVM.Proofs.Session.Charter

namespace MeteredVM

open Journal Relation

namespace Executor

/-- Accounts that are created in the course of a transaction from a point on. -/
def founded (x : Executor) (c : Scene) : Set Address :=
  { a | ∃ d, x.Reaches c d ∧ (d.session.journal.view x.database a).created = true }

/-- A change of the journal on the way of a transaction in which accounts of `C` may be created. -/
inductive Advance (x : Executor) (C : Set Address) : Journal → Journal → Prop
  | deed {j k : Journal} (deed : Deed x.database x.rules j k) : Advance x C j k
  | touch (j : Journal) (a : Address) : Advance x C j (j.touch a)
  | raise {j k : Journal} {a : Address} {n : Nat} (raised : j.raiseNonce a = some (n, k)) :
      Advance x C j k
  | deeper (j : Journal) : Advance x C j j.deeper
  | commit {j k : Journal} (committed : j.commit = .ok k) : Advance x C j k
  | create {j k : Journal} {a : Address} {mark : Checkpoint} (founded : a ∈ C)
      (opened : j.createCheckpoint a = .ok (mark, k)) : Advance x C j.deeper k
  | setCode (j : Journal) (a : Address) (code : Bytes) : Advance x C j (j.setCode a code)
  | pay {j k : Journal} {source target : Address} {value : Word}
      (payer : (j.accounts[source]?).isSome) (payee : (j.accounts[target]?).isSome)
      (paid : x.transfers.move source target value j = .ok () k) : Advance x C j k

/-- A frame may leave the journal in two ways. What it leaves when it is kept is related to what it
found by `R`. What it leaves when it is undone is related by the weaker `L`: it may end at a write that
it can not pay for, or at a payment that is refused. -/
structure Law (x : Executor) (C : Set Address) (R L : Journal → Journal → Prop) : Prop where
  refl (j : Journal) : R j j
  trans {i j k : Journal} (h : R i j) (h' : R j k) : R i k
  advance {j k : Journal} (h : x.Advance C j k) : R j k
  weaken {j k : Journal} (h : R j k) : L j k
  after {i j k : Journal} (h : R i j) (h' : L j k) : L i k
  unpaid {j k : Journal} (h : Wrote x.database j k) : L j k
  refused {j k : Journal} {source target : Address} {value : Word} {status : Status}
    (payer : (j.accounts[source]?).isSome) (payee : (j.accounts[target]?).isSome)
    (h : x.transfers.move source target value j = .error status k) : L j k
  undone {j k l : Journal} (h : L j.deeper k) (reverted : k.revert j.mark = .ok l) : R j l

section Charter

variable {x : Executor} {C : Set Address} {R L : Journal → Journal → Prop} {i j k : Journal}
  (law : x.Law C R L)

include law

theorem Law.step (h : R i j) (h' : x.Advance C j k) : R i k := law.trans h (law.advance h')

theorem Law.deeds (h : Deeds x.database x.rules j k) : R j k := by
  induction h with
  | refl => exact law.refl j
  | tail _ hdeed ih => exact law.step ih (.deed hdeed)

theorem Law.looks (h : Looks x.database j k) : R j k := law.advance (.deed (.looks h))

theorem Law.charter : x.Charter Set.univ C R L where
  refl := law.refl
  trans := law.trans
  weaken := law.weaken
  after := law.after
  looks := law.looks
  touch j a := law.advance (.touch j a)
  deeper j := law.advance (.deeper j)
  commit committed := law.advance (.commit committed)
  raise _ raised := law.advance (.raise raised)
  create founded opened := law.advance (.create founded opened)
  setCode j a _ code := law.advance (.setCode j a code)
  pay _ payer payee paid := law.advance (.pay payer payee paid)
  refused _ := law.refused
  undone := law.undone

end Charter

end Executor

end MeteredVM
