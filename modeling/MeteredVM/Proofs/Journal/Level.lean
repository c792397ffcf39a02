import MeteredVM.Proofs.Frame.Coupling
import MeteredVM.Proofs.Journal.Change
import MeteredVM.Proofs.Journal.Trait

namespace MeteredVM

/-- Both have succeeded, with related results, or both have been refused for the same reason. -/
inductive Except.Rel {ε α : Type} (Q : α → α → Prop) : Except ε α → Except ε α → Prop
  | ok {a b : α} (related : Q a b) : Rel Q (.ok a) (.ok b)
  | error (e : ε) : Rel Q (.error e) (.error e)

/-- The code of an account, fetched or not. -/
def Account.program (db : Database) (x : Account) : Bytes :=
  x.info.code.getD (db.codeOf x.info.codeHash)

def Account.ready (db : Database) (x : Account) : Account :=
  { x with info := { x.info with code := some (x.program db) } }

/-- The accounts are the same once their codes are fetched. -/
def Account.Level (db : Database) (x y : Account) : Prop := x.ready db = y.ready db

namespace Account.Level

variable {db : Database} {x y : Account} {f : Account → Account}

theorem refl (x : Account) : x.Level db x := rfl

theorem bare (h : x.Level db y) : x.bare = y.bare := congrArg (·.bare) h

theorem info (h : x.Level db y) : x.info.Same y.info :=
  ⟨congrArg (·.info.balance) h, congrArg (·.info.nonce) h, congrArg (·.info.codeHash) h⟩

theorem balance (h : x.Level db y) : x.info.balance = y.info.balance := h.info.1

theorem nonce (h : x.Level db y) : x.info.nonce = y.info.nonce := h.info.2.1

theorem codeHash (h : x.Level db y) : x.info.codeHash = y.info.codeHash := h.info.2.2

theorem isEmpty (h : x.Level db y) : x.info.isEmpty = y.info.isEmpty :=
  congrArg (·.info.isEmpty) h

theorem slots (h : x.Level db y) : x.slots = y.slots := congrArg (·.slots) h

theorem program (h : x.Level db y) : x.program db = y.program db :=
  Option.some.inj (congrArg (·.info.code) h)

theorem flags (h : x.Level db y) : x.flags = y.flags := congrArg (·.flags) h

/-- A change that does not depend on whether code has been fetched. -/
theorem change (h : x.Level db y) (hf : ∀ z, (f z).ready db = (f (z.ready db)).ready db) :
    (f x).Level db (f y) := by
  have hready : x.ready db = y.ready db := h
  rw [Level, hf x, hf y, hready]

end Account.Level

/-- The same accounts, once their codes are fetched. -/
def Accounts.Level (db : Database) (m n : Accounts) : Prop :=
  ∀ a : Address, Option.Rel (Account.Level db) m[a]? n[a]?

namespace Accounts.Level

variable {db : Database} {m n : Accounts} {f g : Account → Account}

theorem refl (m : Accounts) : Level db m m := by
  intro a
  cases m[a]? with
  | none => exact .none
  | some x => exact .some (.refl x)

theorem symm (h : Level db m n) : Level db n m := by
  intro a
  have ha := h a
  generalize m[a]? = x?, n[a]? = y? at ha ⊢
  cases ha with
  | none => exact .none
  | some hxy => exact .some (Eq.symm hxy)

theorem trans {l : Accounts} (h : Level db l m) (h' : Level db m n) : Level db l n := by
  intro a
  have ha := h a
  have ha' := h' a
  generalize l[a]? = x?, m[a]? = y?, n[a]? = z? at ha ha' ⊢
  cases ha with
  | none => exact ha'
  | some hxy =>
    cases ha' with
    | some hyz => exact .some (Eq.trans hxy hyz)

theorem alike (h : Level db m n) : Alike m n := by
  intro a
  have ha := h a
  simp only [look]
  generalize m[a]? = x?, n[a]? = y? at ha ⊢
  cases ha with
  | none => rfl
  | some hxy => exact congrArg some hxy.bare

theorem insert (h : Level db m n) (b : Address) (x : Account) :
    Level db (m.insert b x) (n.insert b x) := by
  intro a
  rw [Std.ExtTreeMap.getElem?_insert, Std.ExtTreeMap.getElem?_insert]
  split
  · exact .some (.refl x)
  · exact h a

theorem erase (h : Level db m n) (b : Address) : Level db (m.erase b) (n.erase b) := by
  intro a
  rw [Std.ExtTreeMap.getElem?_erase, Std.ExtTreeMap.getElem?_erase]
  split
  · exact .none
  · exact h a

theorem modify (h : Level db m n) (b : Address)
    (hf : ∀ z, (f z).ready db = (f (z.ready db)).ready db) :
    Level db (m.modify b f) (n.modify b f) := by
  intro a
  have hb := h b
  rw [getElem?_modify, getElem?_modify]
  split
  · generalize m[b]? = x?, n[b]? = y? at hb ⊢
    cases hb with
    | none => exact .none
    | some hxy => exact .some (hxy.change hf)
  · exact h a

theorem fetch (m : Accounts) (b : Address) (hf : ∀ x, m[b]? = some x → (f x).Level db x) :
    Level db (m.modify b f) m := by
  intro a
  rw [getElem?_modify]
  split
  · rename_i hba
    subst hba
    cases hx : m[b]? with
    | none => exact .none
    | some x => exact .some (hf x hx)
  · exact refl m a

end Accounts.Level

namespace Journal

open Accounts

variable {db : Database}

theorem undo_level {m n : Accounts} (h : Accounts.Level db m n) (e : JournalEntry) :
    Agree (Accounts.Level db) (undo m e) (undo n e) := by
  cases e with
  | loaded a => exact .ok (h.erase a)
  | destroyed a target before balance =>
    refine .ok ?_
    split
    · exact h.modify a fun _ => rfl
    · exact (h.modify a fun _ => rfl).modify target fun _ => rfl
  | touched a => exact .ok (h.modify a fun _ => rfl)
  | transferred source target value =>
    exact .ok ((h.modify source fun _ => rfl).modify target fun _ => rfl)
  | nonceRaised a =>
    have ha := h a
    simp only [undo]
    generalize m[a]? = x?, n[a]? = y? at ha ⊢
    cases ha with
    | none => exact .ok h
    | some hxy =>
      simp only [hxy.nonce]
      split
      · exact .error .overflow
      · exact .ok (h.modify a fun _ => rfl)
  | created a => exact .ok (h.modify a fun _ => rfl)
  | slotChanged a key before => exact .ok (h.modify a fun _ => rfl)
  | codeSet a => exact .ok (h.modify a fun _ => rfl)

theorem undoAll_level (es : List JournalEntry) {m n : Accounts} (h : Accounts.Level db m n) :
    Agree (Accounts.Level db) (undoAll m es) (undoAll n es) := by
  induction es generalizing m n with
  | nil => exact .ok h
  | cons e es ih =>
    have he := undo_level h e
    simp only [undoAll]
    generalize undo m e = r, undo n e = r' at he ⊢
    cases he with
    | ok related => exact ih related
    | error fault => exact .error fault

/-- The code of an account, loaded or not. -/
def program (db : Database) (j : Journal) (a : Address) : Bytes :=
  (j.accounts[a]?.getD (fresh db a)).program db

theorem Look.program {j k : Journal} (h : Look db j k) : k.program db = j.program db := by
  have hupdate {i : Journal} {b : Address} {y : Account} (hy : i.accounts[b]? = some y)
      {f : Account → Account} (hf : (f y).program db = y.program db) :
      (i.update b f).program db = i.program db := by
    funext a
    simp only [Journal.program, update, getElem?_modify]
    split
    · rename_i hba
      subst hba
      rw [hy, Option.map_some, Option.getD_some, Option.getD_some, hf]
    · rfl
  cases h with
  | ask l => rfl
  | @account b absent =>
    funext a
    simp only [Journal.program, note, Std.ExtTreeMap.getElem?_insert,
      Std.LawfulEqCmp.compare_eq_iff_eq]
    split
    · rename_i hba
      subst hba
      rw [absent, Option.getD_some, Option.getD_none]
    · rfl
  | code loaded unfetched =>
    refine hupdate loaded ?_
    simp only [Account.program, unfetched, Option.getD_some, Option.getD_none, Database.codeOf]
  | slot loaded absent => exact hupdate loaded rfl

theorem Looks.program {j k : Journal} (h : Looks db j k) : k.program db = j.program db := by
  induction h with
  | refl => rfl
  | tail _ hlook ih => exact hlook.program.trans ih

/-- The journals are the same, once all codes are fetched, but for what has been looked up. -/
structure Level (db : Database) (j k : Journal) : Prop where
  hardfork : j.hardfork = k.hardfork
  accounts : Accounts.Level db j.accounts k.accounts
  logs : j.logs = k.logs
  depth : j.depth = k.depth
  entries : j.entries = k.entries
  ledger : j.ledger = k.ledger
  refund : j.refund = k.refund

namespace Level

variable {j k : Journal} {a : Address} {f : Account → Account}

theorem refl (j : Journal) : Level db j j := ⟨rfl, .refl _, rfl, rfl, rfl, rfl, rfl⟩

theorem symm (h : Level db j k) : Level db k j :=
  ⟨h.hardfork.symm, h.accounts.symm, h.logs.symm, h.depth.symm, h.entries.symm, h.ledger.symm,
    h.refund.symm⟩

theorem trans {i : Journal} (h : Level db i j) (h' : Level db j k) : Level db i k :=
  ⟨h.hardfork.trans h'.hardfork, h.accounts.trans h'.accounts, h.logs.trans h'.logs,
    h.depth.trans h'.depth, h.entries.trans h'.entries, h.ledger.trans h'.ledger,
    h.refund.trans h'.refund⟩

theorem update (h : Level db j k) (a : Address)
    (hf : ∀ z, (f z).ready db = (f (z.ready db)).ready db) :
    Level db (j.update a f) (k.update a f) :=
  { h with accounts := h.accounts.modify a hf }

theorem note (h : Level db j k) (e : JournalEntry) : Level db (j.note e) (k.note e) :=
  { h with entries := congrArg (e :: ·) h.entries }

theorem log (h : Level db j k) (l : Log) : Level db (j.log l) (k.log l) :=
  { h with logs := congrArg (l :: ·) h.logs }

theorem record (h : Level db j k) (slot : SlotId) (value : Word) :
    Level db { j with ledger := j.ledger.record slot value }
      { k with ledger := k.ledger.record slot value } :=
  { h with ledger := congrArg (·.record slot value) h.ledger }

theorem clearsEmpty (h : Level db j k) : j.clearsEmpty = k.clearsEmpty :=
  congrArg (·.includes .spuriousDragon) h.hardfork

theorem balance? (h : Level db j k) (a : Address) : j.balance? a = k.balance? a := by
  have ha := h.accounts a
  simp only [Journal.balance?]
  generalize j.accounts[a]? = x?, k.accounts[a]? = y? at ha ⊢
  cases ha with
  | none => rfl
  | some hxy => exact congrArg some hxy.balance

theorem program (h : Level db j k) (a : Address) : j.program db a = k.program db a := by
  have ha := h.accounts a
  simp only [Journal.program]
  generalize j.accounts[a]? = x?, k.accounts[a]? = y? at ha ⊢
  cases ha with
  | none => rfl
  | some hxy => exact hxy.program

theorem touch (h : Level db j k) (a : Address) : Level db (j.touch a) (k.touch a) := by
  have ha := h.accounts a
  simp only [Journal.touch]
  generalize j.accounts[a]? = x?, k.accounts[a]? = y? at ha ⊢
  cases ha with
  | none => exact h
  | some hxy =>
    simp only [hxy.flags]
    split
    · exact h
    · exact (h.note _).update a fun _ => rfl

theorem setBalance (h : Level db j k) (a : Address) (w : Word) :
    Level db (j.setBalance a w) (k.setBalance a w) := h.update a fun _ => rfl

theorem setCode (h : Level db j k) (a : Address) (code : Bytes) :
    Level db (j.setCode a code) (k.setCode a code) := by
  have ha := h.accounts a
  simp only [Journal.setCode]
  generalize j.accounts[a]? = x?, k.accounts[a]? = y? at ha ⊢
  cases ha with
  | none => exact h
  | some hxy => exact ((h.touch a).note _).update a fun _ => rfl

theorem raiseNonce (h : Level db j k) (a : Address) :
    Option.Rel (fun p q => p.1 = q.1 ∧ Level db p.2 q.2) (j.raiseNonce a) (k.raiseNonce a) := by
  have ha := h.accounts a
  simp only [Journal.raiseNonce]
  generalize j.accounts[a]? = x?, k.accounts[a]? = y? at ha ⊢
  cases ha with
  | none => exact .none
  | some hxy =>
    simp only [hxy.nonce]
    split
    · exact .none
    · exact .some ⟨rfl, ((h.touch a).note _).update a fun _ => rfl⟩

theorem mark (h : Level db j k) : j.mark = k.mark := by
  simp only [Journal.mark, checkpoint, h.logs, h.entries, h.refund]

theorem deeper (h : Level db j k) : Level db j.deeper k.deeper :=
  { h with depth := congrArg (· + 1) h.depth }

theorem opened (h : Level db j k) (a : Address) : Level db (j.opened a) (k.opened a) := by
  simp only [Journal.opened, h.clearsEmpty]
  exact ((h.deeper.note _).update a fun _ => rfl).touch a

theorem createCheckpoint (h : Level db j k) (a : Address) :
    Except.Rel (fun p q => p.1 = q.1 ∧ Level db p.2 q.2) (j.createCheckpoint a)
      (k.createCheckpoint a) := by
  have ha := h.accounts a
  cases hx : j.accounts[a]? with
  | none =>
    rw [hx] at ha
    generalize hy : k.accounts[a]? = y? at ha
    cases ha with
    | none =>
      simp only [Journal.createCheckpoint, hx, hy]
      exact .error _
  | some x =>
    rw [hx] at ha
    generalize hy : k.accounts[a]? = y? at ha
    cases ha with
    | @some _ y hxy =>
      by_cases hfree : x.info.codeHash = emptyCodeHash ∧ x.info.nonce = 0
      · rw [createCheckpoint_of_free hx hfree.1 hfree.2, createCheckpoint_of_free hy
          (hxy.codeHash ▸ hfree.1) (hxy.nonce ▸ hfree.2)]
        exact .ok ⟨h.mark, h.opened a⟩
      · have htaken : x.info.codeHash ≠ emptyCodeHash ∨ x.info.nonce ≠ 0 := Decidable.not_and_iff_not_or_not.mp hfree
        have htaken' := htaken
        rw [hxy.codeHash, hxy.nonce] at htaken'
        simp only [Journal.createCheckpoint, hx, hy, if_pos htaken, if_pos htaken']
        exact .error _

theorem recordRefund (h : Level db j k) (amount : Int) :
    Agree (Level db) (j.recordRefund amount) (k.recordRefund amount) := by
  simp only [Journal.recordRefund, h.refund]
  cases Counter.add k.refund amount with
  | ok r => exact .ok { h with refund := rfl }
  | error e => exact .error e

theorem commit (h : Level db j k) : Agree (Level db) j.commit k.commit := by
  simp only [Journal.commit, h.depth]
  split
  · exact .error _
  · exact .ok { h with depth := rfl }

theorem revert (h : Level db j k) (c : Checkpoint) :
    Agree (Level db) (j.revert c) (k.revert c) := by
  simp only [Journal.revert, h.depth, h.entries, h.logs]
  split
  · exact .error _
  split
  · exact .error _
  have hundone := undoAll_level (k.entries.take (k.entries.length - c.entries)) h.accounts
  generalize undoAll j.accounts _ = r, undoAll k.accounts _ = r' at hundone ⊢
  cases hundone with
  | ok related =>
    exact .ok ⟨h.hardfork, related, rfl, rfl, rfl, h.ledger, rfl⟩
  | error e => exact .error e

end Level

end Journal

end MeteredVM
