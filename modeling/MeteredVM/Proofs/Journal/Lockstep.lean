import MeteredVM.Proofs.Journal.Level
import MeteredVM.Proofs.Journal.Payment
import MeteredVM.Proofs.Journal.Warm

namespace MeteredVM

section Lockstep

variable {ε σ τ α β γ δ : Type}

/-- The steps have both succeeded, with related results, or have both been refused for the same
reason. -/
inductive Abreast (S : σ → τ → Prop) (Q : α → β → Prop) :
    EStateM.Result ε σ α → EStateM.Result ε τ β → Prop
  | ok {a : α} {b : β} {s : σ} {t : τ} (related : Q a b) (states : S s t) :
    Abreast S Q (.ok a s) (.ok b t)
  | error (e : ε) {s : σ} {t : τ} (states : S s t) : Abreast S Q (.error e s) (.error e t)

def Lockstep (S : σ → τ → Prop) (Q : α → β → Prop) (x : EStateM ε σ α) (y : EStateM ε τ β) : Prop :=
  ∀ s t, S s t → Abreast S Q (x s) (y t)

namespace Lockstep

variable {S : σ → τ → Prop} {Q : α → β → Prop} {R : γ → δ → Prop} {x : EStateM ε σ α}
  {y : EStateM ε τ β}

theorem pure {a : α} {b : β} (h : Q a b) :
    Lockstep S Q (pure a : EStateM ε σ α) (pure b : EStateM ε τ β) := fun _ _ hs => .ok h hs

theorem throw (e : ε) : Lockstep S Q (throw e : EStateM ε σ α) (throw e : EStateM ε τ β) :=
  fun _ _ hs => .error e hs

theorem get : Lockstep S S (get : EStateM ε σ σ) (get : EStateM ε τ τ) := fun _ _ hs => .ok hs hs

theorem modify {f : σ → σ} {g : τ → τ} (h : ∀ s t, S s t → S (f s) (g t)) :
    Lockstep S Eq (modify f : EStateM ε σ Unit) (modify g : EStateM ε τ Unit) :=
  fun s t hs => .ok rfl (h s t hs)

theorem bind {k : α → EStateM ε σ γ} {l : β → EStateM ε τ δ} (h : Lockstep S Q x y)
    (hk : ∀ a b, Q a b → Lockstep S R (k a) (l b)) : Lockstep S R (x >>= k) (y >>= l) := by
  intro s t hs
  have hboth := h s t hs
  simp only [Bind.bind, EStateM.bind]
  generalize x s = r, y t = r' at hboth ⊢
  cases hboth with
  | ok related states => exact hk _ _ related _ _ states
  | error e states => exact .error e states

end Lockstep

end Lockstep

def Database.Steady (db : Database) : Prop := ∀ lookups l, db.outage lookups l = none

namespace Journal

variable {db : Database}

theorem transfer_lockstep (source target : Address) (value : Word) :
    Lockstep (Level db) Eq (transfer source target value) (transfer source target value) := by
  refine .bind .get fun i j h => ?_
  rw [h.balance? source]
  split
  · rename_i funds _
    refine .bind (.modify fun _ _ h => h.touch source) fun _ _ _ => ?_
    split
    · exact .throw _
    refine .bind (.modify fun _ _ h => h.setBalance source _) fun _ _ _ => ?_
    refine .bind .get fun i j h => ?_
    rw [h.balance? target]
    split
    · refine .bind (.modify fun _ _ h => h.touch target) fun _ _ _ => ?_
      split
      · exact .throw _
      refine .bind (.modify fun _ _ h => h.setBalance target _) fun _ _ _ => ?_
      exact .modify fun _ _ h => h.note _
    · exact .throw _
  · exact .throw _

section Steady

variable (hdb : db.Steady)

include hdb

theorem lookup_lockstep (l l' : Lookup) :
    Lockstep (Level db) Eq (lookup db l) (lookup db l') := by
  intro j k h
  simp only [lookup, hdb j.lookups l, hdb k.lookups l']
  exact .ok rfl { h with }

theorem asking_lockstep {α : Type} {Q : α → α → Prop} {c : Prop} [Decidable c] {l : Lookup}
    {f : Unit → Loading α} (hf : ∀ u, Lockstep (Level db) Q (f u) (f u)) :
    Lockstep (Level db) Q (if c then lookup db l >>= f else f ())
      (if c then lookup db l >>= f else f ()) := by
  split
  · exact .bind (lookup_lockstep hdb l l) fun _ _ _ => hf _
  · exact hf ()

theorem loadAccount_lockstep (a : Address) :
    Lockstep (Level db) (fun found found' => found.value.Level db found'.value ∧
      found.cold = found'.cold) (loadAccount db a) (loadAccount db a) := by
  refine .bind .get fun j k h => ?_
  have ha := h.accounts a
  generalize j.accounts[a]? = x?, k.accounts[a]? = y? at ha ⊢
  cases ha with
  | some hxy => exact .pure ⟨hxy, rfl⟩
  | none =>
    refine .bind (lookup_lockstep hdb _ _) fun _ _ _ => ?_
    refine .bind (.modify fun i j h => ?_) fun _ _ _ => .pure ⟨.refl _, rfl⟩
    have hloaded : Level db { i with accounts := i.accounts.insert a (fresh db a) }
        { j with accounts := j.accounts.insert a (fresh db a) } :=
      { h with accounts := h.accounts.insert a _ }
    exact hloaded.note _

theorem loadExistence_lockstep (a : Address) :
    Lockstep (Level db) Eq (loadExistence db a) (loadExistence db a) := by
  refine .bind (loadAccount_lockstep hdb a) fun found found' hfound => ?_
  refine .bind .get fun j k h => ?_
  rw [h.clearsEmpty, hfound.2, hfound.1.isEmpty, hfound.1.flags]
  split
  · exact .pure rfl
  · exact .pure rfl

theorem lookup_steady (l : Lookup) (j : Journal) :
    Ends (lookup db l) j (fun _ _ => False) fun _ k => k = { j with lookups := l :: j.lookups } := by
  refine ((lookup_ends db j l).refused ?_).imp ?_
  · rintro outage k ⟨-, failed⟩
    rw [hdb] at failed
    cases failed
  · rintro _ k ⟨rfl, -⟩
    rfl

theorem asking_steady {α : Type} {c : Prop} [Decidable c] {l : Lookup} {f : Unit → Loading α}
    {j : Journal} {Q : α → Journal → Prop}
    (hf : ∀ lookups, Ends (f ()) { j with lookups := lookups } (fun _ _ => False) Q) :
    Ends (if c then lookup db l >>= f else f ()) j (fun _ _ => False) Q := by
  split
  · refine Ends.bind (lookup_steady hdb l j) ?_
    rintro - _ rfl
    exact hf _
  · exact hf j.lookups

theorem loadAccount_steady (a : Address) (j : Journal) :
    Ends (loadAccount db a) j (fun _ _ => False) fun found k =>
      found.value = j.accounts[a]?.getD (fresh db a) ∧ k.accounts[a]? = some found.value := by
  apply Ends.bind .get
  rintro _ _ ⟨rfl, rfl⟩
  split
  · rename_i x hx
    exact .pure ⟨by rw [hx, Option.getD_some], hx⟩
  · rename_i hx
    refine Ends.bind (lookup_steady hdb _ _) fun _ k _ => Ends.bind .modify ?_
    rintro - _ rfl
    exact .pure ⟨by rw [hx, Option.getD_none], Std.ExtTreeMap.getElem?_insert_self⟩

/-- The code of an account is given. That it is at hand from then on makes no difference. -/
theorem loadCode_steady (a : Address) (j : Journal) :
    Ends (loadCode db a) j (fun _ _ => False) fun found l => found.value = j.program db a ∧
      ∃ x k, loadAccount db a j = .ok ⟨x, found.cold⟩ k ∧ Level db l k := by
  apply Ends.bind (loadAccount_steady hdb a j).known
  rintro ⟨x, cold⟩ k ⟨hload, hx, hloaded⟩
  dsimp only at hx hloaded
  rw [Journal.program, ← hx]
  cases hcode : x.info.code with
  | some code =>
    exact .pure ⟨by simp only [Account.program, hcode, Option.getD_some], x, k, hload, .refl k⟩
  | none =>
    refine asking_steady hdb fun lookups => Ends.bind .modify ?_
    rintro - _ rfl
    refine .pure ⟨by simp only [Account.program, hcode, Option.getD_none]; rfl, x, k, hload, ?_⟩
    refine { (Level.refl k : Level db k k) with accounts := .fetch k.accounts a fun y hy => ?_ }
    cases hloaded.symm.trans hy
    simp only [Account.Level, Account.ready, Account.program, hcode, Option.getD_some,
      Option.getD_none, Database.codeOf]

omit hdb in
theorem loadAccount_of_loaded (db : Database) {a : Address} {j : Journal} {x : Account}
    (hx : j.accounts[a]? = some x) : loadAccount db a j = .ok ⟨x, false⟩ j := by
  change (loadAccount db a).run j = _
  simp only [loadAccount, EStateM.run_bind, EStateM.run_get, hx]
  rfl

theorem loadCode_of_loaded {a : Address} {j : Journal} (loaded : (j.accounts[a]?).isSome) :
    ∃ l, loadCode db a j = .ok ⟨j.program db a, false⟩ l ∧ Level db l j := by
  obtain ⟨x, hx⟩ := Option.isSome_iff_exists.mp loaded
  obtain ⟨⟨code, cold⟩, l, hcode, hfound, y, k, hload, hl⟩ := (loadCode_steady hdb a j).exists_ok
  rw [loadAccount_of_loaded db hx] at hload
  cases hload
  cases hfound
  exact ⟨l, hcode, hl⟩

theorem loadCode_lockstep (a : Address) :
    Lockstep (Level db) Eq (loadCode db a) (loadCode db a) := by
  intro j k h
  have hloaded := loadAccount_lockstep hdb a j k h
  obtain ⟨⟨code, cold⟩, l, hcode, hfound, x, i, hx, hl⟩ := (loadCode_steady hdb a j).exists_ok
  obtain ⟨⟨code', cold'⟩, l', hcode', hfound', y, i', hy, hl'⟩ := (loadCode_steady hdb a k).exists_ok
  dsimp only at hfound hfound'
  rw [hx, hy] at hloaded
  rw [hcode, hcode']
  cases hloaded with
  | ok related states =>
    obtain ⟨-, rfl⟩ := related
    rw [hfound, hfound', h.program a]
    exact .ok rfl ((hl.trans states).trans hl'.symm)

theorem readSlot_lockstep (a : Address) (key : Word) :
    Lockstep (Level db) Eq (readSlot db a key) (readSlot db a key) := by
  refine .bind (loadAccount_lockstep hdb a) fun found found' hfound => ?_
  rw [hfound.1.slots, hfound.1.flags]
  split
  · exact .pure rfl
  · refine asking_lockstep hdb fun _ => .bind (.modify fun i j h => ?_) fun _ _ _ => .pure rfl
    generalize (if found'.value.flags.created then 0 else db.slot a key : Word) = value
    have hread : Level db (i.update a fun x => { x with slots := x.slots.insert key value })
        (j.update a fun x => { x with slots := x.slots.insert key value }) :=
      h.update a fun _ => rfl
    exact (hread.record ⟨a, key⟩ value).note _

theorem writeSlot_lockstep (a : Address) (key new : Word) :
    Lockstep (Level db) Eq (writeSlot db a key new) (writeSlot db a key new) := by
  refine .bind (readSlot_lockstep hdb a key) ?_
  rintro present _ rfl
  refine .bind .get fun j k h => ?_
  rw [h.ledger]
  split
  · refine .bind (.modify fun i j h => ?_) fun _ _ _ => .pure rfl
    exact (h.update a fun _ => rfl).note _
  · exact .pure rfl

theorem selfDestruct_lockstep (a target : Address) :
    Lockstep (Level db) Eq (selfDestruct db a target) (selfDestruct db a target) := by
  refine .bind (loadExistence_lockstep hdb target) ?_
  rintro beneficiary _ rfl
  refine .bind (loadAccount_lockstep hdb a) fun found found' hfound => ?_
  dsimp only
  rw [hfound.1.balance, hfound.1.flags]
  refine .bind (.modify fun i j h => h.update a fun _ => rfl) fun _ _ _ => ?_
  split
  · refine .bind (.modify fun i j h => (h.touch target).update target fun _ => rfl) fun _ _ _ => ?_
    exact .bind (.modify fun i j h => h.note _) fun _ _ _ => .pure rfl
  · exact .bind (.modify fun i j h => h.note _) fun _ _ _ => .pure rfl

theorem loadBlockHash_lockstep (number : Nat) :
    Lockstep (Level db) Eq (loadBlockHash db number) (loadBlockHash db number) :=
  .bind (lookup_lockstep hdb _ _) fun _ _ _ => .pure rfl

end Steady

end Journal

namespace TransferPolicy.Sound

variable {p : TransferPolicy} {db : Database} (hp : p.Sound)

include hp

theorem allows_level {j k : Journal} (h : j.Level db k) (source : Address) (value : Word) :
    p.allows j source value = p.allows k source value := by
  obtain rfl | rfl := hp
  · simp only [balances, h.balance? source]
  · rfl

theorem move_lockstep (source target : Address) (value : Word) :
    Lockstep (Journal.Level db) Eq (p.move source target value) (p.move source target value) := by
  obtain rfl | rfl := hp
  · exact Journal.transfer_lockstep source target value
  · exact .pure rfl

end TransferPolicy.Sound

end MeteredVM
