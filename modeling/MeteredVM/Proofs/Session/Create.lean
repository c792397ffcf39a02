import MeteredVM.Proofs.Session.Call

namespace MeteredVM

open Journal Relation

namespace Journal

variable {db : Database} {j k : Journal} {creator : Address} {n : Nat}

def Counted (db : Database) (j : Journal) (creator : Address) (n : Nat) (k : Journal) : Prop :=
  ∃ i l, Looks db j i ∧ i.raiseNonce creator = some (n + 1, l) ∧ Looks db l k

theorem Counted.extends (h : j.Counted db creator n k) : j.Extends k := by
  obtain ⟨i, l, hi, hl, hk⟩ := h
  exact hi.extends.trans ((raiseNonce_extends hl).trans hk.extends)

theorem Counted.nonce (h : j.Counted db creator n k) : n = (j.view db creator).nonce := by
  obtain ⟨i, l, hi, hl, hk⟩ := h
  have hraise : n + 1 = (i.view db creator).nonce + 1 := (view_raiseNonce hl creator).1
  rw [hi.view] at hraise
  omega

theorem Counted.view (h : j.Counted db creator n k) (a : Address) :
    k.view db a =
      if creator = a then { j.view db a with nonce := (j.view db a).nonce + 1, touched := true }
      else j.view db a := by
  obtain ⟨i, l, hi, hl, hk⟩ := h
  rw [hk.view, (view_raiseNonce hl a).2, hi.view]

theorem Counted.others (h : j.Counted db creator n k) : k.logs = j.logs ∧ k.refund = j.refund := by
  obtain ⟨i, l, hi, hl, hk⟩ := h
  obtain ⟨rfl, -⟩ := raiseNonce_eq_some hl
  exact ⟨hk.others.2.1.trans ((touch_logs i creator).trans hi.others.2.1),
    hk.others.2.2.trans ((touch_refund i creator).trans hi.others.2.2)⟩

/-- Where the frame of a creation is to be opened. The creation has got an address if it was counted. -/
def Begun (db : Database) (j : Journal) (creator : Address) (address : Option Address) (k : Journal) :
    Prop :=
  match address with
  | none => Looks db j k
  | some _ => ∃ n, j.Counted db creator n k

/-- What a creation leaves that is refused or fails. It has got an address if it was counted. -/
def Uncreated (db : Database) (j : Journal) (creator : Address) (address : Option Address)
    (k : Journal) : Prop :=
  match address with
  | none => Looks db j k
  | some _ => ∃ n l, j.Counted db creator n l ∧ k.Same l

theorem Begun.uncreated {address : Option Address} (h : j.Begun db creator address k) :
    j.Uncreated db creator address k := by
  cases address with
  | none => exact h
  | some a =>
    obtain ⟨n, hcounted⟩ := h
    exact ⟨n, k, hcounted, .refl k⟩

theorem Uncreated.extends {address : Option Address} (h : j.Uncreated db creator address k) :
    j.Extends k := by
  cases address with
  | none => exact Looks.extends h
  | some a =>
    obtain ⟨n, l, hl, hk⟩ := h
    exact hl.extends.trans hk.extends

theorem Uncreated.others {address : Option Address} (h : j.Uncreated db creator address k) :
    k.logs = j.logs ∧ k.refund = j.refund := by
  cases address with
  | none => exact (Looks.others h).2
  | some a =>
    obtain ⟨n, l, hl, hk⟩ := h
    exact ⟨hk.logs.trans hl.others.1, hk.refund.trans hl.others.2⟩

end Journal

namespace Executor

variable {x : Executor} {inner : Option (Host Session)} {r : CreateRequest}
  {E : Fault → Prop} {R : Journal → Journal → Prop} {s : Session}

structure Claims (x : Executor) (r : CreateRequest) (s : Session) (n : Nat) (address : Address)
    (k : Journal) : Prop where
  counts : ∃ t, x.countCreation r s = .ok n t
  counted : s.journal.Counted x.database r.creator n k
  address_eq : address = createdAddress r n
  creator : (k.accounts[r.creator]?).isSome
  free : ∃ y, k.accounts[address]? = some y ∧ y.info.codeHash = emptyCodeHash ∧ y.info.nonce = 0

theorem countCreation_ends :
    Ends (x.countCreation r) s
      (fun why t => why.address = none ∧ Looks x.database s.journal t.journal) fun n t =>
      s.journal.Counted x.database r.creator n t.journal ∧
        (t.journal.accounts[r.creator]?).isSome := by
  unfold countCreation
  refine Ends.bind ((Session.require_ends _ _ _).refused ?_) ?_
  · rintro _ t ⟨rfl, ht⟩
    exact ⟨rfl, ht⟩
  rintro - s₁ ⟨h₁, hloaded⟩
  apply Ends.bind .get
  rintro _ _ ⟨rfl, rfl⟩
  split
  · exact .throw ⟨rfl, h₁⟩
  apply Ends.bind .get
  rintro _ _ ⟨rfl, rfl⟩
  split
  · rename_i nonce j hraise
    apply Ends.bind .modify
    rintro - _ rfl
    have hnonce : nonce = (Journal.view x.database _ r.creator).nonce + 1 :=
      (view_raiseNonce hraise r.creator).1
    refine .pure ⟨⟨_, _, h₁, ?_, .refl⟩, ?_⟩
    · rw [hraise, hnonce]
      rfl
    · obtain ⟨rfl, -⟩ := raiseNonce_eq_some hraise
      rw [raised, update, loaded_modify, note, loaded_touch]
      exact hloaded
  · exact .throw ⟨rfl, h₁⟩

theorem openCreate_ends :
    Ends (x.openCreate r) s
      (fun why t => s.journal.Begun x.database r.creator why.address t.journal) fun p t =>
      ∃ n k, x.Claims r s n p.1 k ∧ p.2 = k.mark ∧ t.journal = k.opened p.1 := by
  unfold openCreate
  refine Ends.bind (countCreation_ends.known.refused ?_) ?_
  · rintro why t ⟨hwhy, ht⟩
    rw [hwhy]
    exact ht
  rintro n s₁ ⟨hcounts, ⟨i, l, hi, hl, hs₁⟩, hcreator⟩
  refine Ends.bind ((Session.require_ends _ _ _).refused ?_) ?_
  · rintro _ t ⟨rfl, ht⟩
    exact ⟨n, i, l, hi, hl, hs₁.trans ht⟩
  rintro - s₂ ⟨h₂, -⟩
  have hcounted : s.journal.Counted x.database r.creator n s₂.journal :=
    ⟨i, l, hi, hl, hs₁.trans h₂⟩
  apply Ends.bind .get
  rintro _ _ ⟨rfl, rfl⟩
  split
  · rename_i mark j hopen
    apply Ends.bind .modify
    rintro - _ rfl
    obtain ⟨rfl, rfl, hfree⟩ := createCheckpoint_eq_ok hopen
    exact .pure ⟨n, _, ⟨⟨_, hcounts⟩, hcounted, rfl, h₂.loaded hcreator, hfree⟩, rfl, rfl⟩
  · exact .throw ⟨n, hcounted⟩

/-- What has to hold of the account that a creation claims: it was not created before, and it can
take its endowment. -/
def Grants (x : Executor) (r : CreateRequest) (s : Session) : Prop :=
  ∀ n address k, x.Claims r s n address k → (k.view x.database address).created = false ∧
    (k.opened address).Payable x.database r.creator address r.value

theorem Claims.opened_extends {n : Nat} {address : Address} {k : Journal}
    (h : x.Claims r s n address k) (hnew : (k.view x.database address).created = false) :
    k.deeper.Extends (k.opened address) := by
  obtain ⟨y, hy, -, hnonce⟩ := h.free
  rw [view_of_loaded hy] at hnew
  exact Journal.opened_extends hy hnonce hnew

theorem Claims.createCheckpoint {n : Nat} {address : Address} {k : Journal}
    (h : x.Claims r s n address k) :
    k.createCheckpoint address = .ok (k.mark, k.opened address) := by
  obtain ⟨y, hy, hcode, hnonce⟩ := h.free
  exact createCheckpoint_of_free hy hcode hnonce

theorem Claims.parties {n : Nat} {address : Address} {k : Journal} (h : x.Claims r s n address k) :
    ((k.opened address).accounts[r.creator]?).isSome ∧
      ((k.opened address).accounts[address]?).isSome := by
  simp only [opened, loaded_touch, update, loaded_modify]
  obtain ⟨y, hy, -⟩ := h.free
  exact ⟨h.creator, Option.isSome_of_eq_some hy⟩

theorem endowCreate_yields (hp : x.transfers.Sound) (hgrants : x.Grants r s) :
    Yields (x.endowCreate r) s E fun endowed t =>
      match endowed with
      | .ok (address, mark) => ∃ n k, x.Claims r s n address k ∧ mark = k.mark ∧
          (k.opened address).Paid x.database r.creator address r.value t.journal
      | .error why => s.journal.Uncreated x.database r.creator why.address t.journal := by
  apply endowCreate_rule (openCreate_ends.refused fun _ _ h => h.uncreated)
  rintro ⟨address, mark⟩ t - ⟨n, k, hclaims, rfl, ht⟩
  obtain ⟨hnew, hpay⟩ := hgrants n address k hclaims
  have hextends := hclaims.opened_extends hnew
  obtain ⟨hcreator, haddress⟩ := hclaims.parties
  rw [← ht] at hpay hcreator haddress hextends
  refine ((Session.move_ends x.database hp hcreator haddress hpay).refused fun _ u hu => ?_).imp
    fun _ u hu => ⟨n, k, hclaims, rfl, ht ▸ hu⟩
  have hback : k.deeper.Extends u.journal := by
    rw [hu]
    exact hextends.trans (touch_extends _ _)
  exact (Session.revert_yields hback).imp fun _ _ hv => ⟨n, k, hclaims.counted, hv⟩

theorem deposit_error {gas : Gas} {code : Bytes} {status : Status}
    (h : x.deposit gas code = .error status) : status.Conclusive ∧ status.isOk = false := by
  simp only [deposit] at h
  split at h
  · cases h
    exact ⟨rfl, rfl⟩
  split at h
  · cases h
    exact ⟨rfl, rfl⟩
  split at h
  · cases h
  split at h
  · cases h
    exact ⟨rfl, rfl⟩
  · cases h

theorem closeCreate_yields {address : Address} {j : Journal} {f : Frame} (hf : f.Solid)
    (h : j.deeper.Extends s.journal) :
    Yields (x.closeCreate address j.mark f) s E fun reply t =>
      reply.address = some address ∧
        if reply.status.isOk then
          ∃ k code, s.journal.commit = .ok k ∧ t.journal = k.setCode address code
        else t.journal.Same j := by
  apply closeCreate_rule hf.unfaulted
  · intro hfailed
    refine (Session.revert_yields h).imp fun _ t ht _ => ⟨rfl, ?_⟩
    rw [if_neg (Bool.not_eq_true _ |>.mpr hfailed)]
    exact ht
  · intro hok output gas code _ _
    refine (Session.commit_yields h).imp fun _ t ht => ⟨rfl, ?_⟩
    rw [if_pos hok]
    exact ⟨_, _, ht, rfl⟩
  · intro _ output status hdeposit
    refine (Session.revert_yields h).imp fun _ t ht => ⟨rfl, ?_⟩
    rw [if_neg (Bool.not_eq_true _ |>.mpr (deposit_error hdeposit).2)]
    exact ht

/-- A creation has claimed its address and has been endowed, its init code has changed the journal as
`R` tells, and code has been deployed. -/
def Deployed (x : Executor) (R : Journal → Journal → Prop) (r : CreateRequest) (s : Session)
    (j : Journal) : Prop :=
  ∃ n address k i l m code, x.Claims r s n address k ∧
    (k.opened address).Paid x.database r.creator address r.value i ∧ R i l ∧ l.commit = .ok m ∧
      j = m.setCode address code

theorem create_yields (hp : x.transfers.Sound)
    (hgrants : x.Grants r (s.noting (.createOpened · r.creator r.gasLimit)))
    (hextends : ∀ j k, R j k → j.Extends k)
    (hrun : ∀ h ∈ inner, ∀ address mark t,
      x.endowCreate r (s.noting (.createOpened · r.creator r.gasLimit)) =
        .ok (.ok (address, mark), t) →
      Yields (runCode h (x.createInvocation r address) r.gasLimit) t E fun f u =>
        f.Solid ∧ R t.journal u.journal) :
    Yields (x.create inner r) s E fun reply t =>
      s.journal.Uncreated x.database r.creator reply.address t.journal ∨
        reply.status.isOk = true ∧
          x.Deployed R r (s.noting (.createOpened · r.creator r.gasLimit)) t.journal := by
  apply Yields.bind .emit
  rintro _ _ rfl
  cases inner with
  | none => exact .pure (.inl .refl)
  | some h =>
    apply Yields.bind (endowCreate_yields hp hgrants).known
    rintro endowed s₁ ⟨hs, hs₁⟩
    cases endowed with
    | error why => exact .pure (.inl hs₁)
    | ok p =>
      obtain ⟨address, mark⟩ := p
      obtain ⟨n, k, hclaims, rfl, hpaid⟩ := hs₁
      have hopened := hclaims.opened_extends (hgrants n address k hclaims).1
      apply Yields.bind (hrun h rfl address _ s₁ hs)
      rintro f s₂ ⟨hf, hs₂⟩
      have hback : k.deeper.Extends s₂.journal :=
        hopened.trans (hpaid.extends.trans (hextends _ _ hs₂))
      apply Yields.bind (closeCreate_yields hf hback)
      rintro reply s₃ ⟨haddress, hs₃⟩
      apply Yields.bind .emit
      rintro _ _ rfl
      split at hs₃
      · rename_i hok
        obtain ⟨m, code, hcommit, hcode⟩ := hs₃
        exact .pure (.inr ⟨hok, n, address, k, _, _, m, code, hclaims, hpaid, hs₂, hcommit, hcode⟩)
      · refine .pure (.inl ?_)
        rw [haddress]
        exact ⟨n, k, hclaims.counted, hs₃⟩

end Executor

end MeteredVM
