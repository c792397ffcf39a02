import MeteredVM.Proofs.Journal.Look

namespace MeteredVM.Journal

open Accounts Relation

def destroy (j : Journal) (a target : Address) (x : Account) : Journal :=
  let emptied := j.update a fun y =>
    { y with info := { y.info with balance := 0 }, flags := { y.flags with destroyed := true } }
  let moved :=
    if a ≠ target then
      (emptied.touch target).update target fun y =>
        { y with info := { y.info with balance := y.info.balance + x.info.balance } }
    else emptied
  moved.note (.destroyed a target x.flags.destroyed x.info.balance)

inductive Change (j : Journal) : Journal → Prop
  | slot {a : Address} {x : Account} {key present : Word} (loaded : j.accounts[a]? = some x)
      (slot : x.slots[key]? = some present) (new : Word) :
      Change j ((j.update a fun y => { y with slots := y.slots.insert key new }).note
        (.slotChanged a key (some present)))
  | destroy {a : Address} {x : Account} (loaded : j.accounts[a]? = some x) (target : Address) :
      Change j (j.destroy a target x)

variable {db : Database}

def Alters {α : Type} (db : Database) (x : Loading α) (j : Journal) : Prop :=
  ∃ i, Looks db j i ∧
    match x j with
    | .ok _ k => k = i ∨ Change i k
    | .error _ k => k = i

theorem Alters.left {α : Type} {x : Loading α} {j : Journal} (h : Alters db x j) :
    ∃ i, Looks db j i ∧ (leftBy x j = i ∨ Change i (leftBy x j)) := by
  obtain ⟨i, hji, hi⟩ := h
  refine ⟨i, hji, ?_⟩
  cases hx : x j with
  | ok a k =>
    rw [hx] at hi
    rw [leftBy_eq_of_ok hx]
    exact hi
  | error o k =>
    rw [hx] at hi
    rw [leftBy_eq_of_error hx]
    exact .inl hi

theorem Alters.bind {α β : Type} {x : Loading α} {f : α → Loading β} {j : Journal}
    {Q : α → Journal → Prop} (hx : Shows db x j Q) (hf : ∀ a k, Q a k → Alters db (f a) k) :
    Alters db (x >>= f) j := by
  simp only [Alters, Bind.bind, EStateM.bind]
  cases h : x j with
  | error outage k => exact ⟨k, hx.error h, rfl⟩
  | ok a k =>
    obtain ⟨hjk, hq⟩ := hx.ok h
    obtain ⟨i, hki, hi⟩ := hf a k hq
    exact ⟨i, hjk.trans hki, hi⟩

theorem Alters.pure {α : Type} (a : α) (j : Journal) : Alters db (pure a : Loading α) j :=
  ⟨j, .refl, .inl rfl⟩

theorem Alters.change {α : Type} {f : Journal → Journal} {j : Journal} (h : Change j (f j)) (a : α) :
    Alters db (do modify f; return a : Loading α) j :=
  ⟨j, .refl, .inr h⟩

theorem writeSlot_alters (a : Address) (key new : Word) (j : Journal) :
    Alters db (writeSlot db a key new) j := by
  apply Alters.bind (readSlot_shows a key j)
  rintro v k ⟨x, hx, hv⟩
  apply Alters.bind .get
  rintro _ k ⟨rfl, rfl⟩
  by_cases hn : v.value = new
  · simp only [hn, ne_eq, not_true_eq_false, if_false]
    exact .pure _ _
  · simp only [hn, ne_eq, not_false_eq_true, if_true]
    exact .change (.slot hx hv new) _

theorem selfDestruct_eq (a target : Address) :
    selfDestruct db a target = do
      let found ← loadExistence db target
      let x ← loadAccount db a
      modify fun j => j.destroy a target x.value
      return ⟨⟨x.value.info.balance != 0, !found.absent, x.value.flags.destroyed⟩, found.cold⟩ := by
  unfold selfDestruct
  congr 1
  funext found
  congr 1
  funext x
  by_cases h : a = target
  · simp only [h, ne_eq, not_true_eq_false, if_false, destroy]
    rfl
  · simp only [h, ne_eq, not_false_eq_true, if_true, destroy]
    rfl

theorem selfDestruct_eq_ok {a target : Address} {j k : Journal} {found : Loaded Destruction}
    (h : selfDestruct db a target j = .ok found k) :
    ∃ i x, Looks db j i ∧ i.accounts[a]? = some x ∧ (i.accounts[target]?).isSome ∧
      found.value.again = x.flags.destroyed ∧ k = i.destroy a target x := by
  have hexistence : Shows db (loadExistence db target) j _ := loadExistence_shows target j
  rw [selfDestruct_eq] at h
  simp only [bind, EStateM.bind] at h
  cases hfound : loadExistence db target j with
  | error outage i =>
    rw [hfound] at h
    cases h
  | ok existence i =>
    rw [hfound] at h
    obtain ⟨hji, htarget⟩ := hexistence.ok hfound
    have hload : Shows db (loadAccount db a) i _ := loadAccount_shows a i
    cases hx : loadAccount db a i with
    | error outage l =>
      simp only [hx] at h
      cases h
    | ok x l =>
      simp only [hx] at h
      cases h
      obtain ⟨hil, hloaded⟩ := hload.ok hx
      exact ⟨l, x.value, hji.trans hil, hloaded, Looks.loaded hil htarget, rfl, rfl⟩

theorem selfDestruct_alters (a target : Address) (j : Journal) :
    Alters db (selfDestruct db a target) j := by
  rw [selfDestruct_eq]
  apply Alters.bind (loadExistence_shows target j)
  intro found k _
  refine Alters.bind (loadAccount_shows a k) ?_
  intro x l hx
  exact .change (.destroy hx target) _

theorem selfDestruct_left (db : Database) (a target : Address) (j : Journal) :
    ∃ i, Looks db j i ∧ (leftBy (selfDestruct db a target) j = i ∨
      ∃ x, i.accounts[a]? = some x ∧ (i.accounts[target]?).isSome ∧
        leftBy (selfDestruct db a target) j = i.destroy a target x) := by
  obtain ⟨i, hlooks, hi⟩ : Alters db (selfDestruct db a target) j := selfDestruct_alters a target j
  cases hdestroy : selfDestruct db a target j with
  | ok found k =>
    obtain ⟨i, x, hlooks, hx, htarget, -, rfl⟩ := selfDestruct_eq_ok hdestroy
    rw [leftBy_eq_of_ok hdestroy]
    exact ⟨i, hlooks, .inr ⟨x, hx, htarget, rfl⟩⟩
  | error outage k =>
    rw [hdestroy] at hi
    rw [leftBy_eq_of_error hdestroy]
    exact ⟨i, hlooks, .inl hi⟩

theorem touch_eq (j : Journal) (a : Address) :
    j.touch a = { j with accounts := (j.touch a).accounts, entries := (j.touch a).entries } := by
  unfold touch
  split
  · split <;> rfl
  · rfl

theorem touch_hardfork (j : Journal) (a : Address) : (j.touch a).hardfork = j.hardfork := by
  rw [touch_eq]

theorem touch_logs (j : Journal) (a : Address) : (j.touch a).logs = j.logs := by
  rw [touch_eq]

theorem touch_refund (j : Journal) (a : Address) : (j.touch a).refund = j.refund := by
  rw [touch_eq]

theorem touch_lookups (j : Journal) (a : Address) : (j.touch a).lookups = j.lookups := by
  rw [touch_eq]

/-- Touching sets a flag, and changes nothing else even of accounts that are not loaded. -/
theorem touch_accounts (j : Journal) (a : Address) :
    (j.touch a).accounts =
      j.accounts.modify a fun x => { x with flags := { x.flags with touched := true } } := by
  unfold touch
  split
  · rename_i x hx
    split
    · rename_i ht
      refine (modify_eq_self _ _ ?_).symm
      intro y hy
      rw [hx] at hy
      cases hy
      simp [← ht]
    · rfl
  · rename_i hx
    refine (modify_eq_self _ _ ?_).symm
    intro y hy
    simp [hx] at hy

theorem touch_extends (j : Journal) (a : Address) : j.Extends (j.touch a) := by
  unfold touch
  split
  · rename_i x hx
    split
    · exact .refl j
    · rename_i ht
      refine .of_undo (.touched a) rfl rfl (List.suffix_refl _) rfl rfl ?_
      simp only [note, update, modify_modify]
      apply alike_modify_of_eq_some hx
      simp only [Bool.not_eq_true] at ht
      simp [← ht]
  · exact .refl j

/-- Touching and a change that concerns no flag that touching sets may trade places. -/
theorem touch_update (j : Journal) (a b : Address) {f : Account → Account}
    (hf : ∀ x, (f x).flags.touched = x.flags.touched)
    (hc : ∀ x : Account, { f x with flags := { (f x).flags with touched := true } } =
      f { x with flags := { x.flags with touched := true } }) :
    (j.update a f).touch b = (j.touch b).update a f := by
  unfold touch
  by_cases hab : a = b
  · subst hab
    cases hx : j.accounts[a]? with
    | none => simp [update, hx]
    | some x =>
      by_cases ht : x.flags.touched = true
      · simp [update, hx, hf, ht]
      · simp only [Bool.not_eq_true] at ht
        simp [update, note, hx, hf, ht, modify_modify, hc]
  · cases hx : j.accounts[b]? with
    | none => simp [update, getElem?_modify, hab, hx]
    | some x =>
      by_cases ht : x.flags.touched = true
      · simp [update, getElem?_modify, hab, hx, ht]
      · simp only [Bool.not_eq_true] at ht
        simp [update, note, getElem?_modify, hab, hx, ht, modify_comm _ hab]

def rebalance (j : Journal) (a : Address) (f : Word → Word) : Journal :=
  j.update a fun x => { x with info := { x.info with balance := f x.info.balance } }

def emptied (j : Journal) (a : Address) : Journal :=
  j.update a fun x =>
    { x with info := { x.info with balance := 0 }, flags := { x.flags with destroyed := true } }

theorem destroy_self (j : Journal) (a : Address) (x : Account) :
    j.destroy a a x =
      (j.emptied a).note (.destroyed a a x.flags.destroyed x.info.balance) := by
  simp only [destroy, ne_eq, not_true_eq_false, if_false, emptied]

theorem destroy_of_ne (j : Journal) {a target : Address} (h : a ≠ target) (x : Account) :
    j.destroy a target x =
      (((j.emptied a).touch target).rebalance target (· + x.info.balance)).note
        (.destroyed a target x.flags.destroyed x.info.balance) := by
  simp only [destroy, ne_eq, h, not_false_eq_true, if_true, emptied, rebalance]

theorem touch_emptied (j : Journal) (a b : Address) :
    (j.emptied a).touch b = (j.touch b).emptied a := by
  unfold emptied
  rw [touch_update]
  · intro x
    rfl
  · intro x
    rfl

theorem destroy_extends {j : Journal} {a : Address} {x : Account} (hx : j.accounts[a]? = some x)
    (target : Address) : j.Extends (j.destroy a target x) := by
  by_cases hat : a = target
  · subst hat
    rw [destroy_self]
    refine .of_undo (.destroyed a a x.flags.destroyed x.info.balance) rfl rfl
      (List.suffix_refl _) rfl rfl ?_
    simp only [note, emptied, update, if_true, modify_modify]
    apply alike_modify_of_eq_some hx
    simp [Account.bare]
  · rw [destroy_of_ne j hat, touch_emptied]
    refine (touch_extends j target).trans ?_
    have hx' : (j.touch target).accounts[a]? = some x := by
      rw [touch_accounts, getElem?_modify, if_neg (Ne.symm hat), hx]
    refine .of_undo (.destroyed a target x.flags.destroyed x.info.balance) rfl rfl
      (List.suffix_refl _) rfl rfl ?_
    simp only [note, emptied, rebalance, update, if_neg hat]
    rw [modify_comm _ (Ne.symm hat), modify_modify, modify_modify]
    -- The receiver gives back what it got, and then the account gets its balance again.
    refine .trans (alike_modify_self _ _ ?_) (alike_modify_of_eq_some hx' ?_)
    · intro y _
      simp only [Account.bare, BitVec.add_sub_cancel]
    · simp [Account.bare]

theorem destroy_refund (j : Journal) (a target : Address) (x : Account) :
    (j.destroy a target x).refund = j.refund := by
  by_cases hat : a = target
  · subst hat
    rw [destroy_self]
    rfl
  · rw [destroy_of_ne j hat]
    exact touch_refund (j.emptied a) target

theorem Change.extends {j k : Journal} (h : Change j k) : j.Extends k := by
  cases h with
  | @slot a x key present loaded slot new =>
    refine .of_undo (.slotChanged a key (some present)) rfl rfl (List.suffix_refl _) rfl rfl ?_
    simp only [note, update, modify_modify]
    apply alike_modify_of_eq_some loaded
    have hs : (x.slots.insert key new).insert key present = x.slots := by
      apply Std.ExtTreeMap.ext_getElem?
      intro key'
      simp only [Std.ExtTreeMap.getElem?_insert, Std.LawfulEqCmp.compare_eq_iff_eq]
      split
      · rename_i hk
        rw [← hk, slot]
      · rfl
    rw [hs]
  | destroy loaded target => exact destroy_extends loaded target

theorem Change.refund {j k : Journal} (h : Change j k) : k.refund = j.refund := by
  cases h with
  | slot loaded slot new => rfl
  | destroy loaded target => exact destroy_refund j _ target _

theorem log_extends (j : Journal) (l : Log) : j.Extends (j.log l) :=
  .of_alike rfl rfl (List.suffix_cons l j.logs) rfl (Alike.refl _)

theorem recordRefund_error {j : Journal} {amount : Int} {e : Fault}
    (h : j.recordRefund amount = .error e) : e = .overflow := by
  have hadd := Except.map_eq_error h
  unfold Counter.add at hadd
  split at hadd
  · cases hadd
  · exact (Except.error.inj hadd).symm

theorem recordRefund_eq_ok {j k : Journal} {amount : Int} (h : j.recordRefund amount = .ok k) :
    k = { j with refund := j.refund + amount } := by
  obtain ⟨r, hr, rfl⟩ := Except.map_eq_ok h
  unfold Counter.add at hr
  split at hr
  · cases hr
    rfl
  · cases hr

theorem recordRefund_extends {j k : Journal} {amount : Int} (h : j.recordRefund amount = .ok k) :
    j.Extends k := by
  rw [recordRefund_eq_ok h]
  exact .of_alike rfl rfl (List.suffix_refl _) rfl (Alike.refl _)

theorem setCode_extends (j : Journal) (a : Address) (code : Bytes)
    (hc : ∀ x, j.accounts[a]? = some x → x.info.codeHash = emptyCodeHash) :
    j.Extends (j.setCode a code) := by
  unfold setCode
  split
  · refine (touch_extends j a).trans ?_
    refine .of_undo (.codeSet a) rfl rfl (List.suffix_refl _) rfl rfl ?_
    simp only [note, update, modify_modify]
    refine alike_modify_self _ _ ?_
    intro y hy
    rw [touch_accounts, getElem?_modify, if_pos rfl, Option.map_eq_some_iff] at hy
    obtain ⟨x, hx, rfl⟩ := hy
    simp [Account.bare, AccountInfo.withCode, hc x hx]
  · exact .refl j

def raised (j : Journal) (a : Address) : Journal :=
  ((j.touch a).note (.nonceRaised a)).update a fun x =>
    { x with info := { x.info with nonce := x.info.nonce + 1 } }

theorem raiseNonce_eq_some {j k : Journal} {a : Address} {n : Nat}
    (h : j.raiseNonce a = some (n, k)) :
    k = j.raised a ∧ ∃ x, j.accounts[a]? = some x ∧ n = x.info.nonce + 1 := by
  unfold raiseNonce at h
  split at h
  · rename_i x hx
    split at h
    · cases h
    · simp only [Option.some.injEq, Prod.mk.injEq] at h
      obtain ⟨rfl, rfl⟩ := h
      exact ⟨rfl, x, hx, rfl⟩
  · cases h

theorem raised_extends (j : Journal) (a : Address) : j.Extends (j.raised a) := by
  refine (touch_extends j a).trans ?_
  let m := (j.touch a).accounts
  have hu : undo (m.modify a fun x => { x with info := { x.info with nonce := x.info.nonce + 1 } })
      (.nonceRaised a) = .ok (m.modify a fun x => x) := by
    simp only [undo, getElem?_modify, if_true]
    cases hm : m[a]? with
    | none =>
      -- Of an account that is not loaded neither the nonce is raised nor the raise undone.
      simp only [Option.map_none]
      rw [modify_eq_self, modify_eq_self]
      · simp [hm]
      · simp [hm]
    | some x => simp [modify_modify]
  refine .of_undo (.nonceRaised a) rfl rfl (List.suffix_refl _) rfl hu ?_
  exact alike_modify_self _ _ fun _ _ => rfl

theorem raiseNonce_extends {j k : Journal} {a : Address} {n : Nat}
    (h : j.raiseNonce a = some (n, k)) : j.Extends k := by
  obtain ⟨rfl, -⟩ := raiseNonce_eq_some h
  exact raised_extends j a

def opened (j : Journal) (a : Address) : Journal :=
  ((j.deeper.note (.created a)).update a fun x =>
    { x with
      flags := { x.flags with created := true }
      info := { x.info with
        code := none
        nonce := if j.clearsEmpty then 1 else x.info.nonce } }).touch a

/-- An account can be created if it is loaded and has neither code nor a nonce. -/
theorem createCheckpoint_eq_ok {j k : Journal} {a : Address} {mark : Checkpoint}
    (h : j.createCheckpoint a = .ok (mark, k)) :
    mark = j.mark ∧ k = j.opened a ∧
      ∃ x, j.accounts[a]? = some x ∧ x.info.codeHash = emptyCodeHash ∧ x.info.nonce = 0 := by
  unfold createCheckpoint at h
  split at h
  · cases h
  · rename_i x hx
    split at h
    · cases h
    · rename_i hfree
      simp only [not_or, ne_eq, Decidable.not_not] at hfree
      simp only [Except.ok.injEq, Prod.mk.injEq] at h
      obtain ⟨rfl, rfl⟩ := h
      refine ⟨rfl, ?_, x, hx, hfree⟩
      have hs : (((j.checkpoint.2.note (.created a)).update a fun x =>
          { x with
            flags := { x.flags with created := true }
            info := { x.info with code := none } }).touch a).clearsEmpty = j.clearsEmpty := by
        unfold clearsEmpty
        rw [touch_hardfork]
        rfl
      rw [hs, opened]
      by_cases hc : j.clearsEmpty = true
      · rw [if_pos hc, ← touch_update]
        · simp [deeper, update, modify_modify, hc]
        · intro y
          rfl
        · intro y
          rfl
      · simp [deeper, hc]

/-- An account that is not loaded or not free is not created. -/
theorem createCheckpoint_eq_error {j : Journal} {a : Address} {status : Status}
    (h : j.createCheckpoint a = .error status) :
    status = .hostFailure ∨ status = .createCollision := by
  unfold createCheckpoint at h
  split at h
  · cases h
    exact .inl rfl
  split at h
  · cases h
    exact .inr rfl
  · cases h

theorem createCheckpoint_of_free {j : Journal} {a : Address} {x : Account}
    (hx : j.accounts[a]? = some x) (hcode : x.info.codeHash = emptyCodeHash)
    (hnonce : x.info.nonce = 0) : j.createCheckpoint a = .ok (j.mark, j.opened a) := by
  cases h : j.createCheckpoint a with
  | error status => simp [createCheckpoint, hx, hcode, hnonce] at h
  | ok p =>
    obtain ⟨hmark, hopened, -⟩ := createCheckpoint_eq_ok h
    rw [← hmark, ← hopened]

/-- A creation can be undone if the account was not created before and had no nonce. -/
theorem opened_extends {j : Journal} {a : Address} {x : Account} (hx : j.accounts[a]? = some x)
    (hn : x.info.nonce = 0) (hc : x.flags.created = false) :
    j.deeper.Extends (j.opened a) := by
  refine .trans ?_ (touch_extends _ a)
  refine .of_undo (.created a) rfl rfl (List.suffix_refl _) rfl rfl ?_
  simp only [note, update, modify_modify]
  apply alike_modify_of_eq_some hx
  simp [Account.bare, ← hn, ← hc]

def moved (j : Journal) (source target : Address) (value : Word) : Journal :=
  ((((j.touch source).touch target).rebalance source (· - value)).rebalance target (· + value)).note
    (.transferred source target value)

theorem moved_extends (j : Journal) (source target : Address) (value : Word) :
    j.Extends (j.moved source target value) := by
  refine (touch_extends j source).trans ((touch_extends _ target).trans ?_)
  refine .of_undo (.transferred source target value) rfl rfl (List.suffix_refl _) rfl rfl ?_
  simp only [moved, note, rebalance, update]
  by_cases hst : source = target
  · subst hst
    simp only [modify_modify]
    apply alike_modify_self _ _
    intro x _
    simp only [Account.bare, BitVec.sub_add_cancel, BitVec.add_sub_cancel]
  · rw [modify_comm _ (Ne.symm hst), modify_modify, modify_modify]
    refine .trans (alike_modify_self _ _ ?_) (alike_modify_self _ _ ?_)
    · intro x _
      simp only [Account.bare, BitVec.add_sub_cancel]
    · intro x _
      simp only [Account.bare, BitVec.sub_add_cancel]

theorem touch_rebalance (j : Journal) (a b : Address) (f : Word → Word) :
    (j.rebalance a f).touch b = (j.touch b).rebalance a f := by
  unfold rebalance
  rw [touch_update]
  · intro x
    rfl
  · intro x
    rfl

theorem touch_balance? (j : Journal) (a b : Address) : (j.touch a).balance? b = j.balance? b := by
  unfold balance?
  rw [touch_accounts, getElem?_modify]
  split
  · rename_i hab
    subst hab
    rw [Option.map_map]
    rfl
  · rfl

theorem rebalance_balance? (j : Journal) (a b : Address) (f : Word → Word) :
    (j.rebalance a f).balance? b = if a = b then (j.balance? b).map f else j.balance? b := by
  unfold balance? rebalance update
  rw [getElem?_modify]
  split
  · rename_i hab
    subst hab
    rw [Option.map_map, Option.map_map]
    rfl
  · rfl

theorem setBalance_eq_rebalance {j : Journal} {a : Address} {w : Word}
    (h : j.balance? a = some w) (f : Word → Word) : j.setBalance a (f w) = j.rebalance a f := by
  obtain ⟨x, hx, rfl⟩ := Option.map_eq_some_iff.1 h
  unfold setBalance rebalance update
  congr 1
  apply Std.ExtTreeMap.ext_getElem?
  intro b
  rw [getElem?_modify, getElem?_modify]
  split
  · rw [hx]
    rfl
  · rfl

theorem transfer_eq (source target : Address) (value : Word) (j : Journal) :
    transfer source target value j =
      match j.balance? source with
      | none => .error .hostFailure j
      | some funds =>
        if funds < value then .error .outOfFunds (j.touch source)
        else
          let i := (j.touch source).setBalance source (funds - value)
          match i.balance? target with
          | none => .error .hostFailure i
          | some held =>
            if held.uaddOverflow value then .error .balanceOverflow (i.touch target)
            else .ok () (((i.touch target).setBalance target (held + value)).note
              (.transferred source target value)) := by
  change (transfer source target value).run j = _
  simp only [transfer, EStateM.run_bind, EStateM.run_get]
  cases hs : j.balance? source with
  | none => rfl
  | some funds =>
    simp only [EStateM.run_bind, EStateM.run_modify]
    by_cases hf : funds < value
    · simp only [hf, if_true]
      rfl
    · simp only [hf, if_false, EStateM.run_bind, EStateM.run_modify, EStateM.run_get]
      cases ht : ((j.touch source).setBalance source (funds - value)).balance? target with
      | none => rfl
      | some held =>
        by_cases ho : held.uaddOverflow value = true
        · simp only [ho, if_true]
          rfl
        · simp only [ho]
          rfl

/-- Wherever a transfer ends, it has touched accounts, set balances, and noted that. -/
theorem transfer_rule {R : Journal → Journal → Prop} {source target : Address} {value : Word}
    (refl : ∀ j, R j j) (trans : ∀ {i j k}, R i j → R j k → R i k)
    (touch : ∀ j a, R j (j.touch a)) (setBalance : ∀ j a w, R j (j.setBalance a w))
    (note : ∀ j, R j (j.note (.transferred source target value))) (j : Journal) :
    R j (leftBy (transfer source target value) j) := by
  unfold leftBy
  rw [transfer_eq]
  cases j.balance? source with
  | none => exact refl j
  | some funds =>
    by_cases hfunds : funds < value
    · simp only [if_pos hfunds]
      exact touch j source
    · have hpaid : R j ((j.touch source).setBalance source (funds - value)) :=
        trans (touch j source) (setBalance _ _ _)
      simp only [if_neg hfunds]
      cases ((j.touch source).setBalance source (funds - value)).balance? target with
      | none => exact hpaid
      | some found =>
        by_cases hfound : found.uaddOverflow value = true
        · simp only [hfound, if_true]
          exact trans hpaid (touch _ target)
        · simp only [hfound, Bool.false_eq_true, if_false]
          exact trans (trans hpaid (touch _ target)) (trans (setBalance _ target _) (note _))

/-- A transfer between loaded accounts fails if the payer has too little, or if the receiver is
another account and would have too much. -/
theorem transfer_loaded {source target : Address} {funds held : Word} {j : Journal}
    (hs : j.balance? source = some funds) (ht : j.balance? target = some held) (value : Word) :
    if funds < value then transfer source target value j = .error .outOfFunds (j.touch source)
    else if source ≠ target ∧ held.uaddOverflow value = true then
      ∃ k, transfer source target value j = .error .balanceOverflow k
    else transfer source target value j = .ok () (j.moved source target value) := by
  rw [transfer_eq, hs]
  by_cases hf : funds < value
  · simp only [hf, if_true]
  · have hle : value.toNat ≤ funds.toNat := BitVec.le_def.mp (BitVec.not_lt.mp hf)
    have hs' : (j.touch source).balance? source = some funds := by rw [touch_balance?, hs]
    have hi : (j.touch source).setBalance source (funds - value) =
        (j.touch source).rebalance source (· - value) := setBalance_eq_rebalance hs' (· - value)
    simp only [hf, if_false, hi, rebalance_balance?, touch_balance?, ht, touch_rebalance]
    by_cases hst : source = target
    · subst hst
      have hfh : funds = held := Option.some.inj (hs.symm.trans ht)
      subst hfh
      have ho : (funds - value).uaddOverflow value = false := by
        rw [BitVec.uaddOverflow, decide_eq_false_iff_not, BitVec.toNat_sub_of_le hle]
        omega
      have hb : (((j.touch source).touch source).rebalance source (· - value)).balance? source =
          some (funds - value) := by
        rw [rebalance_balance?, if_pos rfl, touch_balance?, touch_balance?, hs]
        rfl
      simp only [if_true, Option.map_some, ho, ne_eq, not_true_eq_false, false_and, if_false,
        moved, ← setBalance_eq_rebalance hb (· + value)]
      rfl
    · have hb : (((j.touch source).touch target).rebalance source (· - value)).balance? target =
          some held := by
        rw [rebalance_balance?, if_neg hst, touch_balance?, touch_balance?, ht]
      simp only [hst, if_false, ne_eq, not_false_eq_true, true_and]
      by_cases ho : held.uaddOverflow value = true
      · simp only [ho, if_true]
        exact ⟨_, rfl⟩
      · simp only [ho, moved, ← setBalance_eq_rebalance hb (· + value)]
        rfl

theorem transfer_missing {source target : Address} {j : Journal}
    (h : j.balance? source = none ∨ j.balance? target = none) (value : Word) :
    transfer source target value j = .error .outOfFunds (j.touch source) ∨
      ∃ k, transfer source target value j = .error .hostFailure k := by
  rw [transfer_eq]
  cases hs : j.balance? source with
  | none => exact .inr ⟨_, rfl⟩
  | some funds =>
    have ht : j.balance? target = none := by simpa [hs] using h
    have hst : source ≠ target := by
      rintro rfl
      simp [hs] at ht
    have hs' : (j.touch source).balance? source = some funds := by rw [touch_balance?, hs]
    have hi : (j.touch source).setBalance source (funds - value) =
        (j.touch source).rebalance source (· - value) := setBalance_eq_rebalance hs' (· - value)
    by_cases hf : funds < value
    · left
      simp only [hf, if_true]
    · simp only [hf, if_false, hi, rebalance_balance?, touch_balance?, ht, hst]
      exact .inr ⟨_, rfl⟩

theorem transfer_extends (source target : Address) (value : Word) (j : Journal) :
    match transfer source target value j with
    | .ok _ k => j.Extends k
    | .error e k => e = .balanceOverflow ∨ e = .hostFailure ∨ j.Extends k := by
  cases hs : j.balance? source with
  | none =>
    obtain h | ⟨k, h⟩ := transfer_missing (.inl hs) value
    · rw [h]
      exact .inr (.inr (touch_extends j source))
    · rw [h]
      exact .inr (.inl rfl)
  | some funds =>
    cases ht : j.balance? target with
    | none =>
      obtain h | ⟨k, h⟩ := transfer_missing (.inr ht) value
      · rw [h]
        exact .inr (.inr (touch_extends j source))
      · rw [h]
        exact .inr (.inl rfl)
    | some held =>
      have h := transfer_loaded hs ht value
      split at h
      · rw [h]
        exact .inr (.inr (touch_extends j source))
      · split at h
        · obtain ⟨k, h⟩ := h
          rw [h]
          exact .inl rfl
        · rw [h]
          exact moved_extends j source target value

end MeteredVM.Journal
