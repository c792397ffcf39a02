import MeteredVM.ContractAddress
import MeteredVM.Proofs.Journal.Wealth

namespace MeteredVM

open Accounts Relation

/-- No two of these creators and nonces lead to the same address. -/
def ContractAddress.Distinct (K : Set (Address × Nat)) : Prop := K.InjOn fun p => ofNonce p.1 p.2

def AccountView.origin (v : AccountView) : Nat × Hash × Bool := (v.nonce, v.codeHash, v.created)

namespace Journal

variable {db : Database} {K : Set (Address × Nat)} {i j k : Journal} {a : Address}

/-- A created account has a nonce, or before Spurious Dragon its creator has a larger one than when
it made the creation. -/
def Registered (db : Database) (K : Set (Address × Nat)) (j : Journal) (a : Address) : Prop :=
  if j.clearsEmpty then (j.view db a).nonce ≠ 0
  else ∃ c n, (c, n) ∈ K ∧ ContractAddress.ofNonce c n = a ∧ n < (j.view db c).nonce

/-- A later state of a transaction in which the creators and nonces of all creations are in `K`. -/
structure Progress (db : Database) (K : Set (Address × Nat)) (j k : Journal) : Prop where
  hardfork : k.hardfork = j.hardfork
  wealth : k.wealth db ≤ j.wealth db
  nonce (a : Address) : (j.view db a).nonce ≤ (k.view db a).nonce
  created (a : Address) (ha : (j.view db a).created = true) :
    (k.view db a).created = true ∧ (k.view db a).codeHash = (j.view db a).codeHash
  registered (a : Address) (ha : (k.view db a).created = true) :
    (j.view db a).created = true ∨ k.Registered db K a

theorem clearsEmpty_congr (h : k.hardfork = j.hardfork) : k.clearsEmpty = j.clearsEmpty := by
  rw [clearsEmpty, clearsEmpty, h]

theorem Registered.progress (h : j.Registered db K a) (hjk : j.Progress db K k) :
    k.Registered db K a := by
  have hclears := clearsEmpty_congr hjk.hardfork
  simp only [Registered, hclears] at h ⊢
  split
  · rename_i hc
    rw [if_pos hc] at h
    have hnonce := hjk.nonce a
    omega
  · rename_i hc
    rw [if_neg hc] at h
    obtain ⟨c, n, hK, hcn, hlt⟩ := h
    exact ⟨c, n, hK, hcn, Nat.lt_of_lt_of_le hlt (hjk.nonce c)⟩

theorem Progress.trans (hij : i.Progress db K j) (hjk : j.Progress db K k) : i.Progress db K k where
  hardfork := hjk.hardfork.trans hij.hardfork
  wealth := Nat.le_trans hjk.wealth hij.wealth
  nonce a := Nat.le_trans (hij.nonce a) (hjk.nonce a)
  created a ha := by
    obtain ⟨hj, hcode⟩ := hij.created a ha
    obtain ⟨hk, hcode'⟩ := hjk.created a hj
    exact ⟨hk, hcode'.trans hcode⟩
  registered a ha := by
    obtain hj | hk := hjk.registered a ha
    · obtain hi | hj := hij.registered a hj
      · exact .inl hi
      · exact .inr (hj.progress hjk)
    · exact .inr hk

theorem Progress.of_kept (hf : k.hardfork = j.hardfork) (hw : k.wealth db ≤ j.wealth db)
    (hn : ∀ a, (j.view db a).nonce ≤ (k.view db a).nonce)
    (hh : ∀ a, (k.view db a).codeHash = (j.view db a).codeHash)
    (hc : ∀ a, (k.view db a).created = (j.view db a).created) : j.Progress db K k where
  hardfork := hf
  wealth := hw
  nonce := hn
  created a ha := ⟨(hc a).trans ha, hh a⟩
  registered a ha := .inl ((hc a).symm.trans ha)

theorem Progress.of_origin (hf : k.hardfork = j.hardfork) (hw : k.wealth db ≤ j.wealth db)
    (ho : ∀ a, (k.view db a).origin = (j.view db a).origin) : j.Progress db K k := by
  simp only [AccountView.origin, Prod.mk.injEq] at ho
  exact .of_kept hf hw (fun a => Nat.le_of_eq (ho a).1.symm) (fun a => (ho a).2.1)
    fun a => (ho a).2.2

theorem Progress.of_view (hf : k.hardfork = j.hardfork) (hv : k.view db = j.view db) :
    j.Progress db K k :=
  .of_origin hf (Nat.le_of_eq (wealth_of_view hv)) fun a => by rw [hv]

theorem Progress.refl (j : Journal) : j.Progress db K j := .of_view rfl rfl

theorem Looks.progress (h : Looks db j k) : j.Progress db K k := .of_view h.others.1 h.view

theorem origin_touch (j : Journal) (a b : Address) :
    ((j.touch a).view db b).origin = (j.view db b).origin := by
  rw [view_touch]
  split <;> rfl

/-- A change that does not concern the origin of an account. -/
theorem origin_update (j : Journal) {f : Account → Account}
    (hf : ∀ x, ((f x).view db a).origin = (x.view db a).origin) (b : Address) :
    ((j.update a f).view db b).origin = (j.view db b).origin := by
  cases hx : j.accounts[a]? with
  | none => rw [view_of_accounts (update_of_absent hx f)]
  | some x =>
    rw [view_update hx]
    split
    · rename_i hab
      subst hab
      rw [view_of_loaded hx]
      exact hf x
    · rfl

theorem touch_progress (j : Journal) (a : Address) : j.Progress db K (j.touch a) :=
  .of_origin (touch_hardfork j a) (Nat.le_of_eq (wealth_touch db j a)) (origin_touch j a)

theorem Paid.progress {source target : Address} {value : Word}
    (h : j.Paid db source target value k) : j.Progress db K k := by
  refine .of_origin ?_ h.wealth_le fun a => ?_
  · cases h with
    | free => rfl
    | moved payer payee enough =>
      exact (touch_hardfork _ target).trans (touch_hardfork j source)
  · cases h with
    | free => rfl
    | moved payer payee enough =>
      have horigin : ∀ v : AccountView, v.untouched.origin = v.origin := fun _ => rfl
      rw [← horigin, view_moved payer payee]
      rfl

theorem origin_emptied (j : Journal) (a b : Address) :
    ((j.emptied a).view db b).origin = (j.view db b).origin := by
  unfold emptied
  refine origin_update j ?_ b
  intro x
  rfl

theorem origin_rebalance (j : Journal) (a : Address) (f : Word → Word) (b : Address) :
    ((j.rebalance a f).view db b).origin = (j.view db b).origin := by
  unfold rebalance
  refine origin_update j ?_ b
  intro x
  rfl

theorem origin_destroy (j : Journal) (a target : Address) (x : Account) (b : Address) :
    ((j.destroy a target x).view db b).origin = (j.view db b).origin := by
  by_cases hat : a = target
  · subst hat
    rw [destroy_self, view_note, origin_emptied]
  · rw [destroy_of_ne j hat, view_note, origin_rebalance, origin_touch, origin_emptied]

theorem destroy_hardfork (j : Journal) (a target : Address) (x : Account) :
    (j.destroy a target x).hardfork = j.hardfork := by
  by_cases hat : a = target
  · subst hat
    rw [destroy_self]
    rfl
  · rw [destroy_of_ne j hat]
    exact touch_hardfork _ target

theorem Change.origin (h : Change j k) (b : Address) :
    (k.view db b).origin = (j.view db b).origin := by
  cases h with
  | slot loaded slot new =>
    rw [view_note]
    refine origin_update j ?_ b
    intro x
    rfl
  | destroy loaded target => exact origin_destroy j _ target _ b

theorem Change.progress (h : Change j k) : j.Progress db K k := by
  have horigin : ∀ b, (k.view db b).origin = (j.view db b).origin := h.origin
  cases h with
  | slot loaded slot new =>
    refine .of_origin rfl (Nat.le_of_eq ?_) horigin
    rw [wealth_note]
    apply wealth_update_eq db
    intro x
    rfl
  | destroy loaded target =>
    exact .of_origin (destroy_hardfork j _ target _) (wealth_destroy_le db loaded target) horigin

theorem raiseNonce_progress {n : Nat} (h : j.raiseNonce a = some (n, k)) : j.Progress db K k := by
  have hview : ∀ b, k.view db b =
      if a = b then { j.view db b with nonce := (j.view db b).nonce + 1, touched := true }
      else j.view db b :=
    fun b => (view_raiseNonce h b).2
  apply Progress.of_kept (raiseNonce_extends h).hardfork
  · apply Nat.le_of_eq
    apply wealth_of_balance
    intro b
    rw [hview]
    split <;> rfl
  · intro b
    rw [hview]
    split
    · exact Nat.le_succ _
    · exact Nat.le_refl _
  · intro b
    rw [hview]
    split <;> rfl
  · intro b
    rw [hview]
    split <;> rfl

theorem wealth_opened (j : Journal) (a : Address) : (j.opened a).wealth db = j.wealth db := by
  rw [opened, wealth_touch]
  refine (wealth_update_eq db ?_).trans (wealth_of_view rfl)
  intro x
  rfl

theorem opened_hardfork (j : Journal) (a : Address) : (j.opened a).hardfork = j.hardfork := by
  rw [opened, touch_hardfork]
  rfl

theorem origin_opened (ha : (j.accounts[a]?).isSome) (b : Address) :
    ((j.opened a).view db b).origin =
      if a = b then (if j.clearsEmpty then 1 else (j.view db b).nonce, (j.view db b).codeHash, true)
      else (j.view db b).origin := by
  obtain ⟨x, hx⟩ := Option.isSome_iff_exists.mp ha
  have hdeeper : (j.deeper.note (.created a)).accounts[a]? = some x := hx
  rw [opened, origin_touch, view_update hdeeper]
  split
  · rename_i hab
    subst hab
    rw [view_of_loaded hx]
    rfl
  · rfl

/-- The creation of an account that was not created before is accounted for. -/
theorem opened_progress (ha : (j.accounts[a]?).isSome) (hnew : (j.view db a).created = false)
    (hnonce : (j.view db a).nonce = 0)
    (hK : j.clearsEmpty = false →
      ∃ c n, (c, n) ∈ K ∧ ContractAddress.ofNonce c n = a ∧ n < (j.view db c).nonce) :
    j.Progress db K (j.opened a) := by
  have horigin : ∀ b, ((j.opened a).view db b).origin = _ := origin_opened ha
  have hothers : ∀ b, a ≠ b → ((j.opened a).view db b).nonce = (j.view db b).nonce ∧
      ((j.opened a).view db b).codeHash = (j.view db b).codeHash ∧
      ((j.opened a).view db b).created = (j.view db b).created := by
    intro b hab
    have hb := horigin b
    rw [if_neg hab] at hb
    simpa only [AccountView.origin, Prod.mk.injEq] using hb
  have hself : ((j.opened a).view db a).nonce = (if j.clearsEmpty then 1 else 0) := by
    have hself := horigin a
    rw [if_pos rfl, hnonce] at hself
    exact congrArg Prod.fst hself
  have hmono : ∀ b, (j.view db b).nonce ≤ ((j.opened a).view db b).nonce := by
    intro b
    by_cases hab : a = b
    · subst hab
      rw [hnonce]
      exact Nat.zero_le _
    · rw [(hothers b hab).1]
  refine ⟨opened_hardfork j a, Nat.le_of_eq (wealth_opened j a), hmono, fun b hb => ?_, fun b hb => ?_⟩
  · have hab : a ≠ b := by
      rintro rfl
      rw [hnew] at hb
      cases hb
    rw [(hothers b hab).2.2]
    exact ⟨hb, (hothers b hab).2.1⟩
  · by_cases hab : a = b
    · subst hab
      -- Since Spurious Dragon the new nonce tells, before it the nonce of the creator.
      right
      have hclears := clearsEmpty_congr (opened_hardfork j a)
      simp only [Registered, hclears]
      split
      · rename_i hc
        rw [hself, if_pos hc]
        exact Nat.one_ne_zero
      · rename_i hc
        obtain ⟨c, n, hcn, hca, hlt⟩ := hK (Bool.eq_false_iff.mpr hc)
        exact ⟨c, n, hcn, hca, Nat.lt_of_lt_of_le hlt (hmono c)⟩
    · rw [(hothers b hab).2.2] at hb
      exact .inl hb

theorem view_setCode (j : Journal) (a : Address) (code : Bytes) (b : Address) :
    ((j.setCode a code).view db b).nonce = (j.view db b).nonce ∧
      ((j.setCode a code).view db b).created = (j.view db b).created ∧
      ((j.setCode a code).view db b).balance = (j.view db b).balance ∧
      (a ≠ b → ((j.setCode a code).view db b).codeHash = (j.view db b).codeHash) := by
  unfold setCode
  split
  · rename_i x hx
    have htouched : ((j.touch a).note (.codeSet a)).accounts[a]? = _ := touched_loaded hx
    rw [view_update htouched, view_note, view_touch]
    split
    · rename_i hab
      subst hab
      rw [view_of_loaded hx]
      exact ⟨rfl, rfl, rfl, fun h => absurd rfl h⟩
    · rename_i hab
      rw [if_neg fun h => hab h.1]
      exact ⟨rfl, rfl, rfl, fun _ => rfl⟩
  · exact ⟨rfl, rfl, rfl, fun _ => rfl⟩

theorem setCode_hardfork (j : Journal) (a : Address) (code : Bytes) :
    (j.setCode a code).hardfork = j.hardfork := by
  unfold setCode
  split
  · exact touch_hardfork j a
  · rfl

/-- Code is deployed at an account that was not created before. -/
theorem Progress.setCode (h : j.Progress db K k) (ha : (j.view db a).created = false)
    (code : Bytes) : j.Progress db K (k.setCode a code) := by
  have hnonce : ∀ b, ((k.setCode a code).view db b).nonce = (k.view db b).nonce :=
    fun b => (view_setCode k a code b).1
  have hcreated : ∀ b, ((k.setCode a code).view db b).created = (k.view db b).created :=
    fun b => (view_setCode k a code b).2.1
  have hbalance : ∀ b, ((k.setCode a code).view db b).balance = (k.view db b).balance :=
    fun b => (view_setCode k a code b).2.2.1
  have hregistered : ∀ b, k.Registered db K b → (k.setCode a code).Registered db K b := by
    intro b hb
    have hclears := clearsEmpty_congr (setCode_hardfork k a code)
    simpa only [Registered, hclears, hnonce] using hb
  refine ⟨(setCode_hardfork k a code).trans h.hardfork, ?_, fun b => ?_, fun b hb => ?_,
    fun b hb => ?_⟩
  · rw [wealth_of_balance hbalance]
    exact h.wealth
  · rw [hnonce]
    exact h.nonce b
  · have hab : a ≠ b := by
      rintro rfl
      rw [ha] at hb
      cases hb
    rw [hcreated, (view_setCode k a code b).2.2.2 hab]
    exact h.created b hb
  · rw [hcreated] at hb
    obtain hj | hk := h.registered b hb
    · exact .inl hj
    · exact .inr (hregistered b hk)

/-- The state is that of a transaction: all balances together are less than `2 ^ 256`, and created
accounts can not be created again. -/
structure Sound (db : Database) (K : Set (Address × Nat)) (j : Journal) : Prop where
  funded : j.wealth db < 2 ^ 256
  registered (a : Address) (ha : (j.view db a).created = true) : j.Registered db K a

theorem Sound.progress (h : j.Sound db K) (hjk : j.Progress db K k) : k.Sound db K := by
  refine ⟨Nat.lt_of_le_of_lt hjk.wealth h.funded, fun a ha => ?_⟩
  obtain hj | hk := hjk.registered a ha
  · exact (h.registered a hj).progress hjk
  · exact hk

/-- The address of a creation that is about to be made has not been created before. -/
theorem Sound.not_created (h : j.Sound db K)
    (hinj : ContractAddress.Distinct K) (hnonce : (j.view db a).nonce = 0)
    (hK : j.clearsEmpty = false → ∃ c, (c, (j.view db c).nonce) ∈ K ∧
      ContractAddress.ofNonce c (j.view db c).nonce = a) :
    (j.view db a).created = false := by
  rw [← Bool.not_eq_true]
  intro ha
  have hregistered := h.registered a ha
  simp only [Registered] at hregistered
  split at hregistered
  · exact hregistered hnonce
  · rename_i hc
    obtain ⟨c, hcK, hca⟩ := hK (Bool.eq_false_iff.mpr hc)
    obtain ⟨c', n, hnK, hna, hlt⟩ := hregistered
    -- It would be the same creator with the same nonce, but that has been raised since.
    have hsame := hinj hnK hcK (hna.trans hca.symm)
    rw [Prod.mk.injEq] at hsame
    obtain ⟨rfl, rfl⟩ := hsame
    exact Nat.lt_irrefl _ hlt

end Journal

end MeteredVM
