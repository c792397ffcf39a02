import MeteredVM.Proofs.Session.Scene

namespace MeteredVM

open Journal Relation

namespace Journal

variable {db : Database} {K : Set (Address × Nat)} {i j k : Journal}

def Grows (db : Database) (K : Set (Address × Nat)) (j k : Journal) : Prop :=
  j.Extends k ∧ j.Progress db K k

theorem Grows.refl (j : Journal) : j.Grows db K j := ⟨.refl j, .refl j⟩

theorem Grows.trans (h : i.Grows db K j) (h' : j.Grows db K k) : i.Grows db K k :=
  ⟨h.1.trans h'.1, h.2.trans h'.2⟩

theorem Looks.grows (h : Looks db j k) : j.Grows db K k := ⟨h.extends, h.progress⟩

theorem Restored.grows (h : Restored db j k) : j.Grows db K k :=
  ⟨h.extends, .of_view h.others.1 h.view⟩

theorem Alteration.grows (h : Alteration db j k) : j.Grows db K k := by
  refine ⟨h.extends, ?_⟩
  cases h with
  | change looks change => exact looks.progress.trans change.progress
  | log l => exact .of_view rfl rfl
  | refund recorded =>
    obtain ⟨r, -, rfl⟩ := Except.map_eq_ok recorded
    exact .of_view rfl rfl

theorem deeper_progress (j : Journal) : j.Progress db K j.deeper := .of_view rfl rfl

theorem commit_progress (h : j.commit = .ok k) : j.Progress db K k := by
  rw [commit_eq_ok h]
  exact .of_view rfl rfl

theorem PaidCall.progress {r : CallRequest} (h : j.PaidCall db r k) : j.Progress db K k := by
  obtain ⟨l, hlooks, hpaid⟩ := h
  exact hlooks.progress.trans ((touch_progress l r.target).trans hpaid.progress)

theorem KeptCall.grows {r : CallRequest} (h : j.KeptCall db (Grows db K) r k) :
    j.Grows db K k := by
  obtain ⟨i, l, hpaid, ⟨hextends, hran⟩, hcommit⟩ := h
  refine ⟨(hpaid.extends.trans hextends).committed hcommit, ?_⟩
  exact (deeper_progress j).trans (hpaid.progress.trans (hran.trans (commit_progress hcommit)))

theorem Counted.progress {creator : Address} {n : Nat} (h : j.Counted db creator n k) :
    j.Progress db K k := by
  obtain ⟨i, l, hi, hl, hk⟩ := h
  exact hi.progress.trans ((raiseNonce_progress hl).trans hk.progress)

theorem Uncreated.grows {creator : Address} {address : Option Address}
    (h : j.Uncreated db creator address k) : j.Grows db K k := by
  refine ⟨h.extends, ?_⟩
  cases address with
  | none => exact Looks.progress h
  | some a =>
    obtain ⟨n, l, hl, hk⟩ := h
    exact hl.progress.trans (.of_view hk.hardfork hk.view)

end Journal

namespace Executor

variable {x : Executor} {K : Set (Address × Nat)} {room n : Nat} {r : CreateRequest} {s : Session}
  {address : Address} {k : Journal}

theorem host_acts_grows {inner : Option (Host Session)} {i : Invocation} {s t : Session}
    (h : (x.host inner).Acts i s t) : s.journal.Grows x.database K t.journal := by
  induction h with
  | refl => exact .refl _
  | tail _ hact ih =>
    obtain hlooks | ⟨-, halters⟩ := host_act hact
    · exact ih.trans (Looks.grows hlooks)
    · exact ih.trans halters.grows

section Creation

variable (hinj : ContractAddress.Distinct K)
  (hc : Scene.Valid x K ⟨room, .create r, s⟩)
  (h : x.Claims r (s.noting (.createOpened · r.creator r.gasLimit)) n address k)

include hc h

/-- Before Spurious Dragon the address of a creation comes from its creator and nonce. -/
theorem Claims.derived (hclears : s.journal.clearsEmpty = false) :
    (r.creator, n) ∈ K ∧ ContractAddress.ofNonce r.creator n = address := by
  have hunsalted : r.salt = none := by
    cases hsalt : r.salt with
    | none => rfl
    | some salt =>
      have hsince := of_decide_eq_true (hc.proper.2 (by rw [hsalt]; rfl))
      rw [clearsEmpty, hc.hardfork] at hclears
      exact absurd (Nat.le_trans (by decide) hsince) (of_decide_eq_false hclears)
  refine ⟨?_, ?_⟩
  · obtain ⟨t, ht⟩ := h.counts
    exact hc.creations (creations_of_counts (.intro hunsalted ht))
  · rw [h.address_eq, createdAddress, hunsalted]

omit hc in
theorem Claims.nonce_eq_zero : (k.view x.database address).nonce = 0 := by
  obtain ⟨y, hy, -, hnonce⟩ := h.free
  rw [view_of_loaded hy]
  exact hnonce

omit hc in
theorem Claims.loaded : (k.accounts[address]?).isSome := by
  obtain ⟨y, hy, -⟩ := h.free
  exact Option.isSome_of_eq_some hy

omit hc in
theorem Claims.created : ((k.opened address).view x.database address).created = true ∧
    ((k.opened address).view x.database address).codeHash = emptyCodeHash := by
  have horigin : ((k.opened address).view x.database address).origin = _ :=
    origin_opened h.loaded address
  rw [if_pos rfl] at horigin
  simp only [AccountView.origin, Prod.mk.injEq] at horigin
  obtain ⟨y, hy, hcode, -⟩ := h.free
  refine ⟨horigin.2.2, horigin.2.1.trans ?_⟩
  rw [view_of_loaded hy]
  exact hcode

include hinj

theorem Claims.not_created : (k.view x.database address).created = false := by
  have hcounted : s.journal.Counted x.database r.creator n k := h.counted
  have hsound : s.journal.Sound x.database K := hc.sound
  -- Counting created nothing, so the account may be looked up before it.
  have hbefore : (s.journal.view x.database address).created = false := by
    refine hsound.not_created hinj ?_ fun hclears => ?_
    · have hmono := (hcounted.progress (K := K)).nonce address
      have hzero := h.nonce_eq_zero
      omega
    · obtain ⟨hK, haddress⟩ := h.derived hc hclears
      rw [hcounted.nonce] at hK haddress
      exact ⟨r.creator, hK, haddress⟩
  rw [hcounted.view]
  split
  · exact hbefore
  · exact hbefore

theorem Claims.opens : k.Progress x.database K (k.opened address) := by
  have hcounted : s.journal.Counted x.database r.creator n k := h.counted
  refine opened_progress h.loaded (h.not_created hinj hc) h.nonce_eq_zero fun hclears => ?_
  rw [clearsEmpty_congr hcounted.extends.hardfork] at hclears
  obtain ⟨hK, haddress⟩ := h.derived hc hclears
  refine ⟨r.creator, n, hK, haddress, ?_⟩
  rw [hcounted.view, if_pos rfl, hcounted.nonce]
  exact Nat.lt_succ_self _

theorem Claims.progress : s.journal.Progress x.database K (k.opened address) := by
  have hcounted : s.journal.Counted x.database r.creator n k := h.counted
  exact hcounted.progress.trans (h.opens hinj hc)

end Creation

theorem grants (hinj : ContractAddress.Distinct K)
    (hc : Scene.Valid x K ⟨room, .create r, s⟩) :
    x.Grants r (s.noting (.createOpened · r.creator r.gasLimit)) := by
  intro n address k h
  have hfunded : s.journal.wealth x.database < 2 ^ 256 := hc.sound.funded
  have hwealth := (h.progress hinj hc).wealth
  exact ⟨h.not_created hinj hc, payable_of_wealth (Nat.lt_of_le_of_lt hwealth hfunded) _ _ _⟩

theorem Deployed.grows (hinj : ContractAddress.Distinct K)
    (hc : Scene.Valid x K ⟨room, .create r, s⟩) {j : Journal}
    (h : x.Deployed (Grows x.database K) r (s.noting (.createOpened · r.creator r.gasLimit)) j) :
    s.journal.Grows x.database K j := by
  obtain ⟨n, address, k, i, l, m, code, hclaims, hpaid, ⟨hextends, hran⟩, hcommit, rfl⟩ := h
  have hcounted : s.journal.Counted x.database r.creator n k := hclaims.counted
  have hnew := hclaims.not_created hinj hc
  have hopened : (k.opened address).Progress x.database K m :=
    hpaid.progress.trans (hran.trans (commit_progress hcommit))
  have hkm : k.Progress x.database K m := (hclaims.opens hinj hc).trans hopened
  have hkept : k.Extends m :=
    ((hclaims.opened_extends hnew).trans (hpaid.extends.trans hextends)).committed hcommit
  refine ⟨?_, hcounted.progress.trans (hkm.setCode hnew code)⟩
  refine hcounted.extends.trans (hkept.trans (setCode_extends m address code fun y hy => ?_))
  -- The init code could not deploy code at the account itself, as it was created already.
  obtain ⟨hcreated, hempty⟩ := hclaims.created
  have hcode := (hopened.created address hcreated).2
  rw [view_of_loaded hy, hempty] at hcode
  exact hcode

end Executor

end MeteredVM
