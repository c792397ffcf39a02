import MeteredVM.Proofs.Journal.Advance
import MeteredVM.Proofs.Session.Conservation
import MeteredVM.Proofs.Session.Deployment

namespace MeteredVM

open Journal Relation

namespace Journal

/-- Where value is accounted for and accounts are in order, both stay so, and the change can be undone. -/
def Proceeds (db : Database) (D : Set (Address × Bytes)) (j k : Journal) : Prop :=
  j.Exact db → j.Kempt db D → (k.Exact db ∧ k.Kempt db D) ∧ Advances db j k

variable {db : Database} {D : Set (Address × Bytes)} {i j k l m : Journal} {a : Address}
  {mark : Checkpoint}

namespace Proceeds

theorem refl (j : Journal) : Proceeds db D j j := fun hexact hkempt => ⟨⟨hexact, hkempt⟩, .refl j⟩

theorem trans (h : Proceeds db D i j) (h' : Proceeds db D j k) : Proceeds db D i k := by
  intro hexact hkempt
  obtain ⟨⟨hj, hjkempt⟩, hij⟩ := h hexact hkempt
  obtain ⟨hk, hjk⟩ := h' hj hjkempt
  exact ⟨hk, hij.trans hjk⟩

/-- A change in the course of which value stays accounted for. -/
theorem of_sustains (h : Sustains db j k) (kempt : j.Kempt db D → k.Kempt db D)
    (advances : Advances db j k) : Proceeds db D j k :=
  fun hexact hkempt => ⟨⟨(h hexact).1, kempt hkempt⟩, advances⟩

theorem of_eq (entries : k.entries = j.entries) (accounts : k.accounts = j.accounts) :
    Proceeds db D j k :=
  .of_sustains (.rests (.of_eq entries accounts)) (fun h => h.of_accounts accounts)
    (.of_eq entries accounts)

theorem deploy {code : Bytes} (stored : (a, code) ∈ D)
    (opened : j.createCheckpoint a = .ok (mark, k)) (ran : Proceeds db D k l)
    (committed : l.commit = .ok m) (creates : Sustains db j.deeper k)
    (deploys : Sustains db m (m.setCode a code)) : Proceeds db D j (m.setCode a code) := by
  intro hexact hkempt
  have hbegun : j.deeper.Exact db := hexact.rests (.of_eq rfl rfl)
  have hk : k.Exact db := (creates hbegun).1
  have hopened : Advances db j.deeper k := .create opened
  have hrestores : Aspect.worth.Restores k l → Aspect.worth.Restores j (m.setCode a code) :=
    fun h => .deploy opened h committed code
  obtain ⟨-, rfl, x, hx, hcode, -⟩ := createCheckpoint_eq_ok opened
  have hnone : (fresh db a).info.codeHash = emptyCodeHash := by
    by_contra known
    exact known (((hkempt a x hx).rooted known).symm.trans hcode)
  obtain ⟨⟨hl, hlkempt⟩, hran⟩ := ran hk (hkempt.opened hx hcode)
  have hm : m.Exact db := hl.rests (.commit committed)
  have hmkempt : m.Kempt db D := hlkempt.of_accounts (by rw [commit_eq_ok committed])
  have hdeeper : Advances db j j.deeper := .of_eq rfl rfl
  have hkept : Advances db j m := (hdeeper.trans hopened).trans (hran.trans (.commit committed))
  exact ⟨⟨(deploys hm).1, hmkempt.setCode stored hnone⟩, hkept.setCode (hrestores hran.restores)⟩

theorem undone (h : Proceeds db D j.deeper k) (reverted : k.revert j.mark = .ok l) :
    Proceeds db D j l := by
  intro hexact hkempt
  have hdeeper : j.deeper.Exact db := hexact.rests (.of_eq rfl rfl)
  obtain ⟨⟨hk, hkkempt⟩, hadvances⟩ := h hdeeper (hkempt.of_accounts rfl)
  exact ⟨⟨hk.revert reverted, hadvances.kempt reverted hkempt hkkempt⟩, (hadvances.undone reverted).1⟩

end Proceeds

end Journal

theorem TransferPolicy.Sound.keepsTouched {p : TransferPolicy} (hp : p.Sound)
    (source target : Address) (value : Word) (j : Journal) :
    j.KeepsTouched (leftBy (p.move source target value) j) := by
  obtain rfl | rfl := hp
  · exact .transfer source target value j
  · exact .refl j

namespace Executor

variable {x : Executor} {D : Set (Address × Bytes)} {inner : Option (Host Session)} {i : Invocation}
  {s t : Session} {b c d : Scene} (hp : x.transfers.Sound) (hfunded : x.database.wealth < 2 ^ 256)
  (hdb : x.database.Candid)

section Pact

include hp hfunded

theorem move_proceeds {source target : Address} {value : Word} {j : Journal}
    (payer : (j.accounts[source]?).isSome) (payee : (j.accounts[target]?).isSome) :
    Proceeds x.database D j (leftBy (x.transfers.move source target value) j) := by
  intro hexact hkempt
  have hmove := hp.move payer payee (hexact.payable hfunded source target value)
  have hsustained : (leftBy (x.transfers.move source target value) j).Exact x.database :=
    (move_sustains hp hfunded payer payee hexact).1
  suffices h : Ends (x.transfers.move source target value) j
      (fun _ k => k.Kempt x.database D ∧ Advances x.database j k)
      (fun _ k => k.Kempt x.database D ∧ Advances x.database j k) from
    ⟨⟨hsustained, h.left.1⟩, h.left.2⟩
  refine (hmove.refused fun _ k hk => ?_).imp fun _ k hk => ?_
  · subst hk
    exact ⟨hkempt.touch source, .touch j source⟩
  · exact ⟨hkempt.paid hk, .paid hk⟩

include hdb

theorem proceeds_pact :
    x.Pact Set.univ Set.univ D (Proceeds x.database D) (Proceeds x.database D) := by
  have charter : x.Charter Set.univ Set.univ (Sustains x.database) (Sustains x.database) :=
    (conservation_law hp hfunded).charter
  refine {
    refl := .refl
    trans := .trans
    weaken := id
    after := .trans
    looks := fun h => .of_sustains (.looks h) (fun hkempt => hkempt.looks hdb h) (.looks hdb h)
    touch := fun j a => .of_sustains (charter.touch j a) (fun hkempt => hkempt.touch a) (.touch j a)
    deeper := fun j => .of_eq rfl rfl
    commit := ?_
    raise := ?_
    create := ?_
    deploy := ?_
    pay := ?_
    refused := ?_
    undone := .undone }
  · intro j k committed
    rw [commit_eq_ok committed]
    exact .of_eq rfl rfl
  · intro j k a n _ raised
    have hsustains := charter.raise (Set.mem_univ a) raised
    obtain ⟨rfl, y, hy, -⟩ := raiseNonce_eq_some raised
    exact .of_sustains hsustains (fun hkempt => hkempt.raised (Option.isSome_of_eq_some hy))
      (.raised j a)
  · intro j k a mark _ opened
    have hsustains := charter.create (Set.mem_univ a) opened
    have hadvances : Advances x.database j.deeper k := .create opened
    obtain ⟨-, rfl, y, hy, hcode, -⟩ := createCheckpoint_eq_ok opened
    refine .of_sustains hsustains (fun hkempt => ?_) hadvances
    exact (hkempt.of_accounts (k := j) rfl).opened hy hcode
  · intro j k l m a mark code _ stored opened ran committed
    exact .deploy stored opened ran committed (charter.create (Set.mem_univ a) opened)
      (charter.setCode m (Set.mem_univ a) code)
  · intro j k source target value _ payer payee paid
    rw [← leftBy_eq_of_ok paid]
    exact move_proceeds hp hfunded payer payee
  · intro j k source target value status _ payer payee h
    rw [← leftBy_eq_of_error h]
    exact move_proceeds hp hfunded payer payee

end Pact

section Touched

include hp

theorem move_touches {source target : Address} {value : Word} :
    Ends (Session.move x.transfers source target value) s
      (fun _ t => s.journal.KeepsTouched t.journal) fun _ t => s.journal.KeepsTouched t.journal := by
  apply Session.move_rule
  exact Ends.of_left (P := s.journal.KeepsTouched) (hp.keepsTouched source target value s.journal)

theorem openCall_touches {r : CallRequest} :
    Yields (x.openCall r) s (fun _ => True) fun opened t =>
      ∀ mark, opened = .ok mark → t.journal.Touched r.target := by
  have hpay : ∀ s : Session, Ends (x.payCall r) s (fun _ _ => True)
      fun _ t => t.journal.Touched r.target := by
    intro s
    apply payCall_rule
    · exact fun _ _ => trivial
    · exact fun _ _ _ _ => trivial
    · intro l t hl ht payer payee
      have htouched : t.journal.Touched r.target := by
        rw [ht]
        refine touched_touch ?_
        rw [ht, loaded_touch] at payee
        exact payee
      exact ((move_touches hp).refused fun _ _ _ => trivial).imp fun _ u hkeeps => hkeeps _ htouched
  apply openCall_rule
  refine ((hpay _).refused fun _ _ _ => .any fun _ _ _ => ?_).imp fun _ _ ht _ _ => ht
  rintro _ ⟨⟩

theorem endowCreate_touches {r : CreateRequest} :
    Yields (x.endowCreate r) s (fun _ => True) fun endowed t =>
      ∀ p, endowed = .ok p → t.journal.Touched p.1 := by
  apply endowCreate_rule (openCreate_ends.refused fun _ _ _ => by rintro _ ⟨⟩)
  rintro p t - ⟨n, k, hclaims, -, ht⟩
  have htouched : t.journal.Touched p.1 := by
    obtain ⟨y, hy, -⟩ := hclaims.free
    rw [ht, Journal.opened]
    refine touched_touch ?_
    rw [Journal.update, loaded_modify]
    exact Option.isSome_of_eq_some hy
  refine ((move_touches hp).refused fun _ _ _ => .any fun _ _ _ => ?_).imp ?_
  · rintro _ u hkeeps _ ⟨⟩
    exact hkeeps _ htouched
  · rintro _ ⟨⟩

end Touched

section Act

include hfunded hdb

/-- What a frame does by itself, where the account is touched that it runs on. -/
theorem Acted.proceeds {j k : Journal} (touched : j.Touched i.address) (h : x.Acted i j k) :
    Proceeds x.database D j k := by
  have looked : ∀ {l : Journal}, Looks x.database j l → Proceeds x.database D j l :=
    fun h => .of_sustains (.looks h) (fun hkempt => hkempt.looks hdb h) (.looks hdb h)
  cases h with
  | looks looks => exact looked looks
  | destroy target writable =>
    obtain ⟨l, hlooks, hl | ⟨y, hy, payee, hl⟩⟩ :=
      selfDestruct_left x.database i.address target j
    · rw [hl]
      exact looked hlooks
    · rw [hl]
      have htouched : l.Touched i.address := KeepsTouched.looks hlooks _ touched
      exact (looked hlooks).trans (.of_sustains (destroy_sustains hfunded hy payee)
        (fun hkempt => hkempt.destroy htouched payee y) (.change (.destroy hy target)))
  | refund writable recorded =>
    rw [recordRefund_eq_ok recorded]
    exact .of_eq rfl rfl
  | log l writable => exact .of_eq rfl rfl

theorem act_proceeds (touched : s.journal.Touched i.address) (h : (x.host inner).Act i s t) :
    Proceeds x.database D s.journal t.journal := by
  obtain hacted | ⟨-, key, new, hwrote⟩ := host_wrote h
  · exact hacted.proceeds hfunded hdb touched
  · rw [hwrote]
    have looked : ∀ {l : Journal}, Looks x.database s.journal l →
        Proceeds x.database D s.journal l :=
      fun h => .of_sustains (.looks h) (fun hkempt => hkempt.looks hdb h) (.looks hdb h)
    obtain ⟨l, hlooks, hl | ⟨y, present, hy, hpresent, hl⟩⟩ :=
      writeSlot_left x.database i.address key new s.journal
    · rw [hl]
      exact looked hlooks
    · rw [hl]
      have htouched : l.Touched i.address := KeepsTouched.looks hlooks _ touched
      have hinsert : Facet.balance.Rests l (l.update i.address fun z =>
          { z with slots := z.slots.insert key new }) := .update l i.address fun _ => rfl
      have hrests : Facet.balance.Rests l (l.written i.address key present new) :=
        hinsert.trans (.note _ rfl)
      exact (looked hlooks).trans (.of_sustains (.rests hrests)
        (fun hkempt => hkempt.slot htouched key new _) (.change (.slot hy hpresent new)))

theorem acts_proceed (exact : s.journal.Exact x.database) (kempt : s.journal.Kempt x.database D)
    (touched : s.journal.Touched i.address) (h : (x.host inner).Acts i s t) :
    (t.journal.Exact x.database ∧ t.journal.Kempt x.database D) ∧
      Advances x.database s.journal t.journal := by
  induction h with
  | refl => exact ⟨⟨exact, kempt⟩, .refl _⟩
  | tail _ hact ih =>
    obtain ⟨⟨hexact, hkempt⟩, hadvances⟩ := ih
    obtain ⟨ht, hadvances'⟩ :=
      act_proceeds hfunded hdb (hadvances.touched _ touched) hact hexact hkempt
    exact ⟨ht, hadvances.trans hadvances'⟩

end Act

end Executor

def Activity.Active (j : Journal) : Activity → Prop
  | .call r | .callCode r _ => r.address = r.target ∨ j.Touched r.address
  | .create _ | .payment => True
  | .step f => j.Touched f.invocation.address

namespace Executor

variable {x : Executor} {D : Set (Address × Bytes)} {s t : Session} {b c d : Scene}

structure Tended (x : Executor) (D : Set (Address × Bytes)) (c : Scene) : Prop where
  exact : c.session.journal.Exact x.database
  kempt : c.session.journal.Kempt x.database D
  deploys : x.deployments c ⊆ D
  active : c.activity.Active c.session.journal

section Order

variable (hp : x.transfers.Sound) (hfunded : x.database.wealth < 2 ^ 256) (hdb : x.database.Candid)

include hp hfunded hdb

theorem Tended.opens (h : x.Tended D c) (hnext : x.Next c d) (enters : ∀ f, c.activity ≠ .step f) :
    x.Tended D d := by
  have hproceeds : Proceeds x.database D c.session.journal d.session.journal :=
    (proceeds_pact hp hfunded hdb).opens hnext enters fun _ _ _ _ _ _ _ => Set.mem_univ _
  obtain ⟨⟨hexact, hkempt⟩, hadvances⟩ := hproceeds h.exact h.kempt
  refine ⟨hexact, hkempt, (deployments_subset (.single hnext)).trans h.deploys, ?_⟩
  have hactive := h.active
  cases hnext with
  | loadCode loaded => exact hactive.imp_right fun htouched => hadvances.touched _ htouched
  | payCall | payCreate => exact trivial
  | @openCall room r code s t mark opened =>
    obtain htarget | htouched := hactive
    · have hopened : t.journal.Touched r.target := (openCall_touches hp).ok opened _ rfl
      rw [← htarget] at hopened
      exact hopened
    · exact hadvances.touched _ htouched
  | openCreate opened => exact (endowCreate_touches hp).ok opened _ rfl
  | step | nest => exact absurd rfl (enters _)

theorem tended_watch : x.Watch (x.Tended D) D (Proceeds x.database D) where
  next {c d} h hnext kept := by
    by_cases hstep : ∃ f, c.activity = .step f
    · obtain ⟨f, hf⟩ := hstep
      have hdeploys := (deployments_subset (.single hnext)).trans h.deploys
      have hactive := h.active
      cases hnext with
      | step running stepped =>
        obtain ⟨⟨hexact, hkempt⟩, hadvances⟩ := kept _ _ rfl rfl h.exact h.kempt
        refine ⟨hexact, hkempt, hdeploys, hadvances.touched _ ?_⟩
        rw [Machine.step_invocation stepped]
        exact hactive
      | @nest room f s r m running asking =>
        obtain ⟨⟨hexact, hkempt⟩, hadvances⟩ :=
          acts_proceed hfunded hdb h.exact h.kempt hactive asking.used
        refine ⟨hexact, hkempt, hdeploys, ?_⟩
        -- A call runs on its callee, or on the account that calls.
        have hself : m.world.journal.Touched f.invocation.address := hadvances.touched _ hactive
        have hpermitted := asking.permitted
        cases r with
        | call r into =>
          cases hpermitted with
          | call | staticCall => exact .inl rfl
          | callCode | delegateCall => exact .inr hself
        | create r => exact trivial
      | loadCode | payCall | openCall | payCreate | openCreate => cases hf
    · exact h.opens hp hfunded hdb hnext fun f hf => hstep ⟨f, hf⟩
  deployed h replied kept created := h.deploys ⟨_, .refl, .intro replied kept created⟩
  acts h used _ _ := acts_proceed hfunded hdb h.exact h.kempt h.active used

omit hp hfunded in
theorem Starts.kempt {task : Task} {gasLimit : Nat} (hb : x.Starts task gasLimit b) :
    b.session.journal.Kempt x.database D := by
  have hbegun : (ofHardfork x.rules.hardfork).Kempt x.database D := by
    intro a y hy
    change (∅ : Accounts)[a]? = some y at hy
    rw [Std.ExtTreeMap.getElem?_empty] at hy
    cases hy
  exact hbegun.looks hdb hb.looks

omit hp hfunded in
theorem Starts.tended {task : Task} {gasLimit : Nat} (hb : x.Starts task gasLimit b)
    (deploys : x.deployments b ⊆ D) : x.Tended D b := by
  refine ⟨(ofHardfork_exact x.database x.rules.hardfork).looks hb.looks, hb.kempt hdb, deploys, ?_⟩
  obtain ⟨j, -, rfl⟩ := hb
  cases task with
  | code | call => exact .inl rfl
  | create => exact trivial

/-- An account at which code is deployed has none in the database. -/
theorem Tended.fresh_codeHash (hc : x.Tended D c) {a : Address} {code : Bytes}
    (h : x.Deploys c (a, code)) : (fresh x.database a).info.codeHash = emptyCodeHash := by
  have hcivil : x.transfers.Civil := TransferPolicy.civil_of_known (hp.imp_right .inl)
  cases h with
  | @intro room r s t reply _ replied kept created =>
    obtain ⟨_, -, b, mark, u, f, v, output, creates⟩ := (create_creates hcivil).ok replied kept
    cases created.symm.trans creates.created
    have hpact := proceeds_pact (D := D) hp hfunded hdb
    obtain ⟨-, n, k, l, hcounted, opened, -⟩ :=
      (hpact.endowCreate_yields (Set.mem_univ _) fun _ _ _ => Set.mem_univ _).ok creates.endowed
    obtain ⟨⟨-, hkempt⟩, -⟩ := hpact.counted (Set.mem_univ _) hcounted hc.exact hc.kempt
    obtain ⟨-, -, y, hy, hnone, -⟩ := createCheckpoint_eq_ok opened
    by_contra known
    exact known (((hkempt a y hy).rooted known).symm.trans hnone)

end Order

end Executor

end MeteredVM
