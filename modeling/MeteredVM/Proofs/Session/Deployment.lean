import MeteredVM.Proofs.Journal.Standing
import MeteredVM.Proofs.Session.Watch

namespace MeteredVM

open Journal Relation

theorem Journal.Alteration.upright {db : Database} {D : Set (Address × Bytes)} {j k : Journal}
    (h : Alteration db j k) : Upright db D j k := by
  refine .of_origin h.extends fun a => ?_
  cases h with
  | change looks change => rw [change.origin, looks.view]
  | log l => rfl
  | refund recorded =>
    rw [recordRefund_eq_ok recorded]
    rfl

namespace Executor

/-- The creation at the point ends well and leaves code at an address. -/
inductive Deploys (x : Executor) : Scene → Address × Bytes → Prop
  | intro {room : Nat} {r : CreateRequest} {s t : Session} {reply : CreateReply} {a : Address}
      (replied : x.create (x.hostWithin room) r s = .ok (reply, t))
      (kept : reply.status.isOk = true) (created : reply.address = some a) :
      Deploys x ⟨room, .create r, s⟩ (a, reply.output)

def deployments (x : Executor) (c : Scene) : Set (Address × Bytes) :=
  { p | ∃ d, x.Reaches c d ∧ x.Deploys d p }

variable {x : Executor} {C : Set Address} {D : Set (Address × Bytes)} {inner : Option (Host Session)}
  {r : CreateRequest} {room : Nat} {s t : Session} {b c d : Scene} {a : Address}

theorem deployments_subset (h : x.Reaches c d) : x.deployments d ⊆ x.deployments c := by
  rintro p ⟨e, hde, hp⟩
  exact ⟨e, h.trans hde, hp⟩

section Deposit

theorem createCheckpoint_refuses {j : Journal} {status : Status}
    (h : j.createCheckpoint a = .error status) : status.refuses = true := by
  obtain rfl | rfl := createCheckpoint_eq_error h
  · rfl
  · rfl

theorem countCreation_refuses :
    Ends (x.countCreation r) s (fun why _ => why.status.refuses = true) fun _ _ => True := by
  unfold countCreation
  refine Ends.bind ((Session.require_ends _ _ _).refused ?_) ?_
  · rintro _ t ⟨rfl, -⟩
    rfl
  rintro - s₁ -
  apply Ends.bind .get
  rintro _ _ ⟨rfl, rfl⟩
  split
  · exact .throw rfl
  apply Ends.bind .get
  rintro _ _ ⟨rfl, rfl⟩
  split
  · apply Ends.bind .modify
    rintro - _ rfl
    exact .pure trivial
  · exact .throw rfl

theorem openCreate_refuses :
    Ends (x.openCreate r) s (fun why _ => why.status.refuses = true) fun _ _ => True := by
  unfold openCreate
  apply Ends.bind countCreation_refuses
  intro n s₁ _
  refine Ends.bind ((Session.require_ends _ _ _).refused ?_) ?_
  · rintro _ t ⟨rfl, -⟩
    rfl
  rintro - s₂ -
  apply Ends.bind .get
  rintro _ _ ⟨rfl, rfl⟩
  split
  · apply Ends.bind .modify
    rintro - _ rfl
    exact .pure trivial
  · rename_i hrefused
    exact .throw (createCheckpoint_refuses hrefused)

/-- Code that may be stored: it is not too long and, where that matters, does not begin with a reserved
byte. -/
structure Storable (x : Executor) (code : Bytes) : Prop where
  size : code.size ≤ x.environment.chain.maxCode
  first (reserves : x.rules.has .eip3541 = true) : code.data[0]? ≠ some 0xef

/-- Since Spurious Dragon all code is stored that is not refused, and every byte is paid for. -/
theorem deposit_ok {gas left : Gas} {output code : Bytes} (hrules : x.rules.since .spuriousDragon = true)
    (h : x.deposit gas output = .ok (left, code)) :
    code = output ∧ x.Storable code ∧ left.remaining + 200 * code.size = gas.remaining := by
  have hhomestead : x.rules.since .homestead = true := by
    have hfork : Hardfork.spuriousDragon.id ≤ x.rules.hardfork.id := of_decide_eq_true hrules
    exact decide_eq_true (Nat.le_trans (by decide) hfork)
  simp only [deposit] at h
  split at h
  · cases h
  rename_i hfirst
  split at h
  · cases h
  rename_i hsize
  split at h
  · rename_i paid hpaid
    cases h
    obtain ⟨cost, hcost, hcharge⟩ := Option.bind_eq_some_iff.mp hpaid
    refine ⟨rfl, ⟨?_, fun reserves hbyte => hfirst ?_⟩, ?_⟩
    · simpa [hrules] using hsize
    · simp only [reserves, hbyte, beq_self_eq_true, Bool.and_self]
    · unfold Price.codeDeposit Amount.mul? at hcost
      unfold Gas.charge? at hcharge
      split at hcost
      · cases hcost
        split at hcharge
        · cases hcharge
          exact Nat.sub_add_cancel ‹_›
        · cases hcharge
      · cases hcost
  · cases h

/-- How a creation ends well: its address is claimed and endowed, its init code runs on the host to a good
end, and the code is deployed that is stored of what it returns. -/
structure Creates (x : Executor) (h : Host Session) (r : CreateRequest) (s : Session) (a : Address)
    (mark : Checkpoint) (u : Session) (f : Frame) (v : Session) (output : Bytes) (reply : CreateReply)
    (t : Session) : Prop where
  endowed : x.endowCreate r (s.noting (.createOpened · r.creator r.gasLimit)) = .ok (.ok (a, mark), u)
  ran : runCode h (x.createInvocation r a) r.gasLimit u = .ok (f, v)
  good : f.status.isOk = true
  returned : f.outputData = .ok output
  stored : x.deposit f.gas output = .ok (reply.gas, reply.output)
  created : reply.address = some a
  deployed : ∃ m, v.journal.commit = .ok m ∧ t.journal = m.setCode a reply.output

theorem closeCreate_deploys {mark : Checkpoint} {f : Frame} :
    Yields (x.closeCreate a mark f) s (fun _ => True) fun reply t => reply.status.isOk = true →
      f.status.isOk = true ∧ ∃ output, f.outputData = .ok output ∧
        x.deposit f.gas output = .ok (reply.gas, reply.output) ∧ reply.address = some a ∧
          ∃ m, s.journal.commit = .ok m ∧ t.journal = m.setCode a reply.output := by
  apply closeCreate_rule
  · exact fun _ _ => trivial
  · exact fun hfailed => .any fun _ _ _ _ hok => absurd (hok.symm.trans hfailed) Bool.noConfusion
  · exact fun hok output _ _ houtput hdeposit => Session.commit_any.imp fun _ _ ht _ =>
      ⟨hok, output, houtput, hdeposit, rfl, _, ht, rfl⟩
  · intro _ output status hdeposit
    refine .any fun _ _ _ hok => ?_
    rw [(deposit_error hdeposit).2] at hok
    cases hok

theorem endowCreate_fails (hp : x.transfers.Civil) :
    Yields (x.endowCreate r) s (fun _ => True) fun endowed _ =>
      ∀ why, endowed = .error why → why.status.isOk = false := by
  apply endowCreate_rule (P := fun _ _ => True)
  · refine openCreate_refuses.refused fun why _ hrefused => ?_
    rintro _ ⟨⟩
    exact Status.isOk_of_refuses hrefused
  · intro p t _ _
    apply Session.move_rule
    refine Ends.iff.mpr ⟨fun _ _ _ => nofun, fun status k hrun => .any fun _ _ _ => ?_⟩
    rintro _ ⟨⟩
    exact hp.refuses hrun

theorem create_creates (hp : x.transfers.Civil) :
    Yields (x.create inner r) s (fun _ => True) fun reply t => reply.status.isOk = true →
      ∃ h ∈ inner, ∃ a mark u f v output, x.Creates h r s a mark u f v output reply t := by
  apply Yields.bind .emit
  rintro _ _ rfl
  cases inner with
  | none =>
    refine .pure ?_
    rintro ⟨⟩
  | some h =>
    apply Yields.bind (endowCreate_fails hp).known
    rintro endowed u ⟨hu, hrefused⟩
    cases endowed with
    | error why =>
      refine .pure fun hok => ?_
      rw [hrefused why rfl] at hok
      cases hok
    | ok p =>
      obtain ⟨a, mark⟩ := p
      have hany : Yields (runCode h (x.createInvocation r a) r.gasLimit) u (fun _ => True)
          fun f v => runCode h (x.createInvocation r a) r.gasLimit u = .ok (f, v) :=
        .any fun _ _ hrun => hrun
      apply Yields.bind hany
      intro f v hv
      apply Yields.bind closeCreate_deploys
      intro reply w hw
      apply Yields.bind .emit
      rintro _ _ rfl
      refine .pure fun hok => ?_
      obtain ⟨good, output, returned, stored, created, deployed⟩ := hw hok
      exact ⟨h, rfl, a, mark, u, f, v, output, hu, hv, good, returned, stored, created, deployed⟩

end Deposit

theorem host_acts_upright {i : Invocation} (h : (x.host inner).Acts i s t) :
    Upright x.database D s.journal t.journal := by
  induction h with
  | refl => exact .refl _
  | tail _ hact ih =>
    obtain hlooks | ⟨-, haltered⟩ := host_act hact
    · exact ih.trans (.looks hlooks)
    · exact ih.trans haltered.upright

theorem upright_move (hp : x.transfers.Civil) {source target : Address} {value : Word} {j : Journal} :
    Upright x.database D j (leftBy (x.transfers.move source target value) j) :=
  .of_rests (hp.rests source target value j)

theorem upright_pact (hp : x.transfers.Civil) :
    x.Pact Set.univ Set.univ D (Upright x.database D) (Upright x.database D) where
  refl := .refl
  trans := .trans
  weaken h := h
  after := .trans
  looks := .looks
  touch := .touch
  deeper := .deeper
  commit := .commit
  raise _ := .raise
  create _ opened := (Upright.create opened).1
  deploy _ := .deploy
  pay _ _ _ paid := by
    rw [← leftBy_eq_of_ok paid]
    exact upright_move hp
  refused _ _ _ h := by
    rw [← leftBy_eq_of_error h]
    exact upright_move hp
  undone := .undone

def Deploying (x : Executor) (D : Set (Address × Bytes)) (c : Scene) : Prop := x.deployments c ⊆ D

theorem upright_watch (x : Executor) (D : Set (Address × Bytes)) :
    x.Watch (x.Deploying D) D (Upright x.database D) where
  next h hnext _ := (deployments_subset (.single hnext)).trans h
  deployed h replied kept created := h ⟨_, .refl, .intro replied kept created⟩
  acts _ used := host_acts_upright used

/-- From a point to every later one the standing of accounts changes as it may. -/
theorem Reaches.upright (hp : x.transfers.Civil) (h : x.Reaches b c) (hb : x.deployments b ⊆ D) :
    Upright x.database D b.session.journal c.session.journal :=
  ((upright_watch x D).reaches (upright_pact hp) hb h).2

/-- The account that a creation has endowed was free. It has no code yet, and it is taken. -/
theorem endowCreate_taken {mark : Checkpoint} (hp : x.transfers.Civil)
    (clears : s.journal.clearsEmpty = true) (opened : x.endowCreate r s = .ok (.ok (a, mark), t)) :
    (s.journal.view x.database a).Free ∧ (t.journal.accounts[a]?).isSome ∧
      (t.journal.view x.database a).codeHash = emptyCodeHash ∧
        ¬(t.journal.view x.database a).Free := by
  have hpact : x.Pact Set.univ Set.univ ∅ (Upright x.database ∅) (Upright x.database ∅) :=
    upright_pact hp
  obtain ⟨-, n, k, l, hcounted, hcreate, hl⟩ :=
    (hpact.endowCreate_yields (Set.mem_univ _) fun _ _ _ => Set.mem_univ _).ok opened
  have hk := hpact.counted (Set.mem_univ _) hcounted
  obtain ⟨hkl, hfree, hnonce⟩ : Upright x.database ∅ k.deeper l ∧ (k.view x.database a).Free ∧ _ :=
    Upright.create hcreate
  have hkclears : k.clearsEmpty = true := (clearsEmpty_congr hk.hardfork).trans clears
  have hlclears : l.clearsEmpty = true := (clearsEmpty_congr hkl.hardfork).trans hkclears
  have same : ∀ {v w : AccountView}, v.Develops ∅ a w → w.codeHash = v.codeHash :=
    fun h => h.code.elim id fun ⟨_, _, hnever, _⟩ => hnever.elim
  have hbegun := hk.develops clears a
  have hended := hl.develops hlclears a
  refine ⟨not_not.mp fun htaken => hbegun.taken htaken hfree, ?_, ?_, ?_⟩
  · obtain ⟨-, -, y, hy, -⟩ := createCheckpoint_eq_ok hcreate
    exact hl.restores.loaded (hkl.restores.loaded (Option.isSome_of_eq_some hy))
  · exact (same hended).trans ((same (hkl.develops hkclears a)).trans hfree.1)
  · refine hended.taken fun hnone => ?_
    rw [AccountView.Free, hnonce hkclears] at hnone
    exact absurd hnone.2 Nat.one_ne_zero

theorem endowCreate_claims :
    Yields (x.endowCreate r) s (fun _ => True) fun endowed _ =>
      ∀ p, endowed = .ok p → ∃ n k, x.Claims r s n p.1 k := by
  apply endowCreate_rule (openCreate_ends.refused fun _ _ _ => by rintro _ ⟨⟩)
  rintro p t - ⟨n, k, hclaims, -⟩
  refine Ends.iff.mpr ⟨?_, fun _ _ _ => .any fun _ _ _ => by rintro _ ⟨⟩⟩
  rintro _ _ - _ ⟨⟩
  exact ⟨n, k, hclaims⟩

/-- How code comes to an account: a creation has found the address free, and its frame has run to a good
end, returned the code and paid for every byte of it. All of it is deployed. -/
inductive Deposits (x : Executor) (a : Address) (code : Bytes) : Scene → Prop
  | intro {room n : Nat} {r : CreateRequest} {k : Journal} {s u v t : Session} {mark : Checkpoint}
      {f : Frame} {reply : CreateReply}
      (claims : x.Claims r (s.noting (.createOpened · r.creator r.gasLimit)) n a k)
      (creates : x.Creates (x.host (x.hostWithin room)) r s a mark u f v code reply t)
      (stored : reply.output = code) (storable : x.Storable code)
      (paid : reply.gas.remaining + 200 * code.size = f.gas.remaining) :
      Deposits x a code ⟨room + 1, .create r, s⟩

theorem Deploys.deposits {code : Bytes} (hp : x.transfers.Civil)
    (hrules : x.rules.since .spuriousDragon = true) (h : x.Deploys c (a, code)) :
    x.Deposits a code c := by
  cases h with
  | @intro room r s t reply a replied kept created =>
    obtain ⟨h, hinner, b, mark, u, f, v, output, creates⟩ :=
      (create_creates hp).ok replied kept
    cases created.symm.trans creates.created
    obtain ⟨hstored, storable, paid⟩ := deposit_ok hrules creates.stored
    obtain ⟨n, k, claims⟩ := endowCreate_claims.ok creates.endowed _ rfl
    cases room with
    | zero => cases hinner
    | succ room =>
      cases hinner
      rw [hstored] at paid storable ⊢
      exact .intro claims creates hstored storable paid

end Executor

end MeteredVM
