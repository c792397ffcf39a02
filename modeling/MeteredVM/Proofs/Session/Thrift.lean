import MeteredVM.Proofs.Frame.Sentry
import MeteredVM.Proofs.Frame.Table
import MeteredVM.Proofs.Journal.Worth
import MeteredVM.Proofs.Session.Refund

namespace MeteredVM

open Journal Price Relation Exec

def Host.blind {σ : Type} (h : Host σ) : Host σ :=
  { h with
    readSlot := fun _ _ => throw {}
    writeSlot := fun _ _ _ => throw {}
    refund := fun _ w => .ok w }

def Opcode.usesStorage : Opcode → Bool
  | slotLoad | slotStore => true
  | _ => false

section Blind

variable {σ α : Type} {h : Host σ} {s t : Machine σ}

theorem Instruction.selfDestruct_blind (small : s.frame.rules.has .eip3529 = true) :
    selfDestruct h.blind s = selfDestruct h s := by
  unfold selfDestruct
  refine bind_congr fun _ s₁ h₁ => ?_
  refine bind_congr fun beneficiary s₂ h₂ => ?_
  refine bind_congr fun f s₃ h₃ => ?_
  refine bind_congr fun found s₄ h₄ => ?_
  refine bind_congr fun r s₅ h₅ => ?_
  have hfollows := (follows_of_here .mayWrite h₁).trans (follows_of_here .pop1 h₂)
  have hrules : s₂.frame.rules = s.frame.rules := congrArg Invocation.rules hfollows.invocation
  obtain ⟨-, rfl⟩ := Exec.get_eq_ok h₃
  obtain ⟨-, hsame⟩ := Exec.ask_eq_ok h₄
  obtain ⟨rfl, -⟩ := Exec.rules_eq_ok h₅
  rw [hsame, hrules, small]
  rfl

theorem Machine.step_blind (hop : ∀ op ∈ Opcode.ofByte? s.frame.nextByte, op.usesStorage = false)
    (small : s.frame.rules.has .eip3529 = true) : s.step h.blind = s.step h := by
  have hrun : ∀ op : Opcode, op.usesStorage = false → ∀ t : Machine σ,
      t.frame.rules.has .eip3529 = true → op.run h.blind t = op.run h t := by
    intro op hop t ht
    cases op with
    | selfDestruct => exact Instruction.selfDestruct_blind ht
    | slotLoad | slotStore => cases hop
    | _ => rfl
  rw [step_eq, step_eq]
  apply settle_congr
  cases hbyte : Opcode.ofByte? s.frame.nextByte with
  | none => rfl
  | some op =>
    refine bind_congr fun _ t ht => hrun op (hop op hbyte) t ?_
    have hcharged := follows_of_here .charge ht
    have hrules : t.frame.rules = s.frame.rules := congrArg Invocation.rules hcharged.invocation
    rw [hrules]
    exact small

end Blind

namespace Session

variable {ε α : Type} {s : Session}

def Evenly (y : EStateM ε Session α) (s : Session) : Prop :=
  Ends y s (fun _ t => s.journal.Even t.journal) fun _ t => s.journal.Even t.journal

theorem load_evenly {y : Loading α}
    (hy : Ends y s.journal (fun _ k => s.journal.Even k) fun _ k => s.journal.Even k) :
    Evenly (load y) s :=
  load_rule hy

theorem Evenly.left {y : EStateM ε Session α} (hy : Evenly y s) :
    s.journal.Even (leftBy y s).journal :=
  Ends.left (P := fun t : Session => s.journal.Even t.journal) hy

end Session

namespace Executor

variable {x : Executor} {inner : Option (Host Session)} {i : Invocation} {s t : Session}
  {m n : Machine Session}

/-- One use of the blind host leaves the slots and the counter as they are. -/
theorem blind_act (h : (x.host inner).blind.Act i s t) : s.journal.Even t.journal := by
  have account : ∀ (a : Address) {β : Type} {f : Loaded Account → β},
      Session.Evenly (Session.load (do return f (← loadAccount x.database a))) s := by
    intro a β f
    refine Session.load_evenly ?_
    refine Ends.bind (Even.load (loadAccount_shows a _) (loadAccount_accesses _ a _)) ?_
    exact fun _ _ hk => .pure hk
  cases h with
  | existence a =>
    exact (Session.load_evenly (Even.load (loadExistence_shows a _) (loadExistence_accesses _ a _))).left
  | blockHash number => exact (Session.load_evenly (loadBlockHash_even number)).left
  | balance a => exact (account a).left
  | code a =>
    exact (Session.load_evenly (Even.load (loadCode_shows a _) (loadCode_accesses _ a _))).left
  | codeHash a => exact (account a).left
  | readSlot key | writeSlot key new writable => exact .refl _
  | selfDestruct target writable => exact (Session.load_evenly (selfDestruct_even target)).left
  | refund writable refunded =>
    cases refunded
    exact .refl _
  | log l writable => exact .of_calm (.log _ l)

theorem blind_acts (h : (x.host inner).blind.Acts i s t) : s.journal.Even t.journal := by
  induction h with
  | refl => exact .refl _
  | tail _ hact ih => exact ih.trans (blind_act hact)

theorem slotLoad_ok (h : Instruction.slotLoad (x.host inner) m = .ok () n) :
    ∃ a key found, readSlot x.database a key m.world.journal = .ok found n.world.journal ∧
      n.frame.gas.remaining + Price.slotRead m.frame.rules found.cold ≤ m.frame.gas.remaining := by
  obtain ⟨key, s₁, h₁, h⟩ := Exec.bind_eq_ok h
  obtain ⟨f, s₂, h₂, h⟩ := Exec.bind_eq_ok h
  obtain ⟨found, s₃, h₃, h⟩ := Exec.bind_eq_ok h
  obtain ⟨r, s₄, h₄, h⟩ := Exec.bind_eq_ok h
  obtain ⟨_, s₅, h₅, h₆⟩ := Exec.bind_eq_ok h
  obtain ⟨-, rfl⟩ := Exec.get_eq_ok h₂
  obtain ⟨hread, hsame⟩ := Exec.ask_eq_ok h₃
  obtain ⟨rfl, rfl⟩ := Exec.rules_eq_ok h₄
  have hworld : n.world = s₄.world := (Exec.here_eq_ok h₆).2.trans (Exec.here_eq_ok h₅).2
  have hpopped := follows_of_here .top1 h₁
  have hcharged := follows_of_here .charge h₅
  have hset := follows_of_here .setTop h₆
  have hrules : s₄.frame.rules = m.frame.rules := by
    rw [hsame, Frame.rules, hpopped.invocation]
    rfl
  refine ⟨f.invocation.address, key, found, ?_, ?_⟩
  · rw [hworld, ← (Exec.here_eq_ok h₁).2]
    exact load_ok hread
  · have hpaid := hpopped.paid
    have hcost := hcharged.paid
    have hleft := hset.paid
    rw [hrules, hsame] at hcost
    omega

theorem slotStore_ok (h : Instruction.slotStore (x.host inner) m = .ok () n) :
    ∃ a key new found k, writeSlot x.database a key new m.world.journal = .ok found k ∧
      k.recordRefund (Price.slotRefund m.frame.rules found.value) = .ok n.world.journal ∧
      n.frame.gas.remaining + Price.slotWrite m.frame.rules found.value found.cold ≤
        m.frame.gas.remaining := by
  obtain ⟨_, s₁, h₁, h⟩ := Exec.bind_eq_ok h
  obtain ⟨⟨key, new⟩, s₂, h₂, h⟩ := Exec.bind_eq_ok h
  obtain ⟨_, s₃, h₃, h⟩ := Exec.bind_eq_ok h
  obtain ⟨f, s₄, h₄, h⟩ := Exec.bind_eq_ok h
  obtain ⟨found, s₅, h₅, h⟩ := Exec.bind_eq_ok h
  obtain ⟨r, s₆, h₆, h⟩ := Exec.bind_eq_ok h
  obtain ⟨_, s₇, h₇, h₈⟩ := Exec.bind_eq_ok h
  obtain ⟨-, rfl⟩ := Exec.get_eq_ok h₄
  obtain ⟨hwrote, hsame⟩ := Exec.ask_eq_ok h₅
  obtain ⟨rfl, rfl⟩ := Exec.rules_eq_ok h₆
  have hworld : s₄.world = m.world :=
    (Exec.here_eq_ok h₃).2.trans ((Exec.here_eq_ok h₂).2.trans (Exec.here_eq_ok h₁).2)
  have hfound := ((follows_of_here .mayWrite h₁).trans (follows_of_here .pop2 h₂)).trans
    (follows_of_here Instruction.sentry_pays h₃)
  have hcharged := follows_of_here .charge h₇
  obtain ⟨hrefunded, hleft⟩ := (Exec.refund_ends (E := fun _ _ => True) fun _ _ => trivial).ok h₈
  have hrules : s₆.frame.rules = m.frame.rules := by
    rw [hsame, Frame.rules, hfound.invocation]
    rfl
  rw [hrules] at hcharged hrefunded
  refine ⟨f.invocation.address, key, new, found, s₆.world.journal, hworld ▸ load_ok hwrote, ?_, ?_⟩
  · rw [← (Exec.here_eq_ok h₇).2]
    exact host_refund hrefunded
  · have hpaid := hfound.paid
    have hcost := hcharged.paid
    rw [hsame] at hcost
    rw [hleft]
    omega

/-- What the journal is worth under the rules of the transaction, together with gas that is left. -/
def stake (x : Executor) (tier : NetTier) (j : Journal) (gas : Nat) : Int :=
  j.worth x.rules tier x.database + gas

variable {tier : NetTier} {j k : Journal} {given left : Nat}

theorem stake_le_of_even (h : j.Even k) (hgas : left ≤ given) :
    x.stake tier k left ≤ x.stake tier j given := by
  unfold stake
  rw [h.worth]
  omega

def Thrives (x : Executor) (tier : NetTier) (inner : Option (Host Session)) (m : Machine Session) :
    Prop :=
  ∀ r t, m.Asking (x.host inner) r t →
    match r with
    | .call r _ => ∀ reply w, x.call inner r t.world = .ok (reply, w) →
        x.stake tier w.journal reply.gas.remaining ≤ x.stake tier t.world.journal r.gasLimit
    | .create r => ∀ reply w, x.create inner r t.world = .ok (reply, w) →
        x.stake tier w.journal reply.gas.remaining ≤ x.stake tier t.world.journal r.gasLimit

/-- What a frame gets back is what its nested frame has left. -/
theorem resumed_stake {f : Frame} {w : Session} {y : Except Fault Frame}
    (resumed : f.Resumes False left y) (hn : y.map (⟨·, w⟩) = .ok n)
    (paid : given + f.gas.remaining ≤ m.frame.gas.remaining)
    (nested : x.stake tier w.journal left ≤ x.stake tier m.world.journal given) :
    x.stake tier n.world.journal n.frame.gas.remaining ≤
      x.stake tier m.world.journal m.frame.gas.remaining := by
  cases resumed with
  | goes follows =>
    cases hn
    have hleft := follows.paid
    simp only [Frame.credited] at hleft
    unfold stake at nested ⊢
    dsimp only
    omega
  | outOfRange loose => cases hn
  | overflow large => cases hn

theorem step_stake_blind (hop : ∀ op ∈ Opcode.ofByte? m.frame.nextByte, op.usesStorage = false)
    (small : m.frame.rules.has .eip3529 = true) (nested : x.Thrives tier inner m)
    (stepped : m.step (x.host inner) = .ok n) :
    x.stake tier n.world.journal n.frame.gas.remaining ≤
      x.stake tier m.world.journal m.frame.gas.remaining := by
  have hsteps := Machine.step_steps (h := (x.host inner).blind) (s := m) (P := False) False.elim
  rw [Machine.step_blind hop small] at hsteps
  generalize m.step (x.host inner) = y at hsteps stepped
  cases hsteps with
  | goes follows =>
    cases stepped
    exact stake_le_of_even (blind_acts follows.world) (Nat.le_of_add_right_le follows.frame.paid)
  | ends follows ended =>
    cases stepped
    exact stake_le_of_even (blind_acts follows.world) follows.frame.paid
  | @asks r t asking follows asked =>
    have hasked := nested r t ((Machine.asking_congr rfl).mp asking)
    have hserved : t.Served (x.host inner).blind False r _ :=
      Machine.serve_served False.elim False.elim
    have hpaid := Nat.le_of_lt asked.spent
    have heven : x.stake tier t.world.journal r.gasLimit ≤ x.stake tier m.world.journal r.gasLimit :=
      stake_le_of_even (blind_acts follows.world) (Nat.le_refl r.gasLimit)
    generalize t.settle _ = y at hserved stepped
    cases hserved with
    | call answered resumed =>
      exact resumed_stake resumed stepped hpaid (Int.le_trans (hasked _ _ answered) heven)
    | create answered resumed =>
      exact resumed_stake resumed stepped hpaid (Int.le_trans (hasked _ _ answered) heven)
    | callFails failed => cases stepped
    | createFails failed => cases stepped
  | outOfRange loose => cases stepped
  | refund fails => cases stepped

/-- An opcode that can only end with an error has been run after its price was charged. -/
theorem ran_of_step {op : Opcode} {k l : Nat} {d : Option Nat}
    (hop : Opcode.ofByte? m.frame.nextByte = some op)
    (hfair : ∀ s, Trades Machine.frame False True k l d (op.run (x.host inner)) s)
    (stepped : m.step (x.host inner) = .ok n) :
    n.frame.status.isOk = false ∨ ∃ u : Machine Session, op.run (x.host inner) u = .ok () n ∧
      u.world = m.world ∧ u.frame.rules = m.frame.rules ∧
        u.frame.gas.remaining ≤ m.frame.gas.remaining := by
  rw [Machine.step_eq, hop] at stepped
  have htrades : Trades Machine.frame False True k l d
      (Machine.execute (x.host inner) (some op)) m.passed :=
    .first (.here .charge) fun _ s _ _ => hfair s
  obtain ⟨hran, -⟩ | herror | ⟨hnever, -⟩ := (Machine.settle_trades htrades).1 n stepped
  · obtain ⟨_, u, hcharge, hran⟩ := Exec.bind_eq_ok hran
    have hcharged := follows_of_here .charge hcharge
    refine .inr ⟨u, hran, (Exec.here_eq_ok hcharge).2, ?_, Nat.le_of_add_right_le hcharged.paid⟩
    rw [Frame.rules, hcharged.invocation]
    rfl
  · left
    simp only [Status.isError, Bool.and_eq_true, Bool.not_eq_true'] at herror
    exact herror.1
  · exact hnever.elim

theorem step_stake (metered : netTier? x.rules = some tier) (small : x.rules.has .eip3529 = true)
    (ruled : m.frame.rules = x.rules) (faithful : m.world.journal.Faithful x.database)
    (nested : x.Thrives tier inner m) (stepped : m.step (x.host inner) = .ok n) :
    n.frame.status.isOk = false ∨
      x.stake tier n.world.journal n.frame.gas.remaining ≤
        x.stake tier m.world.journal m.frame.gas.remaining := by
  by_cases hop : ∀ op ∈ Opcode.ofByte? m.frame.nextByte, op.usesStorage = false
  · exact .inr (step_stake_blind hop (ruled ▸ small) nested stepped)
  push Not at hop
  obtain ⟨op, hop, huses⟩ := hop
  cases op with
  | slotLoad =>
    refine (ran_of_step hop (fun _ => Instruction.slotLoad_trades) stepped).imp_right ?_
    rintro ⟨u, hran, hworld, hrules, hgas⟩
    obtain ⟨a, key, found, hread, hpaid⟩ := slotLoad_ok hran
    rw [hworld] at hread
    rw [hrules, ruled] at hpaid
    have hworth : n.world.journal.worth x.rules tier x.database ≤ _ := (readSlot_worth hread faithful).2
    unfold stake
    omega
  | slotStore =>
    refine (ran_of_step hop (fun _ => Instruction.slotStore_trades fun _ => trivial)
      stepped).imp_right ?_
    rintro ⟨u, hran, hworld, hrules, hgas⟩
    obtain ⟨a, key, new, found, k, hwrote, hrecorded, hpaid⟩ := slotStore_ok hran
    rw [hworld] at hwrote
    rw [hrules, ruled] at hpaid hrecorded
    have hworth := writeSlot_worth metered hwrote faithful hrecorded
    unfold stake
    omega
  | _ => exact absurd rfl huses

end Executor

end MeteredVM
