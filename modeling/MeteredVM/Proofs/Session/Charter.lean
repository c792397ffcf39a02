import MeteredVM.Proofs.Session.Create
import MeteredVM.Proofs.Session.Scene

namespace MeteredVM

open Journal Relation

namespace Session

variable {s : Session} {mark : Checkpoint}

theorem commit_any :
    Yields commit s (fun _ => True) fun _ t => s.journal.commit = .ok t.journal := by
  apply Yields.any
  rintro _ t h
  obtain ⟨j, hj, hjt⟩ := Except.map_eq_ok h
  cases hjt
  exact hj

theorem revert_any :
    Yields (revert mark) s (fun _ => True) fun _ t => s.journal.revert mark = .ok t.journal := by
  apply Yields.any
  rintro _ t h
  obtain ⟨j, hj, hjt⟩ := Except.map_eq_ok h
  cases hjt
  exact hj

end Session

namespace Executor

/-- A frame may leave the journal in two ways. What it leaves when it is kept is related to what it
found by `R`. What it leaves when it is undone is related by the weaker `L`. Only accounts of `A` pay and
create, and only accounts of `C` are created. -/
structure Charter (x : Executor) (A C : Set Address) (R L : Journal → Journal → Prop) : Prop where
  refl (j : Journal) : R j j
  trans {i j k : Journal} (h : R i j) (h' : R j k) : R i k
  weaken {j k : Journal} (h : R j k) : L j k
  after {i j k : Journal} (h : R i j) (h' : L j k) : L i k
  looks {j k : Journal} (h : Looks x.database j k) : R j k
  touch (j : Journal) (a : Address) : R j (j.touch a)
  deeper (j : Journal) : R j j.deeper
  commit {j k : Journal} (committed : j.commit = .ok k) : R j k
  raise {j k : Journal} {a : Address} {n : Nat} (creator : a ∈ A)
    (raised : j.raiseNonce a = some (n, k)) : R j k
  create {j k : Journal} {a : Address} {mark : Checkpoint} (founded : a ∈ C)
    (opened : j.createCheckpoint a = .ok (mark, k)) : R j.deeper k
  setCode (j : Journal) {a : Address} (founded : a ∈ C) (code : Bytes) : R j (j.setCode a code)
  pay {j k : Journal} {source target : Address} {value : Word} (mayPay : source ∈ A)
    (payer : (j.accounts[source]?).isSome) (payee : (j.accounts[target]?).isSome)
    (paid : x.transfers.move source target value j = .ok () k) : R j k
  refused {j k : Journal} {source target : Address} {value : Word} {status : Status}
    (mayPay : source ∈ A) (payer : (j.accounts[source]?).isSome)
    (payee : (j.accounts[target]?).isSome)
    (h : x.transfers.move source target value j = .error status k) : L j k
  undone {j k l : Journal} (h : L j.deeper k) (reverted : k.revert j.mark = .ok l) : R j l

/-- A charter under which code is deployed only at the end of a creation, and then only what is in `D`. -/
structure Pact (x : Executor) (A C : Set Address) (D : Set (Address × Bytes))
    (R L : Journal → Journal → Prop) : Prop where
  refl (j : Journal) : R j j
  trans {i j k : Journal} (h : R i j) (h' : R j k) : R i k
  weaken {j k : Journal} (h : R j k) : L j k
  after {i j k : Journal} (h : R i j) (h' : L j k) : L i k
  looks {j k : Journal} (h : Looks x.database j k) : R j k
  touch (j : Journal) (a : Address) : R j (j.touch a)
  deeper (j : Journal) : R j j.deeper
  commit {j k : Journal} (committed : j.commit = .ok k) : R j k
  raise {j k : Journal} {a : Address} {n : Nat} (creator : a ∈ A)
    (raised : j.raiseNonce a = some (n, k)) : R j k
  create {j k : Journal} {a : Address} {mark : Checkpoint} (founded : a ∈ C)
    (opened : j.createCheckpoint a = .ok (mark, k)) : R j.deeper k
  deploy {j k l m : Journal} {a : Address} {mark : Checkpoint} {code : Bytes} (founded : a ∈ C)
    (stored : (a, code) ∈ D) (opened : j.createCheckpoint a = .ok (mark, k)) (ran : R k l)
    (committed : l.commit = .ok m) : R j (m.setCode a code)
  pay {j k : Journal} {source target : Address} {value : Word} (mayPay : source ∈ A)
    (payer : (j.accounts[source]?).isSome) (payee : (j.accounts[target]?).isSome)
    (paid : x.transfers.move source target value j = .ok () k) : R j k
  refused {j k : Journal} {source target : Address} {value : Word} {status : Status}
    (mayPay : source ∈ A) (payer : (j.accounts[source]?).isSome)
    (payee : (j.accounts[target]?).isSome)
    (h : x.transfers.move source target value j = .error status k) : L j k
  undone {j k l : Journal} (h : L j.deeper k) (reverted : k.revert j.mark = .ok l) : R j l

theorem Charter.pact {x : Executor} {A C : Set Address} {R L : Journal → Journal → Prop}
    (charter : x.Charter A C R L) : x.Pact A C Set.univ R L where
  refl := charter.refl
  trans := charter.trans
  weaken := charter.weaken
  after := charter.after
  looks := charter.looks
  touch := charter.touch
  deeper := charter.deeper
  commit := charter.commit
  raise := charter.raise
  create := charter.create
  deploy {j k l m a mark code} founded _ opened ran committed := by
    have hcreated : R j k := charter.trans (charter.deeper j) (charter.create founded opened)
    have hkept : R j m := charter.trans (charter.trans hcreated ran) (charter.commit committed)
    exact charter.trans hkept (charter.setCode m founded code)
  pay := charter.pay
  refused := charter.refused
  undone := charter.undone

def Undone (L : Journal → Journal → Prop) (j l : Journal) : Prop :=
  l = j ∨ ∃ k, L j.deeper k ∧ k.revert j.mark = .ok l

def Closed (R L : Journal → Journal → Prop) (j : Journal) (status : Status) (l : Journal) : Prop :=
  Undone L j l ∨ status.isOk = true ∧ R j l

def Ran (R L : Journal → Journal → Prop) (j : Journal) (f : Frame) (t : Session) : Prop :=
  L j.deeper t.journal ∧ (f.status.isOk = true → R j.deeper t.journal)

section Frames

variable {x : Executor} {A C : Set Address} {D : Set (Address × Bytes)}
  {R L : Journal → Journal → Prop} {i j k : Journal} {s t : Session} (pact : x.Pact A C D R L)

include pact

theorem Pact.counted {creator : Address} {n : Nat} (hcreator : creator ∈ A)
    (h : j.Counted x.database creator n k) : R j k := by
  obtain ⟨i, l, hi, hl, hk⟩ := h
  exact pact.trans (pact.trans (pact.looks hi) (pact.raise hcreator hl))
    (pact.looks hk)

theorem Pact.of_undone (h : Undone L j k) : R j k := by
  obtain rfl | ⟨l, hl, reverted⟩ := h
  · exact pact.refl _
  · exact pact.undone hl reverted

theorem Pact.of_closed {status : Status} (h : Closed R L j status k) : R j k :=
  h.elim pact.of_undone And.right

theorem Pact.of_begun {creator : Address} {address : Option Address} (hcreator : creator ∈ A)
    (h : j.Begun x.database creator address k) : R j k := by
  cases address with
  | none => exact pact.looks h
  | some a =>
    obtain ⟨n, hcounted⟩ := h
    exact pact.counted hcreator hcounted

theorem Pact.move_ends {source target : Address} {value : Word} (mayPay : source ∈ A)
    (payer : (s.journal.accounts[source]?).isSome)
    (payee : (s.journal.accounts[target]?).isSome) :
    Ends (Session.move x.transfers source target value) s
      (fun _ t => L s.journal t.journal) fun _ t => R s.journal t.journal := by
  apply Session.move_rule
  exact Ends.iff.mpr ⟨fun _ _ hmove => pact.pay mayPay payer payee hmove,
    fun _ _ hmove => pact.refused mayPay payer payee hmove⟩

section Call

variable {r : CallRequest} (mayPay : r.source ∈ A)

include mayPay

theorem Pact.payCall_ends :
    Ends (x.payCall r) s (fun _ t => L s.journal t.journal) fun _ t => R s.journal t.journal := by
  have touched : ∀ {l : Journal} {t : Session}, Looks x.database s.journal l →
      t.journal = l.touch r.target → R s.journal t.journal := by
    intro l t hl ht
    rw [ht]
    exact pact.trans (pact.looks hl) (pact.touch _ _)
  apply payCall_rule
  · intro t ht
    exact pact.weaken (pact.looks ht)
  · intro l t hl ht
    exact pact.weaken (touched hl ht)
  · intro l t hl ht payer payee
    refine ((pact.move_ends mayPay payer payee).refused ?_).imp ?_
    · intro _ u hu
      exact pact.after (touched hl ht) hu
    · intro _ u hu
      exact pact.trans (touched hl ht) hu

theorem Pact.openCall_yields :
    Yields (x.openCall r) s (fun _ => True) fun opened t =>
      match opened with
      | .ok mark => mark = s.journal.mark ∧ R s.journal.deeper t.journal
      | .error _ => Undone L s.journal t.journal := by
  apply openCall_rule
  refine ((pact.payCall_ends mayPay).refused fun _ t ht => ?_).imp fun _ _ ht => ⟨rfl, ht⟩
  exact Session.revert_any.imp fun _ _ hu => .inr ⟨_, ht, hu⟩

end Call

theorem Pact.closeCall_yields {f : Frame} (h : Ran R L j f s) :
    Yields (closeCall j.mark f) s (fun _ => True) fun reply t =>
      Closed R L j reply.status t.journal := by
  obtain ⟨hlapsed, hran⟩ := h
  apply closeCall_rule
  · exact fun _ _ => trivial
  · exact fun hok => Session.commit_any.imp fun _ _ ht _ =>
      .inr ⟨hok, pact.trans (pact.trans (pact.deeper j) (hran hok)) (pact.commit ht)⟩
  · exact fun _ => Session.revert_any.imp fun _ _ ht _ => .inl (.inr ⟨_, hlapsed, ht⟩)

theorem Pact.callCode_yields {inner : Option (Host Session)} {r : CallRequest} {code : Bytes}
    (mayPay : ∀ h ∈ inner, r.source ∈ A)
    (hrun : ∀ h ∈ inner, ∀ t,
      x.openCall r (s.noting (.callOpened · r.codeAddress r.gasLimit)) =
        .ok (.ok s.journal.mark, t) →
      code.size ≠ 0 → Yields (runCode h (x.callInvocation r code) r.gasLimit) t (fun _ => True)
        fun f u => L t.journal u.journal ∧ (f.status.isOk = true → R t.journal u.journal)) :
    Yields (x.callCode inner r code) s (fun _ => True) fun reply t =>
      Closed R L s.journal reply.status t.journal := by
  apply Yields.bind .emit
  rintro _ _ rfl
  cases inner with
  | none => exact .pure (.inl (.inl rfl))
  | some h =>
    apply Yields.bind (pact.openCall_yields (mayPay h rfl)).known
    rintro opened s₁ ⟨hs, hs₁⟩
    cases opened with
    | error status => exact .pure (.inl hs₁)
    | ok mark =>
      obtain ⟨rfl, hs₁⟩ := hs₁
      dsimp only
      split
      · apply Yields.bind Session.commit_any
        intro _ s₂ hs₂
        exact .pure (.inr ⟨rfl, pact.trans (pact.trans (pact.deeper _) hs₁) (pact.commit hs₂)⟩)
      · rename_i hcode
        apply Yields.bind (hrun h rfl s₁ hs hcode)
        rintro f s₂ ⟨hlapsed, hran⟩
        exact pact.closeCall_yields
          ⟨pact.after hs₁ hlapsed, fun hok => pact.trans hs₁ (hran hok)⟩

omit pact in
theorem call_yields_closed {inner : Option (Host Session)} {r : CallRequest}
    (hcode : ∀ code t, Session.load (Journal.loadCode x.database r.codeAddress) s = .ok code t →
      Yields (x.callCode inner r code.value) t (fun _ => True) fun reply u =>
        Closed R L t.journal reply.status u.journal) :
    Yields (x.call inner r) s (fun _ => True) fun reply t =>
      ∃ k, Looks x.database s.journal k ∧ Closed R L k reply.status t.journal := by
  apply Yields.bind (.attempt (Session.load_ends (loadCode_shows r.codeAddress s.journal)))
  intro loaded s₁ hs₁
  cases loaded with
  | error e => exact .pure ⟨_, hs₁, .inl (.inl rfl)⟩
  | ok code =>
    obtain ⟨hs, hlooks, -⟩ := hs₁
    exact (hcode code s₁ hs).imp fun reply t ht => ⟨_, hlooks, ht⟩

section Create

variable {r : CreateRequest} (mayPay : r.creator ∈ A)

include mayPay

theorem Pact.endowCreate_yields (hC : ∀ p t, x.openCreate r s = .ok p t → p.1 ∈ C) :
    Yields (x.endowCreate r) s (fun _ => True) fun endowed t =>
      match endowed with
      | .ok (address, mark) => address ∈ C ∧ ∃ n k l, s.journal.Counted x.database r.creator n k ∧
          k.createCheckpoint address = .ok (mark, l) ∧ R l t.journal
      | .error why => ∃ k, s.journal.Begun x.database r.creator why.address k ∧
          Undone L k t.journal := by
  apply endowCreate_rule (openCreate_ends.refused fun _ _ h => ⟨_, h, .inl rfl⟩)
  rintro ⟨address, mark⟩ t hopened ⟨n, k, hclaims, rfl, ht⟩
  have haddress : address ∈ C := hC _ _ hopened
  have hcreate : k.createCheckpoint address = .ok (k.mark, t.journal) :=
    ht ▸ hclaims.createCheckpoint
  obtain ⟨hpayer, hpayee⟩ := hclaims.parties
  rw [← ht] at hpayer hpayee
  refine ((pact.move_ends mayPay hpayer hpayee).refused fun _ u hu => ?_).imp
    fun _ u hu => ⟨haddress, n, k, _, hclaims.counted, hcreate, hu⟩
  have hlapsed : L k.deeper u.journal := pact.after (pact.create haddress hcreate) hu
  exact Session.revert_any.imp fun _ _ hv => ⟨k, ⟨n, hclaims.counted⟩, .inr ⟨_, hlapsed, hv⟩⟩

end Create

/-- A creation is kept and its code deployed, or it is undone. -/
theorem Pact.closeCreate_yields {address : Address} {mark : Checkpoint} {f : Frame}
    (founded : address ∈ C) (opened : j.createCheckpoint address = .ok (mark, k))
    (hlapsed : L j.deeper s.journal) (hran : f.status.isOk = true → R k s.journal) :
    Yields (x.closeCreate address mark f) s (fun _ => True) fun reply t =>
      reply.address = some address ∧
        ((reply.status.isOk = true → (address, reply.output) ∈ D) →
          Closed R L j reply.status t.journal) := by
  obtain ⟨rfl, -⟩ := createCheckpoint_eq_ok opened
  apply closeCreate_rule
  · exact fun _ _ => trivial
  · exact fun _ => Session.revert_any.imp fun _ _ ht _ =>
      ⟨rfl, fun _ => .inl (.inr ⟨_, hlapsed, ht⟩)⟩
  · exact fun hok output _ _ _ _ => Session.commit_any.imp fun _ _ ht => ⟨rfl, fun stored =>
      .inr ⟨hok, pact.deploy founded (stored hok) opened (hran hok) ht⟩⟩
  · exact fun _ _ _ _ => Session.revert_any.imp fun _ _ ht =>
      ⟨rfl, fun _ => .inl (.inr ⟨_, hlapsed, ht⟩)⟩

theorem Pact.create_yields {inner : Option (Host Session)} {r : CreateRequest}
    (mayPay : ∀ h ∈ inner, r.creator ∈ A)
    (hC : ∀ h ∈ inner, ∀ p t,
      x.openCreate r (s.noting (.createOpened · r.creator r.gasLimit)) = .ok p t → p.1 ∈ C)
    (hrun : ∀ h ∈ inner, ∀ address mark t,
      x.endowCreate r (s.noting (.createOpened · r.creator r.gasLimit)) =
        .ok (.ok (address, mark), t) →
      Yields (runCode h (x.createInvocation r address) r.gasLimit) t (fun _ => True)
        fun f u => L t.journal u.journal ∧ (f.status.isOk = true → R t.journal u.journal)) :
    Yields (x.create inner r) s (fun _ => True) fun reply t =>
      (reply.status.isOk = true → ∀ a, reply.address = some a → (a, reply.output) ∈ D) →
        ∃ k, (R s.journal k ∧ s.journal.Begun x.database r.creator reply.address k) ∧
          Closed R L k reply.status t.journal := by
  apply Yields.bind .emit
  rintro _ _ rfl
  cases inner with
  | none => exact .pure fun _ => ⟨_, ⟨pact.refl _, .refl⟩, .inl (.inl rfl)⟩
  | some h =>
    apply Yields.bind (pact.endowCreate_yields (mayPay h rfl) (hC h rfl)).known
    rintro endowed s₁ ⟨hs, hs₁⟩
    cases endowed with
    | error why =>
      obtain ⟨k, hbegun, hundone⟩ := hs₁
      have hk := pact.of_begun (mayPay h rfl) hbegun
      exact .pure fun _ => ⟨k, ⟨hk, hbegun⟩, .inl hundone⟩
    | ok p =>
      obtain ⟨address, mark⟩ := p
      obtain ⟨hfounded, n, k, l, hcounted, hopened, hs₁⟩ := hs₁
      have hcreated : R k.deeper s₁.journal := pact.trans (pact.create hfounded hopened) hs₁
      apply Yields.bind (hrun h rfl address _ s₁ hs)
      rintro f s₂ ⟨hlapsed, hran⟩
      apply Yields.bind (pact.closeCreate_yields hfounded hopened (pact.after hcreated hlapsed)
        fun hok => pact.trans hs₁ (hran hok))
      rintro reply s₃ ⟨haddress, hs₃⟩
      apply Yields.bind .emit
      rintro _ _ rfl
      have hk := pact.counted (mayPay h rfl) hcounted
      refine .pure fun stored => ⟨k, ⟨hk, ?_⟩, hs₃ fun hok => stored hok _ haddress⟩
      rw [haddress]
      exact ⟨n, hcounted⟩

omit pact in
/-- A pact holds from where a frame is about to be opened to the next point, if all accounts may pay. -/
theorem Pact.opens {c d : Scene} (pact : x.Pact Set.univ C D R L) (hnext : x.Next c d)
    (enters : ∀ f, c.activity ≠ .step f)
    (hC : ∀ room r s p t, c = ⟨room + 1, .create r, s⟩ →
      x.openCreate r (s.noting (.createOpened · r.creator r.gasLimit)) = .ok p t → p.1 ∈ C) :
    R c.session.journal d.session.journal := by
  cases hnext with
  | @loadCode room r s t code loaded =>
    have hlooks : Looks x.database s.journal t.journal :=
      ((Session.load_ends (loadCode_shows r.codeAddress s.journal)).ok loaded).1
    exact pact.looks hlooks
  | @payCall room r code s t mark opened =>
    have hcheckpoint := Session.checkpoint_yields (E := fun _ => False)
      (s := s.noting (.callOpened · r.codeAddress r.gasLimit))
    have ht : t.journal = s.journal.deeper := (hcheckpoint.ok opened).2
    exact ht ▸ pact.deeper s.journal
  | openCall opened nonempty =>
    have hopened := (pact.openCall_yields (Set.mem_univ _)).ok opened
    exact pact.trans (pact.deeper _) hopened.2
  | payCreate opened =>
    obtain ⟨n, k, hclaims, -, ht⟩ := openCreate_ends.ok opened
    have hcreated := pact.create (hC _ _ _ _ _ rfl opened) hclaims.createCheckpoint
    rw [← ht] at hcreated
    have hk := pact.counted (Set.mem_univ _) hclaims.counted
    exact pact.trans (pact.trans hk (pact.deeper k)) hcreated
  | openCreate opened =>
    obtain ⟨hfounded, n, k, l, hcounted, hcreate, ht⟩ :=
      (pact.endowCreate_yields (Set.mem_univ _) fun p t => hC _ _ _ p t rfl).ok opened
    have hk := pact.counted (Set.mem_univ _) hcounted
    have hcreated := pact.trans (pact.deeper k) (pact.create hfounded hcreate)
    exact pact.trans (pact.trans hk hcreated) ht
  | step running stepped => exact absurd rfl (enters _)
  | nest running asking => exact absurd rfl (enters _)

end Frames

end Executor

/-- What every step of a running frame keeps holds after a number of steps. -/
theorem Machine.runFor_invariant {σ : Type} {h : Host σ} {I : Machine σ → Prop} {n : Nat}
    {s t : Machine σ}
    (hI : ∀ s t, s.frame.status = .running → I s → s.step h = .ok t → I t) (hs : I s)
    (ht : s.runFor h n = .ok t) : I t := by
  induction n generalizing s with
  | zero =>
    cases ht
    exact hs
  | succ n ih =>
    by_cases hrun : s.frame.status = .running
    · rw [runFor_succ hrun] at ht
      obtain ⟨u, hu, ht⟩ := Except.bind_eq_ok ht
      exact ih (hI s u hrun hs hu) ht
    · rw [runFor_ended hrun] at ht
      cases ht
      exact hs

namespace Executor

structure Abides (x : Executor) (P : Scene → Prop) (R : Journal → Journal → Prop) (room : Nat) :
    Prop where
  call {r : CallRequest} {s : Session} (h : P ⟨room, .call r, s⟩) :
    Yields (x.call (x.hostWithin room) r) s (fun _ => True) fun _ t => R s.journal t.journal
  callCode {r : CallRequest} {code : Bytes} {s : Session} (h : P ⟨room, .callCode r code, s⟩) :
    Yields (x.callCode (x.hostWithin room) r code) s (fun _ => True) fun _ t =>
      R s.journal t.journal
  create {r : CreateRequest} {s : Session} (h : P ⟨room, .create r, s⟩) :
    Yields (x.create (x.hostWithin room) r) s (fun _ => True) fun _ t => R s.journal t.journal

/-- Where `P` holds, frames keep to a charter step by step, and so they go on to where it holds. -/
structure Guards (x : Executor) (P : Scene → Prop) (A C : Set Address)
    (R L : Journal → Journal → Prop) : Prop where
  next {c d : Scene} (h : P c) (hnext : x.Next c d) : P d
  payer {room : Nat} {r : CallRequest} {code : Bytes} {s : Session}
    (h : P ⟨room + 1, .callCode r code, s⟩) : r.source ∈ A
  creator {room : Nat} {r : CreateRequest} {s : Session} (h : P ⟨room + 1, .create r, s⟩) :
    r.creator ∈ A
  founded {room : Nat} {r : CreateRequest} {s t : Session} {p : Address × Checkpoint}
    (h : P ⟨room + 1, .create r, s⟩)
    (opened : x.openCreate r (s.noting (.createOpened · r.creator r.gasLimit)) = .ok p t) :
    p.1 ∈ C
  /-- A step that ends its frame with a failure may leave what is to be undone. -/
  step {room : Nat} {f : Frame} {s : Session} {n : Machine Session} (h : P ⟨room, .step f, s⟩)
    (running : f.status = .running)
    (nested : ∀ r m w, Machine.Asking (x.host (x.hostWithin room)) ⟨f, s⟩ r m →
      (x.host (x.hostWithin room)).after m.world r = .ok w → R m.world.journal w.journal)
    (stepped : Machine.step (x.host (x.hostWithin room)) ⟨f, s⟩ = .ok n) :
    R s.journal n.world.journal ∨
      n.frame.status.isOk = false ∧ L s.journal n.world.journal

/-- The guards of a pact. What holds where a step has been made may depend on what the step has done. -/
structure Wards (x : Executor) (P : Scene → Prop) (A C : Set Address) (D : Set (Address × Bytes))
    (R L : Journal → Journal → Prop) : Prop where
  next {c d : Scene} (h : P c) (hnext : x.Next c d)
    (kept : ∀ f g, c.activity = .step f → d.activity = .step g →
      R c.session.journal d.session.journal) : P d
  payer {room : Nat} {r : CallRequest} {code : Bytes} {s : Session}
    (h : P ⟨room + 1, .callCode r code, s⟩) : r.source ∈ A
  creator {room : Nat} {r : CreateRequest} {s : Session} (h : P ⟨room + 1, .create r, s⟩) :
    r.creator ∈ A
  founded {room : Nat} {r : CreateRequest} {s t : Session} {p : Address × Checkpoint}
    (h : P ⟨room + 1, .create r, s⟩)
    (opened : x.openCreate r (s.noting (.createOpened · r.creator r.gasLimit)) = .ok p t) :
    p.1 ∈ C
  deployed {room : Nat} {r : CreateRequest} {s t : Session} {reply : CreateReply} {a : Address}
    (h : P ⟨room, .create r, s⟩) (replied : x.create (x.hostWithin room) r s = .ok (reply, t))
    (kept : reply.status.isOk = true) (created : reply.address = some a) : (a, reply.output) ∈ D
  step {room : Nat} {f : Frame} {s : Session} {n : Machine Session} (h : P ⟨room, .step f, s⟩)
    (running : f.status = .running)
    (nested : ∀ r m w, Machine.Asking (x.host (x.hostWithin room)) ⟨f, s⟩ r m →
      (x.host (x.hostWithin room)).after m.world r = .ok w → R m.world.journal w.journal)
    (stepped : Machine.step (x.host (x.hostWithin room)) ⟨f, s⟩ = .ok n) :
    R s.journal n.world.journal ∨
      n.frame.status.isOk = false ∧ L s.journal n.world.journal

theorem Guards.wards {x : Executor} {P : Scene → Prop} {A C : Set Address}
    {R L : Journal → Journal → Prop} (guards : x.Guards P A C R L) :
    x.Wards P A C Set.univ R L where
  next h hnext _ := guards.next h hnext
  payer := guards.payer
  creator := guards.creator
  founded := guards.founded
  deployed _ _ _ _ := Set.mem_univ _
  step := guards.step

section Guards

variable {x : Executor} {P : Scene → Prop} {A C : Set Address} {D : Set (Address × Bytes)}
  {R L : Journal → Journal → Prop} {room : Nat} {s t : Session}

theorem Abides.nested (hx : x.Abides P R room) {r : Request} (h : P ⟨room, .ofRequest r, s⟩)
    (ran : (x.host (x.hostWithin room)).after s r = .ok t) : R s.journal t.journal := by
  cases r with
  | call r into =>
    obtain ⟨reply, hreply⟩ := (hx.call h).state.1 t ran
    exact hreply
  | create r =>
    obtain ⟨reply, hreply⟩ := (hx.create h).state.1 t ran
    exact hreply

variable (pact : x.Pact A C D R L)

include pact

theorem Abides.leaves {c : Scene} (hx : x.Abides P R c.room) (h : P c)
    (left : x.leaves c = .ok t) : R c.session.journal t.journal := by
  obtain ⟨room, activity, s⟩ := c
  cases activity with
  | call r =>
    obtain ⟨reply, hreply⟩ := (hx.call h).state.1 t left
    exact hreply
  | callCode r code =>
    obtain ⟨reply, hreply⟩ := (hx.callCode h).state.1 t left
    exact hreply
  | create r =>
    obtain ⟨reply, hreply⟩ := (hx.create h).state.1 t left
    exact hreply
  | payment | step f =>
    cases left
    exact pact.refl _

variable (wards : x.Wards P A C D R L)

include wards

omit pact in
theorem Wards.opens {c d : Scene} (h : P c) (hnext : x.Next c d)
    (enters : ∀ f, c.activity ≠ .step f) : P d :=
  wards.next h hnext fun f _ hf => absurd hf (enters f)

omit pact in
theorem Wards.stepped (hx : x.Abides P R room) {f : Frame} {n : Machine Session}
    (h : P ⟨room, .step f, s⟩) (running : f.status = .running)
    (stepped : Machine.step (x.host (x.hostWithin room)) ⟨f, s⟩ = .ok n) :
    (P ⟨room, .step n.frame, n.world⟩ ∧ R s.journal n.world.journal) ∨
      n.frame.status.isOk = false ∧ L s.journal n.world.journal := by
  refine (wards.step h running (fun r m w asking ran => ?_) stepped).imp_left fun hran => ?_
  · have hasked : P ⟨room, .ofRequest r, m.world⟩ := by
      refine wards.next h (.nest running asking) fun _ g _ hg => ?_
      cases r <;> cases hg
    exact hx.nested hasked ran
  · exact ⟨wards.next h (.step running stepped) fun _ _ _ _ => hran, hran⟩

theorem Wards.runCode_yields (hx : x.Abides P R room) {i : Invocation} {gasLimit : Nat}
    (h : P ⟨room, .step (.start i gasLimit), s⟩) :
    Yields (runCode (x.host (x.hostWithin room)) i gasLimit) s (fun _ => True) fun f t =>
      L s.journal t.journal ∧ (f.status.isOk = true → R s.journal t.journal) := by
  let I : Machine Session → Prop := fun m =>
    (P ⟨room, .step m.frame, m.world⟩ ∧ R s.journal m.world.journal) ∨
      m.frame.status.isOk = false ∧ L s.journal m.world.journal
  have hI : ∀ m n, m.frame.status = .running → I m →
      m.step (x.host (x.hostWithin room)) = .ok n → I n := by
    rintro m n running (⟨hm, hran⟩ | ⟨hfailed, -⟩) stepped
    · exact (wards.stepped hx hm running stepped).imp
        (fun ⟨hn, hkept⟩ => ⟨hn, pact.trans hran hkept⟩)
        fun ⟨hfailed, hlapsed⟩ => ⟨hfailed, pact.after hran hlapsed⟩
    · rw [running] at hfailed
      cases hfailed
  apply Yields.any
  rintro f t hrun
  obtain ⟨m, hm, hft⟩ := Except.map_eq_ok hrun
  obtain ⟨u, hu, rfl⟩ := Except.map_eq_ok hm
  cases hft
  have hstart : I ⟨.start i gasLimit, s⟩ := .inl ⟨h, pact.refl _⟩
  have hend := Machine.runFor_invariant hI hstart hu
  rw [Machine.status_punish, Machine.world_punish]
  obtain ⟨-, hran⟩ | ⟨hfailed, hlapsed⟩ := hend
  · exact ⟨pact.weaken hran, fun _ => hran⟩
  · exact ⟨hlapsed, fun hok => absurd (hok.symm.trans hfailed) Bool.noConfusion⟩

section Abides

variable (hx : ∀ n, room = n + 1 → x.Abides P R n)

include hx

theorem Wards.callCode_closed {r : CallRequest} {code : Bytes}
    (h : P ⟨room, .callCode r code, s⟩) :
    Yields (x.callCode (x.hostWithin room) r code) s (fun _ => True) fun reply t =>
      Closed R L s.journal reply.status t.journal := by
  cases room with
  | zero => exact pact.callCode_yields nofun nofun
  | succ room =>
    refine pact.callCode_yields (fun _ _ => wards.payer h) ?_
    rintro _ ⟨⟩ t opened nonempty
    exact wards.runCode_yields pact (hx room rfl)
      (wards.opens h (.openCall opened nonempty) fun _ => nofun)

theorem Wards.call_closed {r : CallRequest} (h : P ⟨room, .call r, s⟩) :
    Yields (x.call (x.hostWithin room) r) s (fun _ => True) fun reply t =>
      ∃ k, Looks x.database s.journal k ∧ Closed R L k reply.status t.journal :=
  call_yields_closed fun _ _ loaded =>
    wards.callCode_closed pact hx (wards.opens h (.loadCode loaded) fun _ => nofun)

theorem Wards.create_closed {r : CreateRequest} (h : P ⟨room, .create r, s⟩) :
    Yields (x.create (x.hostWithin room) r) s (fun _ => True) fun reply t =>
      ∃ k, (R s.journal k ∧ s.journal.Begun x.database r.creator reply.address k) ∧
        Closed R L k reply.status t.journal := by
  have hcreate : Yields (x.create (x.hostWithin room) r) s (fun _ => True) fun reply t =>
      (reply.status.isOk = true → ∀ a, reply.address = some a → (a, reply.output) ∈ D) →
        ∃ k, (R s.journal k ∧ s.journal.Begun x.database r.creator reply.address k) ∧
          Closed R L k reply.status t.journal := by
    cases room with
    | zero => exact pact.create_yields nofun nofun nofun
    | succ room =>
      refine pact.create_yields (fun _ _ => wards.creator h)
        (fun _ _ _ _ opened => wards.founded h opened) ?_
      rintro _ ⟨⟩ address mark t opened
      exact wards.runCode_yields pact (hx room rfl)
        (wards.opens h (.openCreate opened) fun _ => nofun)
  apply hcreate.known.imp
  rintro reply t ⟨replied, ht⟩
  exact ht fun kept a created => wards.deployed h replied kept created

theorem Wards.abides_of : x.Abides P R room where
  call h := (wards.call_closed pact hx h).imp fun _ _ ⟨_, hlooks, hclosed⟩ =>
    pact.trans (pact.looks hlooks) (pact.of_closed hclosed)
  callCode h := (wards.callCode_closed pact hx h).imp fun _ _ => pact.of_closed
  create h := (wards.create_closed pact hx h).imp fun _ _ ⟨_, ⟨hk, _⟩, hclosed⟩ =>
    pact.trans hk (pact.of_closed hclosed)

end Abides

theorem Wards.abides (room : Nat) : x.Abides P R room := by
  induction room with
  | zero => exact wards.abides_of pact nofun
  | succ room ih =>
    apply wards.abides_of pact
    rintro n hn
    cases hn
    exact ih

omit pact wards in
theorem Guards.abides (guards : x.Guards P A C R L) (charter : x.Charter A C R L) (room : Nat) :
    x.Abides P R room :=
  guards.wards.abides charter.pact room

end Guards

end Executor

end MeteredVM
