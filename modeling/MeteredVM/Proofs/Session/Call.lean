import MeteredVM.Proofs.Journal.Payment
import MeteredVM.Proofs.Session.Act
import MeteredVM.Proofs.Session.Nested

namespace MeteredVM

open Journal Relation

def Journal.Restored (db : Database) (j k : Journal) : Prop := ∃ l, Looks db j l ∧ k.Same l

theorem Journal.Restored.of_looks {db : Database} {j k : Journal} (h : Looks db j k) :
    Restored db j k :=
  ⟨k, h, .refl k⟩

theorem Journal.Restored.of_same {db : Database} {j k : Journal} (h : k.Same j) :
    Restored db j k :=
  ⟨j, .refl, h⟩

theorem Journal.Restored.after_looks {db : Database} {i j k : Journal} (hij : Looks db i j)
    (hjk : Restored db j k) : Restored db i k := by
  obtain ⟨l, hjl, hkl⟩ := hjk
  exact ⟨l, hij.trans hjl, hkl⟩

theorem Journal.Restored.extends {db : Database} {j k : Journal} (h : Restored db j k) :
    j.Extends k := by
  obtain ⟨l, hjl, hkl⟩ := h
  exact hjl.extends.trans hkl.extends

theorem Journal.Restored.view {db : Database} {j k : Journal} (h : Restored db j k) :
    k.view db = j.view db := by
  obtain ⟨l, hjl, hkl⟩ := h
  rw [hkl.view, hjl.view]

theorem Journal.Restored.others {db : Database} {j k : Journal} (h : Restored db j k) :
    k.hardfork = j.hardfork ∧ k.logs = j.logs ∧ k.refund = j.refund := by
  obtain ⟨l, hjl, hkl⟩ := h
  obtain ⟨hf, hl, hr⟩ := hjl.others
  exact ⟨hkl.hardfork.trans hf, hkl.logs.trans hl, hkl.refund.trans hr⟩

namespace Session

variable {E : Fault → Prop} {s : Session}

theorem load_ends {α : Type} {db : Database} {y : Loading α} {Q : α → Journal → Prop}
    (h : Shows db y s.journal Q) :
    Ends (load y) s (fun _ t => Looks db s.journal t.journal) fun a t =>
      Looks db s.journal t.journal ∧ Q a t.journal :=
  load_rule (Shows.iff.mp h)

theorem require_ends {ε : Type} (db : Database) (a : Address) (refusal : ε) :
    Ends (require db a refusal) s (fun e t => e = refusal ∧ Looks db s.journal t.journal)
      fun _ t => Looks db s.journal t.journal ∧ (t.journal.accounts[a]?).isSome := by
  have hload : Ends (load (loadAccount db a)) s _ _ := load_ends (loadAccount_shows a s.journal)
  apply require_rule
  refine (hload.refused fun _ t ht => ⟨rfl, ht⟩).imp fun found t ht => ⟨ht.1, ?_⟩
  rw [ht.2]
  rfl

theorem move_ends {policy : TransferPolicy} (db : Database) {source target : Address}
    {value : Word} (hp : policy.Sound) (hs : (s.journal.accounts[source]?).isSome)
    (ht : (s.journal.accounts[target]?).isSome) (hpay : s.journal.Payable db source target value) :
    Ends (move policy source target value) s (fun _ t => t.journal = s.journal.touch source)
      fun _ t => s.journal.Paid db source target value t.journal := by
  apply move_rule
  exact hp.move hs ht hpay

theorem checkpoint_yields :
    Yields checkpoint s E fun mark t =>
      mark = s.journal.mark ∧ t.journal = s.journal.deeper := by
  simp only [Yields, checkpoint]
  exact ⟨rfl, rfl⟩

theorem commit_yields {j : Journal} (h : j.deeper.Extends s.journal) :
    Yields commit s E fun _ t => s.journal.commit = .ok t.journal := by
  obtain ⟨l, hl, -, -⟩ := h.commit
  simp only [Yields, commit, onJournal, hl, Except.map]

theorem revert_yields {j : Journal} (h : j.deeper.Extends s.journal) :
    Yields (revert j.mark) s E fun _ t => t.journal.Same j := by
  obtain ⟨l, hl, hs, -⟩ := h.revert
  simp only [Yields, revert, onJournal, hl, Except.map]
  exact hs

end Session

theorem Frame.Solid.outputData {f : Frame} (hf : f.Solid) : ∃ output, f.outputData = .ok output := by
  unfold Frame.outputData
  split
  · exact ⟨_, rfl⟩
  · rename_i hlength
    refine ⟨_, if_pos ?_⟩
    exact hf.output hlength

theorem Frame.Solid.unfaulted {f : Frame} (hf : f.Solid) {E : Fault → Prop} (e : Fault)
    (h : f.outputData = .error e) : E e := by
  obtain ⟨output, houtput⟩ := hf.outputData
  cases houtput.symm.trans h

def Journal.PaidCall (db : Database) (j : Journal) (r : CallRequest) (k : Journal) : Prop :=
  ∃ l, Looks db j l ∧ (l.touch r.target).Paid db r.source r.target r.value k

theorem Journal.PaidCall.extends {db : Database} {j k : Journal} {r : CallRequest}
    (h : j.PaidCall db r k) : j.Extends k := by
  obtain ⟨l, hl, hk⟩ := h
  exact hl.extends.trans ((touch_extends l r.target).trans hk.extends)

namespace Executor

variable {x : Executor} {inner : Option (Host Session)} {r : CallRequest} {code : Bytes}
  {E : Fault → Prop} {s : Session}

/-- A payment is made after looks, which may fail, and a touch. -/
theorem payCall_rule {E : Status → Session → Prop} {Q : Unit → Session → Prop}
    (failed : ∀ t, Looks x.database s.journal t.journal → E .hostFailure t)
    (denied : ∀ l t, Looks x.database s.journal l → t.journal = l.touch r.target → E .outOfFunds t)
    (paid : ∀ l t, Looks x.database s.journal l → t.journal = l.touch r.target →
      (t.journal.accounts[r.source]?).isSome → (t.journal.accounts[r.target]?).isSome →
        Ends (Session.move x.transfers r.source r.target r.value) t E Q) :
    Ends (x.payCall r) s E Q := by
  unfold payCall
  refine Ends.bind ((Session.require_ends _ _ _).refused ?_) ?_
  · rintro _ t ⟨rfl, ht⟩
    exact failed t ht
  rintro - s₁ ⟨h₁, hsource⟩
  refine Ends.bind ((Session.require_ends _ _ _).refused ?_) ?_
  · rintro _ t ⟨rfl, ht⟩
    exact failed t (h₁.trans ht)
  rintro - s₂ ⟨h₂, htarget⟩
  apply Ends.bind .modify
  rintro - s₃ hs₃
  have htouched : s₃.journal = s₂.journal.touch r.target := by rw [hs₃]
  apply Ends.bind .get
  rintro _ _ ⟨rfl, rfl⟩
  split
  · exact .throw (denied _ _ (h₁.trans h₂) htouched)
  · refine paid _ _ (h₁.trans h₂) htouched ?_ ?_
    · rw [htouched, loaded_touch]
      exact Looks.loaded h₂ hsource
    · rw [htouched, loaded_touch]
      exact htarget

theorem payCall_ends (hp : x.transfers.Sound)
    (hpay : s.journal.Payable x.database r.source r.target r.value) :
    Ends (x.payCall r) s (fun _ t => s.journal.Extends t.journal) fun _ t =>
      s.journal.PaidCall x.database r t.journal := by
  have touched : ∀ {l : Journal} {t : Session}, Looks x.database s.journal l →
      t.journal = l.touch r.target → s.journal.Extends t.journal := by
    intro l t hl ht
    rw [ht]
    exact (Looks.extends hl).trans (touch_extends _ _)
  apply payCall_rule
  · intro t ht
    exact Looks.extends ht
  · intro l t hl ht
    exact touched hl ht
  · intro l t hl ht payer payee
    refine ((Session.move_ends x.database hp payer payee ?_).refused ?_).imp ?_
    · refine hpay.of_view fun a => ?_
      rw [ht, balance_touch, Looks.view hl]
    · intro e u hu
      rw [hu]
      exact (touched hl ht).trans (touch_extends _ _)
    · intro _ u hu
      rw [ht] at hu
      exact ⟨l, hl, hu⟩

theorem openCall_yields (hp : x.transfers.Sound)
    (hpay : s.journal.Payable x.database r.source r.target r.value) :
    Yields (x.openCall r) s E fun opened t =>
      match opened with
      | .ok mark => mark = s.journal.mark ∧ s.journal.deeper.PaidCall x.database r t.journal
      | .error _ => t.journal.Same s.journal := by
  have hpay' : s.journal.deeper.Payable x.database r.source r.target r.value :=
    hpay.of_view fun _ => rfl
  have hpaid := payCall_ends (s := { s with journal := s.journal.deeper }) hp hpay'
  apply openCall_rule
  exact (hpaid.refused fun _ _ ht => Session.revert_yields ht).imp fun _ _ ht => ⟨rfl, ht⟩

theorem closeCall_yields {j : Journal} {f : Frame} (hf : f.Solid)
    (h : j.deeper.Extends s.journal) :
    Yields (closeCall j.mark f) s E fun reply t =>
      reply.status = f.status ∧
        if f.status.isOk then s.journal.commit = .ok t.journal else t.journal.Same j := by
  apply closeCall_rule hf.unfaulted
  · intro hok
    refine (Session.commit_yields h).imp fun _ t ht _ => ⟨rfl, ?_⟩
    rw [if_pos hok]
    exact ht
  · intro hfailed
    refine (Session.revert_yields h).imp fun _ t ht _ => ⟨rfl, ?_⟩
    rw [if_neg (Bool.not_eq_true _ |>.mpr hfailed)]
    exact ht

end Executor

def Journal.KeptCall (db : Database) (R : Journal → Journal → Prop) (j : Journal) (r : CallRequest)
    (k : Journal) : Prop :=
  ∃ i l, j.deeper.PaidCall db r i ∧ R i l ∧ l.commit = .ok k

namespace Executor

variable {x : Executor} {inner : Option (Host Session)} {r : CallRequest} {code : Bytes}
  {E : Fault → Prop} {R : Journal → Journal → Prop} {s : Session}

theorem callCode_yields (hp : x.transfers.Sound)
    (hpay : s.journal.Payable x.database r.source r.target r.value) (hR : ∀ j, R j j)
    (hextends : ∀ j k, R j k → j.Extends k)
    (hrun : ∀ h ∈ inner, ∀ t,
      x.openCall r (s.noting (.callOpened · r.codeAddress r.gasLimit)) =
        .ok (.ok s.journal.mark, t) →
      code.size ≠ 0 → Yields (runCode h (x.callInvocation r code) r.gasLimit) t E fun f u =>
        f.Solid ∧ R t.journal u.journal) :
    Yields (x.callCode inner r code) s E fun reply t =>
      Journal.Restored x.database s.journal t.journal ∨
        reply.status.isOk = true ∧ s.journal.KeptCall x.database R r t.journal := by
  apply Yields.bind .emit
  rintro _ _ rfl
  cases inner with
  | none => exact .pure (.inl (.of_looks .refl))
  | some h =>
    refine Yields.bind (openCall_yields hp ?_).known ?_
    · exact hpay
    rintro opened s₁ ⟨hs, hs₁⟩
    cases opened with
    | error status => exact .pure (.inl (.of_same hs₁))
    | ok mark =>
      obtain ⟨rfl, hs₁⟩ := hs₁
      dsimp only
      split
      · apply Yields.bind (Session.commit_yields hs₁.extends)
        intro _ s₂ hs₂
        exact .pure (.inr ⟨rfl, _, _, hs₁, hR _, hs₂⟩)
      · rename_i hcode
        apply Yields.bind (hrun h rfl s₁ hs hcode)
        rintro f s₂ ⟨hf, hs₂⟩
        apply (closeCall_yields hf (hs₁.extends.trans (hextends _ _ hs₂))).imp
        rintro reply t ⟨hstatus, ht⟩
        split at ht
        · rename_i hok
          rw [← hstatus] at hok
          exact .inr ⟨hok, _, _, hs₁, hs₂, ht⟩
        · exact .inl (.of_same ht)

theorem call_yields (hp : x.transfers.Sound)
    (hpay : s.journal.Payable x.database r.source r.target r.value) (hR : ∀ j, R j j)
    (hextends : ∀ j k, R j k → j.Extends k)
    (hrun : ∀ h ∈ inner, ∀ code t u,
      Session.load (Journal.loadCode x.database r.codeAddress) s = .ok code t →
      x.openCall r (t.noting (.callOpened · r.codeAddress r.gasLimit)) =
        .ok (.ok t.journal.mark, u) →
      code.value.size ≠ 0 →
        Yields (runCode h (x.callInvocation r code.value) r.gasLimit) u E fun f v =>
          f.Solid ∧ R u.journal v.journal) :
    Yields (x.call inner r) s E fun reply t =>
      Journal.Restored x.database s.journal t.journal ∨
        reply.status.isOk = true ∧ ∃ j, Looks x.database s.journal j ∧
          j.KeptCall x.database R r t.journal := by
  apply Yields.bind (.attempt (Session.load_ends (loadCode_shows r.codeAddress s.journal)))
  intro loaded s₁ hs₁
  cases loaded with
  | error e => exact .pure (.inl (.of_looks hs₁))
  | ok code =>
    obtain ⟨hs, hlooks, -⟩ := hs₁
    have hpay₁ : s₁.journal.Payable x.database r.source r.target r.value := by
      refine hpay.of_view fun a => ?_
      rw [Looks.view hlooks]
    refine (callCode_yields hp hpay₁ hR hextends fun h hh t ht => hrun h hh code s₁ t hs ht).imp ?_
    rintro reply t (hrestored | ⟨hok, hkept⟩)
    · exact .inl (hrestored.after_looks hlooks)
    · exact .inr ⟨hok, _, hlooks, hkept⟩

end Executor

end MeteredVM
