import MeteredVM.Proofs.Session.Ceiling

namespace MeteredVM

open Journal

namespace Journal

variable {db : Database} {i j k : Journal} {gasLimit : Nat} {gas : Gas}

theorem Steady.smooth (h : j.Steady k) : j.Smooth k := ⟨.of_extends h.extended, h.refund⟩

theorem Smooth.touched (h : j.Smooth k) (a : Address) : j.Smooth (k.touch a) :=
  h.trans (Plain.touch k a).toSmooth

theorem Smooth.covered (h : j.Smooth k) (hgas : gas.remaining ≤ gasLimit)
    (limit : gas.remaining ≤ gas.limit) : j.Covered gasLimit gas k := by
  refine ⟨h.toMends, ?_, limit⟩
  rw [ceiling_congr h.refund]
  exact ceiling_mono _ (Nat.le_succ_of_le hgas)

theorem Smooth.refused (h : j.Smooth k) : j.Covered gasLimit (.ofLimit gasLimit) k :=
  h.covered (Nat.le_refl _) (Nat.le_refl _)

theorem Smooth.covers (h : i.Smooth j) (h' : j.Covered gasLimit gas k) :
    i.Covered gasLimit gas k := by
  refine ⟨h.toMends.trans h'.mends, ?_, h'.limit⟩
  rw [← ceiling_congr h.refund]
  exact h'.ceiling

end Journal

namespace Session

variable {E : Fault → Prop} {s : Session} {j : Journal}

theorem commit_mends (h : j.deeper.Mends s.journal) :
    Yields commit s E fun _ t => j.Mends t.journal ∧ t.journal.refund = s.journal.refund := by
  obtain ⟨l, hl, hmends, hrefund⟩ := h.commit
  simp only [Yields, commit, onJournal, hl, Except.map]
  exact ⟨hmends, hrefund⟩

theorem revert_mends (h : j.deeper.Mends s.journal) :
    Yields (revert j.mark) s E fun _ t => j.Smooth t.journal := by
  obtain ⟨l, hl, hmends, hrefund⟩ := h.revert
  simp only [Yields, revert, onJournal, hl, Except.map]
  exact ⟨hmends, hrefund⟩

theorem move_smooth {p : TransferPolicy} {source target : Address} {value : Word} (hp : p.Sound)
    (payer : (s.journal.accounts[source]?).isSome) (payee : (s.journal.accounts[target]?).isSome) :
    Ends (move p source target value) s (fun _ t => s.journal.Smooth t.journal)
      fun _ t => s.journal.Smooth t.journal := by
  apply move_rule
  have hmove := hp.plain payer payee value
  exact (hmove.refused fun _ _ hk => hk.2.toSmooth).imp fun _ _ hk => hk.toSmooth

end Session

/-- What code leaves that runs on the host can be undone, and its gas bounds how far the refund
counter can get. -/
structure Host.Moderate (h : Host Session) : Prop where
  run {i : Invocation} {gasLimit : Nat} {s : Session} (hgas : gasLimit ≤ Amount.max) :
    Yields (Executor.runCode h i gasLimit) s (s.journal.Overruns (gasLimit + 1)) fun f t =>
      f.Solid ∧ f.gas.remaining ≤ gasLimit ∧ s.journal.Covered gasLimit f.gas t.journal

theorem Machine.punish_gas {σ : Type} (m : Machine σ) :
    m.punish.frame.gas.remaining ≤ m.frame.gas.remaining := by
  unfold punish
  split
  · exact Nat.zero_le _
  · exact Nat.le_refl _

namespace Executor

variable {x : Executor} {inner : Option (Host Session)} {s : Session} {E : Fault → Prop}

theorem Covers.moderate (hx : x.Covers inner) (hh : (x.host inner).Frugal) :
    (x.host inner).Moderate := by
  refine ⟨fun {i gasLimit s} hgas => ?_⟩
  have hsolid : (Frame.start i gasLimit).Solid := Frame.start_solid i gasLimit
  have hkeeps : Machine.Keeps (x.host inner) i (s.journal.Overruns (gasLimit + 1)) fun m =>
      m.frame.Solid ∧ s.journal.Mends m.world.journal ∧
        m.reach ≤ s.journal.ceiling (gasLimit + 1) := by
    rintro m - running hmax ⟨hm, hmends, hreach⟩ -
    obtain ⟨hok, herror⟩ := hx.step hh hm running hmax
    refine ⟨fun n hn => ?_, fun e he => (herror e he).of_ceiling ?_⟩
    · obtain ⟨hmended, hless⟩ := hok n hn
      have hspends := (Machine.step_spends hh (fun _ : True => hm) hn).follows
      exact ⟨(hspends.solid trivial).1, hmends.trans hmended, Nat.le_trans hless hreach⟩
    · rw [← Machine.reach_of_running running]
      exact hreach
  have hstart : (⟨.start i gasLimit, s⟩ : Machine Session).reach ≤
      s.journal.ceiling (gasLimit + 1) :=
    Machine.reach_le _
  obtain ⟨hok, herror⟩ := Machine.run_keeps hkeeps hh rfl hsolid hgas ⟨hsolid, .refl _, hstart⟩
  apply Yields.iff.mpr
  refine ⟨fun f t hrun => ?_, fun e hrun => herror e (Except.map_eq_error hrun)⟩
  obtain ⟨m, hm, hft⟩ := Except.map_eq_ok hrun
  cases hft
  obtain ⟨hfollows, hended⟩ := Machine.run_ends hh (fun _ : True => hsolid) hm
  obtain ⟨u, ⟨-, hmends, hreach⟩, rfl⟩ := hok m hm
  rw [Machine.status_punish] at hended
  rw [Machine.reach_of_ended hended] at hreach
  have hlimit := hfollows.limit
  have hpaid : u.punish.frame.gas.remaining ≤ gasLimit := hfollows.paid
  refine ⟨(hfollows.solid trivial).1, hpaid, ?_, ?_, ?_⟩
  · rw [Machine.world_punish]
    exact hmends
  · rw [Machine.world_punish]
    exact Nat.le_trans (ceiling_mono _ u.punish_gas) hreach
  · rw [hlimit]
    exact hpaid

section Calls

variable {r : CallRequest}

theorem payCall_smooth (hp : x.transfers.Sound) :
    Ends (x.payCall r) s (fun _ t => s.journal.Smooth t.journal)
      fun _ t => s.journal.Smooth t.journal := by
  have touched : ∀ {l : Journal} {t : Session}, Looks x.database s.journal l →
      t.journal = l.touch r.target → s.journal.Smooth t.journal := by
    intro l t hl ht
    rw [ht]
    exact (Steady.looks hl).smooth.touched _
  apply payCall_rule
  · exact fun t ht => (Steady.looks ht).smooth
  · exact fun l t hl ht => touched hl ht
  · intro l t hl ht payer payee
    refine ((Session.move_smooth hp payer payee).refused ?_).imp ?_
    · exact fun _ u hu => (touched hl ht).trans hu
    · exact fun _ u hu => (touched hl ht).trans hu

theorem openCall_smooth (hp : x.transfers.Sound) :
    Yields (x.openCall r) s E fun opened t =>
      match opened with
      | .ok mark => mark = s.journal.mark ∧ s.journal.deeper.Smooth t.journal
      | .error _ => s.journal.Smooth t.journal := by
  apply openCall_rule
  refine ((payCall_smooth hp).refused fun _ t ht => ?_).imp fun _ _ ht => ⟨rfl, ht⟩
  exact Session.revert_mends ht.toMends

theorem closeCall_covered {j : Journal} {f : Frame} {gasLimit : Nat} (hf : f.Solid)
    (hgas : f.gas.remaining ≤ gasLimit) (h : j.deeper.Covered gasLimit f.gas s.journal) :
    Yields (closeCall j.mark f) s E fun reply t => j.Covered gasLimit reply.gas t.journal := by
  apply closeCall_rule hf.unfaulted
  · intro _
    refine (Session.commit_mends h.mends).imp ?_
    rintro _ t ⟨hmends, hrefund⟩ _
    exact ⟨hmends, Nat.le_trans (Nat.le_of_eq (ceiling_congr hrefund _)) h.ceiling, h.limit⟩
  · exact fun _ => (Session.revert_mends h.mends).imp fun _ _ ht _ => ht.covered hgas h.limit

theorem callCode_covered {code : Bytes} (hp : x.transfers.Sound)
    (hinner : ∀ h ∈ inner, h.Moderate) (hgas : r.gasLimit ≤ Amount.max) :
    Yields (x.callCode inner r code) s (s.journal.Overruns (r.gasLimit + 1)) fun reply t =>
      s.journal.Covered r.gasLimit reply.gas t.journal := by
  apply Yields.bind .emit
  rintro _ _ rfl
  cases inner with
  | none => exact .pure (Smooth.refused (.refl _))
  | some h =>
    apply Yields.bind (openCall_smooth hp)
    intro opened s₁ hs₁
    cases opened with
    | error status => exact .pure hs₁.refused
    | ok mark =>
      obtain ⟨rfl, hs₁⟩ := hs₁
      dsimp only
      split
      · apply Yields.bind (Session.commit_mends hs₁.toMends)
        rintro _ s₂ ⟨hmends, hrefund⟩
        exact .pure (Smooth.refused ⟨hmends, hrefund.trans hs₁.refund⟩)
      · have hrun := (hinner h rfl).run (i := x.callInvocation r code) (s := s₁) hgas
        refine Yields.bind (hrun.faulted fun e he => ?_) ?_
        · exact he.of_ceiling (Nat.le_of_eq (ceiling_congr hs₁.refund _))
        rintro f s₂ ⟨hf, hleft, hcovered⟩
        exact closeCall_covered hf hleft (hs₁.covers hcovered)

theorem call_covered (hp : x.transfers.Sound) (hinner : ∀ h ∈ inner, h.Moderate)
    (hgas : r.gasLimit ≤ Amount.max) :
    Yields (x.call inner r) s (s.journal.Overruns (r.gasLimit + 1)) fun reply t =>
      s.journal.Covered r.gasLimit reply.gas t.journal := by
  apply Yields.bind (.attempt (Session.load_ends (loadCode_shows r.codeAddress s.journal)))
  intro loaded s₁ hs₁
  cases loaded with
  | error e =>
    exact .pure ((Steady.looks hs₁).smooth.covered (Nat.le_refl _) (Nat.le_refl _))
  | ok code =>
    obtain ⟨-, hlooks, -⟩ := hs₁
    have hsmooth := (Steady.looks hlooks).smooth
    refine ((callCode_covered hp hinner hgas).faulted fun e he => ?_).imp fun reply t ht => ?_
    · exact he.of_ceiling (Nat.le_of_eq (ceiling_congr hsmooth.refund _))
    · exact hsmooth.covers ht

end Calls

section Creates

variable {r : CreateRequest}

theorem endowCreate_smooth (hp : x.transfers.Sound) :
    Yields (x.endowCreate r) s E fun endowed t =>
      match endowed with
      | .ok (_, mark) => ∃ k : Journal, s.journal.Smooth k ∧ mark = k.mark ∧
          k.deeper.Smooth t.journal
      | .error _ => s.journal.Smooth t.journal := by
  apply endowCreate_rule (openCreate_ends.refused fun _ _ h =>
    ⟨.of_extends h.uncreated.extends, h.uncreated.others.2⟩)
  rintro ⟨address, mark⟩ t - ⟨n, k, hclaims, rfl, ht⟩
  have hcounted : s.journal.Smooth k :=
    ⟨.of_extends hclaims.counted.extends, hclaims.counted.others.2⟩
  obtain ⟨y, hy, -, hnonce⟩ := hclaims.free
  have hopened : k.deeper.Smooth t.journal := by
    rw [ht]
    exact (Plain.opened hy hnonce).toSmooth
  obtain ⟨payer, payee⟩ := hclaims.parties
  rw [← ht] at payer payee
  refine ((Session.move_smooth hp payer payee).refused fun _ u hu => ?_).imp
    fun _ u hu => ⟨k, hcounted, rfl, hopened.trans hu⟩
  exact (Session.revert_mends (hopened.trans hu).toMends).imp fun _ _ hv => hcounted.trans hv

theorem closeCreate_covered {address : Address} {j : Journal} {f : Frame} {gasLimit : Nat}
    (hf : f.Solid) (hgas : f.gas.remaining ≤ gasLimit)
    (h : j.deeper.Covered gasLimit f.gas s.journal) :
    Yields (x.closeCreate address j.mark f) s E fun reply t =>
      j.Covered gasLimit reply.gas t.journal := by
  apply closeCreate_rule hf.unfaulted
  · exact fun _ => (Session.revert_mends h.mends).imp fun _ _ ht _ => ht.covered hgas h.limit
  · intro _ output gas code _ hdeposit
    obtain ⟨hremaining, hlimit⟩ := deposit_gas hdeposit
    refine (Session.commit_mends h.mends).imp ?_
    rintro _ t ⟨hmends, hrefund⟩
    have hcode := (Plain.setCode t.journal address code).toSmooth
    refine ⟨hmends.trans hcode.toMends, ?_, ?_⟩
    · have hsame := ceiling_congr (hcode.refund.trans hrefund) gas.remaining
      exact Nat.le_trans (Nat.le_of_eq hsame) (Nat.le_trans (ceiling_mono _ hremaining) h.ceiling)
    · rw [hlimit]
      exact Nat.le_trans hremaining h.limit
  · exact fun _ _ _ _ => (Session.revert_mends h.mends).imp fun _ _ ht =>
      ht.covered (Nat.zero_le _) (Nat.zero_le _)

theorem create_covered (hp : x.transfers.Sound) (hinner : ∀ h ∈ inner, h.Moderate)
    (hgas : r.gasLimit ≤ Amount.max) :
    Yields (x.create inner r) s (s.journal.Overruns (r.gasLimit + 1)) fun reply t =>
      s.journal.Covered r.gasLimit reply.gas t.journal := by
  apply Yields.bind .emit
  rintro _ _ rfl
  cases inner with
  | none => exact .pure (Smooth.refused (.refl _))
  | some h =>
    apply Yields.bind (endowCreate_smooth hp)
    intro endowed s₁ hs₁
    cases endowed with
    | error why => exact .pure hs₁.refused
    | ok p =>
      obtain ⟨address, mark⟩ := p
      obtain ⟨k, hcounted, rfl, hs₁⟩ := hs₁
      have hrun := (hinner h rfl).run (i := x.createInvocation r address) (s := s₁) hgas
      refine Yields.bind (hrun.faulted fun e he => ?_) ?_
      · exact he.of_ceiling (Nat.le_of_eq (ceiling_congr (hs₁.refund.trans hcounted.refund) _))
      rintro f s₂ ⟨hf, hleft, hcovered⟩
      apply Yields.bind (closeCreate_covered hf hleft (hs₁.covers hcovered))
      intro reply s₃ hs₃
      apply Yields.bind .emit
      rintro _ _ rfl
      exact .pure (hcounted.covers hs₃)

end Creates

theorem covers_of_moderate (hp : x.transfers.Sound) (hinner : ∀ h ∈ inner, h.Moderate) :
    x.Covers inner :=
  ⟨call_covered hp hinner, create_covered hp hinner⟩

theorem hostWithin_moderate (hp : x.transfers.Sound) (room : Nat) :
    ∀ h ∈ x.hostWithin room, h.Moderate := by
  induction room with
  | zero => nofun
  | succ room ih =>
    rintro _ ⟨⟩
    exact (covers_of_moderate hp ih).moderate (x.host_frugal room)

end Executor

end MeteredVM
