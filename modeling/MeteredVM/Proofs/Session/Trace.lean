import MeteredVM.Proofs.Session.Frugal
import MeteredVM.Proofs.Session.Grows

namespace MeteredVM

open Journal Relation

namespace Executor

variable {x : Executor} {K : Set (Address × Nat)} {room : Nat} {s : Session}

structure Conducts (x : Executor) (K : Set (Address × Nat)) (room : Nat) : Prop where
  call {r : CallRequest} {s : Session} (hc : Scene.Valid x K ⟨room, .call r, s⟩) :
    Yields (x.call (x.hostWithin room) r) s (· = .overflow) fun reply t =>
      s.journal.Grows x.database K t.journal ∧
        (reply.status.isOk = false → s.journal.Restored x.database t.journal)
  callCode {r : CallRequest} {code : Bytes} {s : Session}
    (hc : Scene.Valid x K ⟨room, .callCode r code, s⟩) :
    Yields (x.callCode (x.hostWithin room) r code) s (· = .overflow) fun reply t =>
      s.journal.Grows x.database K t.journal ∧
        (reply.status.isOk = false → s.journal.Restored x.database t.journal)
  create {r : CreateRequest} {s : Session} (hc : Scene.Valid x K ⟨room, .create r, s⟩) :
    Yields (x.create (x.hostWithin room) r) s (· = .overflow) fun reply t =>
      s.journal.Grows x.database K t.journal ∧
        (reply.status.isOk = false →
          s.journal.Uncreated x.database r.creator reply.address t.journal)

section Step

variable {f : Frame} {r : Request} {n : Machine Session}

theorem nest_valid (hc : Scene.Valid x K ⟨room, .step f, s⟩) (running : f.status = .running)
    (asking : Machine.Asking (x.host (x.hostWithin room)) ⟨f, s⟩ r n) :
    Scene.Valid x K ⟨room, .ofRequest r, n.world⟩ := by
  have hgrows : s.journal.Grows x.database K n.world.journal := host_acts_grows asking.used
  obtain ⟨-, hmax, hrules⟩ := hc.proper
  have hpermitted := asking.permitted
  have hpaid := asking.paid
  apply hc.stays (.nest running asking) hgrows.1.depth hgrows.2
  cases r with
  | call r into =>
    simp only [Request.gasLimit] at hpaid
    exact Nat.le_trans (by omega) hmax
  | create r =>
    simp only [Request.gasLimit] at hpaid
    refine ⟨Nat.le_trans (by omega) hmax, fun hsalt => ?_⟩
    rw [← hrules]
    exact Invocation.MayCreate.salt hpermitted hsalt

theorem nested_grows (hx : x.Conducts K room) (hc : Scene.Valid x K ⟨room, .ofRequest r, s⟩) :
    (∀ t, (x.host (x.hostWithin room)).after s r = .ok t →
      s.journal.Grows x.database K t.journal) ∧
      ∀ e, (x.host (x.hostWithin room)).after s r = .error e → e = .overflow := by
  cases r with
  | call r into =>
    obtain ⟨hok, herror⟩ := (hx.call hc).state
    refine ⟨fun t ht => ?_, herror⟩
    obtain ⟨-, hgrows, -⟩ := hok t ht
    exact hgrows
  | create r =>
    obtain ⟨hok, herror⟩ := (hx.create hc).state
    refine ⟨fun t ht => ?_, herror⟩
    obtain ⟨-, hgrows, -⟩ := hok t ht
    exact hgrows

theorem refund_fault {inner : Option (Host Session)} {i : Invocation} {e : Fault}
    (h : (x.host inner).RefundFails i e) : e = .overflow := by
  obtain ⟨-, amount, w, hfault⟩ := h
  exact recordRefund_error (Except.map_eq_error hfault)

theorem step_grows (hx : x.Conducts K room) (hc : Scene.Valid x K ⟨room, .step f, s⟩)
    (running : f.status = .running) :
    (∀ n, Machine.step (x.host (x.hostWithin room)) ⟨f, s⟩ = .ok n →
      s.journal.Grows x.database K n.world.journal) ∧
      ∀ e, Machine.step (x.host (x.hostWithin room)) ⟨f, s⟩ = .error e → e = .overflow := by
  obtain ⟨hsolid, hmax, -⟩ := hc.proper
  have hfrugal := x.host_frugal room
  have hleads := Machine.step_leads (s := ⟨f, s⟩) hfrugal hsolid hmax
  apply hleads.keeps fun w used => host_acts_grows used
  · intro r n asking
    obtain ⟨hok, herror⟩ := nested_grows hx (nest_valid hc running asking)
    exact ⟨fun w hw => (host_acts_grows asking.used).trans (hok w hw), herror⟩
  · intro e fails
    exact refund_fault fails

theorem step_valid (hx : x.Conducts K room) (hc : Scene.Valid x K ⟨room, .step f, s⟩)
    (running : f.status = .running)
    (stepped : Machine.step (x.host (x.hostWithin room)) ⟨f, s⟩ = .ok n) :
    Scene.Valid x K ⟨room, .step n.frame, n.world⟩ := by
  obtain ⟨hsolid, hmax, hrules⟩ := hc.proper
  have hgrows := (step_grows hx hc running).1 n stepped
  have hfrugal := x.host_frugal room
  have hspends := (Machine.step_spends hfrugal (fun _ : True => hsolid) stepped).follows
  apply hc.stays (.step running stepped) hgrows.1.depth hgrows.2
  refine ⟨(hspends.solid trivial).1, ?_, ?_⟩
  · exact Nat.le_trans hspends.paid hmax
  · rw [hspends.invocation]
    exact hrules

end Step

/-- Running the code of a frame makes the state a later one. -/
theorem runCode_grows {i : Invocation} {gasLimit : Nat} (hx : x.Conducts K room)
    (hc : Scene.Valid x K ⟨room, .step (.start i gasLimit), s⟩) :
    Yields (runCode (x.host (x.hostWithin room)) i gasLimit) s (· = .overflow) fun f t =>
      f.Solid ∧ s.journal.Grows x.database K t.journal := by
  have hfrugal := x.host_frugal room
  have hkeeps : Machine.Keeps (x.host (x.hostWithin room)) i (· = .overflow) fun m =>
      Scene.Valid x K ⟨room, .step m.frame, m.world⟩ ∧
        s.journal.Grows x.database K m.world.journal := by
    rintro m - running - ⟨hm, hgrows⟩ -
    obtain ⟨hok, herror⟩ := step_grows hx hm running
    exact ⟨fun n hn => ⟨step_valid hx hm running hn, hgrows.trans (hok n hn)⟩, herror⟩
  apply (runCode_yields hkeeps hfrugal hc.proper.2.1 ⟨hc, .refl _⟩).imp
  rintro f t ⟨hf, g, -, hgrows⟩
  exact ⟨hf, hgrows⟩

theorem loadCode_valid {r : CallRequest} {t : Session} {code : Loaded Bytes}
    (hc : Scene.Valid x K ⟨room, .call r, s⟩)
    (loaded : Session.load (Journal.loadCode x.database r.codeAddress) s = .ok code t) :
    Scene.Valid x K ⟨room, .callCode r code.value, t⟩ := by
  have hload : Ends (Session.load (Journal.loadCode x.database r.codeAddress)) s _ _ :=
    Session.load_ends (loadCode_shows r.codeAddress s.journal)
  have hlooks := (hload.ok loaded).1
  exact hc.stays (.loadCode loaded) hlooks.extends.depth hlooks.progress hc.proper

theorem payCall_valid {r : CallRequest} {code : Bytes} {t : Session} {mark : Checkpoint}
    (hc : Scene.Valid x K ⟨room + 1, .callCode r code, s⟩)
    (opened : Session.checkpoint (s.noting (.callOpened · r.codeAddress r.gasLimit)) =
      .ok (mark, t)) :
    Scene.Valid x K ⟨room, .payment, t⟩ := by
  have hcheckpoint := Session.checkpoint_yields (E := fun _ => False)
    (s := s.noting (.callOpened · r.codeAddress r.gasLimit))
  have ht : t.journal = s.journal.deeper := (hcheckpoint.ok opened).2
  have hdepth : t.journal.depth = s.journal.depth + 1 := congrArg Journal.depth ht
  have hprogress : s.journal.Progress x.database K t.journal := by
    rw [ht]
    exact deeper_progress _
  exact hc.deepens (.payCall opened) hdepth hprogress trivial

theorem openCall_valid (hp : x.transfers.Sound) {r : CallRequest} {code : Bytes} {t : Session}
    {mark : Checkpoint} (hc : Scene.Valid x K ⟨room + 1, .callCode r code, s⟩)
    (opened : x.openCall r (s.noting (.callOpened · r.codeAddress r.gasLimit)) =
      .ok (.ok mark, t))
    (nonempty : code.size ≠ 0) :
    Scene.Valid x K ⟨room, .step (.start (x.callInvocation r code) r.gasLimit), t⟩ := by
  have hpay := payable_of_wealth hc.sound.funded r.source r.target r.value
  have hopen := openCall_yields (E := fun _ => False)
    (s := s.noting (.callOpened · r.codeAddress r.gasLimit)) hp hpay
  obtain ⟨-, hpaid⟩ := hopen.ok opened
  have hdepth : t.journal.depth = s.journal.depth + 1 := hpaid.extends.depth
  exact hc.deepens (.openCall opened nonempty) hdepth ((deeper_progress _).trans hpaid.progress)
    ⟨Frame.start_solid _ _, hc.proper, rfl⟩

theorem payCreate_valid (hinj : ContractAddress.Distinct K)
    {r : CreateRequest} {t : Session} {address : Address} {mark : Checkpoint}
    (hc : Scene.Valid x K ⟨room + 1, .create r, s⟩)
    (opened : x.openCreate r (s.noting (.createOpened · r.creator r.gasLimit)) =
      .ok (address, mark) t) :
    Scene.Valid x K ⟨room, .payment, t⟩ := by
  obtain ⟨n, k, hclaims, -, ht⟩ := openCreate_ends.ok opened
  have hcounted : s.journal.Counted x.database r.creator n k := hclaims.counted
  have hextends := hclaims.opened_extends (hclaims.not_created hinj hc)
  have hprogress := hclaims.progress hinj hc
  rw [← ht] at hextends hprogress
  have hdepth : t.journal.depth = k.depth + 1 := hextends.depth
  rw [hcounted.extends.depth] at hdepth
  exact hc.deepens (.payCreate opened) hdepth hprogress trivial

theorem openCreate_valid (hp : x.transfers.Sound)
    (hinj : ContractAddress.Distinct K) {r : CreateRequest} {t : Session}
    {address : Address} {mark : Checkpoint} (hc : Scene.Valid x K ⟨room + 1, .create r, s⟩)
    (opened : x.endowCreate r (s.noting (.createOpened · r.creator r.gasLimit)) =
      .ok (.ok (address, mark), t)) :
    Scene.Valid x K ⟨room, .step (.start (x.createInvocation r address) r.gasLimit), t⟩ := by
  have hendow := endowCreate_yields (E := fun _ => False) hp (grants hinj hc)
  obtain ⟨n, k, hclaims, -, hpaid⟩ := hendow.ok opened
  have hcounted : s.journal.Counted x.database r.creator n k := hclaims.counted
  have hextends := hclaims.opened_extends (hclaims.not_created hinj hc)
  have hdepth : t.journal.depth = k.depth + 1 := (hextends.trans hpaid.extends).depth
  rw [hcounted.extends.depth] at hdepth
  exact hc.deepens (.openCreate opened) hdepth ((hclaims.progress hinj hc).trans hpaid.progress)
    ⟨Frame.start_solid _ _, hc.proper.1, rfl⟩

section Conduct

variable (hp : x.transfers.Sound) (hinj : ContractAddress.Distinct K)
  (hx : ∀ n, room = n + 1 → x.Conducts K n)

include hp hx

theorem callCode_runs {r : CallRequest} {code : Bytes}
    (hc : Scene.Valid x K ⟨room, .callCode r code, s⟩) {h : Host Session}
    (hh : h ∈ x.hostWithin room) {t : Session} {mark : Checkpoint}
    (opened : x.openCall r (s.noting (.callOpened · r.codeAddress r.gasLimit)) =
      .ok (.ok mark, t))
    (nonempty : code.size ≠ 0) :
    Yields (runCode h (x.callInvocation r code) r.gasLimit) t (· = .overflow) fun f u =>
      f.Solid ∧ t.journal.Grows x.database K u.journal := by
  cases room with
  | zero => cases hh
  | succ room =>
    cases hh
    exact runCode_grows (hx room rfl) (openCall_valid hp hc opened nonempty)

theorem callCode_conducted {r : CallRequest} {code : Bytes}
    (hc : Scene.Valid x K ⟨room, .callCode r code, s⟩) :
    Yields (x.callCode (x.hostWithin room) r code) s (· = .overflow) fun reply t =>
      s.journal.Grows x.database K t.journal ∧
        (reply.status.isOk = false → s.journal.Restored x.database t.journal) := by
  have hpay := payable_of_wealth hc.sound.funded r.source r.target r.value
  refine (callCode_yields hp hpay Grows.refl (fun _ _ h => h.1) fun h hh t opened nonempty =>
    callCode_runs hp hx hc hh opened nonempty).imp ?_
  rintro reply t (hrestored | ⟨hok, hkept⟩)
  · exact ⟨hrestored.grows, fun _ => hrestored⟩
  · exact ⟨hkept.grows, fun hfailed => absurd (hok.symm.trans hfailed) Bool.noConfusion⟩

theorem call_conducted {r : CallRequest} (hc : Scene.Valid x K ⟨room, .call r, s⟩) :
    Yields (x.call (x.hostWithin room) r) s (· = .overflow) fun reply t =>
      s.journal.Grows x.database K t.journal ∧
        (reply.status.isOk = false → s.journal.Restored x.database t.journal) := by
  have hpay := payable_of_wealth hc.sound.funded r.source r.target r.value
  refine (call_yields hp hpay Grows.refl (fun _ _ h => h.1) fun h hh code t u loaded =>
    callCode_runs hp hx (loadCode_valid hc loaded) hh).imp ?_
  rintro reply t (hrestored | ⟨hok, j, hlooks, hkept⟩)
  · exact ⟨hrestored.grows, fun _ => hrestored⟩
  · exact ⟨(Looks.grows hlooks).trans hkept.grows,
      fun hfailed => absurd (hok.symm.trans hfailed) Bool.noConfusion⟩

include hinj

theorem create_conducted {r : CreateRequest} (hc : Scene.Valid x K ⟨room, .create r, s⟩) :
    Yields (x.create (x.hostWithin room) r) s (· = .overflow) fun reply t =>
      s.journal.Grows x.database K t.journal ∧
        (reply.status.isOk = false →
          s.journal.Uncreated x.database r.creator reply.address t.journal) := by
  have hrun : ∀ h ∈ x.hostWithin room, ∀ address mark t,
      x.endowCreate r (s.noting (.createOpened · r.creator r.gasLimit)) =
        .ok (.ok (address, mark), t) →
      Yields (runCode h (x.createInvocation r address) r.gasLimit) t (· = .overflow) fun f u =>
        f.Solid ∧ t.journal.Grows x.database K u.journal := by
    intro h hh address mark t opened
    cases room with
    | zero => cases hh
    | succ room =>
      cases hh
      exact runCode_grows (hx room rfl) (openCreate_valid hp hinj hc opened)
  refine (create_yields hp (grants hinj hc) (fun _ _ h => h.1) hrun).imp ?_
  rintro reply t (huncreated | ⟨hok, hdeployed⟩)
  · exact ⟨huncreated.grows, fun _ => huncreated⟩
  · exact ⟨hdeployed.grows hinj hc,
      fun hfailed => absurd (hok.symm.trans hfailed) Bool.noConfusion⟩

end Conduct

theorem conducts (hp : x.transfers.Sound)
    (hinj : ContractAddress.Distinct K) (room : Nat) :
    x.Conducts K room := by
  have conducted : ∀ room, (∀ n, room = n + 1 → x.Conducts K n) → x.Conducts K room :=
    fun room hx =>
      ⟨fun hc => call_conducted hp hx hc, fun hc => callCode_conducted hp hx hc,
        fun hc => create_conducted hp hinj hx hc⟩
  induction room with
  | zero => exact conducted 0 nofun
  | succ room ih =>
    apply conducted (room + 1)
    rintro n hn
    cases hn
    exact ih

theorem Next.valid (hp : x.transfers.Sound)
    (hinj : ContractAddress.Distinct K) {c d : Scene} (h : x.Next c d)
    (hc : c.Valid x K) : d.Valid x K := by
  cases h with
  | loadCode loaded => exact loadCode_valid hc loaded
  | payCall opened => exact payCall_valid hc opened
  | openCall opened nonempty => exact openCall_valid hp hc opened nonempty
  | payCreate opened => exact payCreate_valid hinj hc opened
  | openCreate opened => exact openCreate_valid hp hinj hc opened
  | step running stepped => exact step_valid (conducts hp hinj _) hc running stepped
  | nest running asking => exact nest_valid hc running asking

end Executor

end MeteredVM
