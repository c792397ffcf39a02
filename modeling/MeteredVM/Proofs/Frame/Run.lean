import MeteredVM.Proofs.Frame.Reply

namespace MeteredVM

variable {σ : Type}

structure Host.Frugal (h : Host σ) : Prop where
  call {r : CallRequest} {w w' : σ} {reply : CallReply} (hr : h.call r w = .ok (reply, w')) :
    reply.gas.remaining ≤ r.gasLimit
  create {r : CreateRequest} {w w' : σ} {reply : CreateReply}
    (hr : h.create r w = .ok (reply, w')) : reply.gas.remaining ≤ r.gasLimit

inductive Host.Fails (h : Host σ) (i : Invocation) (e : Fault) : Prop
  | refund (fails : h.RefundFails i e)
  | call {r : CallRequest} {w : σ} (permitted : i.MayCall r) (small : r.gasLimit ≤ Amount.max)
      (failed : h.call r w = .error e)
  | create {r : CreateRequest} {w : σ} (permitted : i.MayCreate r)
      (small : r.gasLimit ≤ Amount.max) (failed : h.create r w = .error e)

namespace Machine

variable {h : Host σ} {P : Prop} {s t : Machine σ}

structure Spends (P : Prop) (n : Nat) (s t : Machine σ) : Prop where
  follows : s.frame.Follows P 0 t.frame
  spent : t.frame.status = .running → s.frame.Follows P n t.frame

theorem Spends.of_follows {n : Nat} (hst : s.frame.Follows P n t.frame) : s.Spends P n t :=
  ⟨hst.mono (Nat.zero_le _), fun _ => hst⟩

theorem Spends.trans {m n : Nat} {s t u : Machine σ} (hst : s.Spends P m t)
    (htu : t.Spends P n u) (ended : t.frame.status ≠ .running → u = t) :
    s.Spends P (m + n) u := by
  refine ⟨hst.follows.trans htu.follows, fun hrun => ?_⟩
  by_cases hmid : t.frame.status = .running
  · exact (hst.spent hmid).trans (htu.spent hrun)
  · rw [ended hmid] at hrun
    exact absurd hrun hmid

theorem Spends.of_resumes {left given : Nat} {x : Except Fault Frame} {w : σ}
    (hst : s.frame.Follows P 1 t.frame) (hgiven : given + t.frame.gas.remaining < s.frame.gas.remaining)
    (hleft : left ≤ given) (hx : t.frame.Resumes P left x) {u : Machine σ}
    (hu : (x.map fun f => (⟨f, w⟩ : Machine σ)) = .ok u) : s.Spends P 1 u := by
  cases hx with
  | goes follows =>
    cases hu
    have hpaid := follows.paid
    simp only [Frame.credited] at hpaid
    refine .of_follows ⟨follows.invocation.trans hst.invocation, ?_, follows.limit.trans hst.limit, ?_, ?_⟩
    · obtain hsame | hended := follows.status
      · rw [hsame]
        exact hst.status
      · exact .inr hended
    · dsimp only
      omega
    · intro hP
      obtain ⟨-, hsize⟩ := hst.solid hP
      obtain ⟨hsolid, hsize'⟩ := follows.solid hP
      exact ⟨hsolid, Nat.le_trans hsize hsize'⟩
  | outOfRange loose => cases hu
  | overflow large => cases hu

theorem Served.spends {r : Request} {x : Except Fault (Machine σ)} {u : Machine σ} (hh : h.Frugal)
    (hst : s.frame.Follows P 1 t.frame) (hr : s.frame.Asks P r t.frame) (hx : t.Served h P r x)
    (hu : x = .ok u) : s.Spends P 1 u := by
  cases hx with
  | call answered resumed => exact .of_resumes hst hr.spent (hh.call answered) resumed hu
  | create answered resumed => exact .of_resumes hst hr.spent (hh.create answered) resumed hu
  | callFails failed => cases hu
  | createFails failed => cases hu

theorem Steps.spends {A : Request → Machine σ → Prop} {x : Except Fault (Machine σ)}
    (hh : h.Frugal) (hx : s.Steps h P A x)
    (ht : x = .ok t) : s.Spends P 1 t := by
  cases hx with
  | goes follows =>
    cases ht
    exact .of_follows follows.frame
  | ends follows ended =>
    cases ht
    exact ⟨follows.frame, fun hrun => absurd hrun ended⟩
  | asks asking follows asked =>
    refine Served.spends hh follows.frame asked (serve_served ?_ asked.fits) ht
    exact fun hP => (follows.frame.solid hP).1
  | outOfRange loose => cases ht
  | refund fails => cases ht

/-- A step never brings gas back, and costs something unless it ends the frame. -/
theorem step_spends (hh : h.Frugal) (hs : P → s.frame.Solid) (ht : s.step h = .ok t) :
    s.Spends P 1 t :=
  (step_steps hs).spends hh ht

theorem fault_of_resumes {left : Nat} {x : Except Fault Frame} {w : σ} {e : Fault}
    (hmax : t.frame.gas.remaining + left ≤ Amount.max) (hx : t.frame.Resumes P left x)
    (he : (x.map fun f => (⟨f, w⟩ : Machine σ)) = .error e) : e = .outOfRange ∧ ¬P := by
  cases hx with
  | goes follows => cases he
  | outOfRange loose =>
    cases he
    exact ⟨rfl, loose⟩
  | overflow large => omega

theorem Served.fault {r : Request} {x : Except Fault (Machine σ)} {e : Fault} (hh : h.Frugal)
    (hr : s.frame.Asks P r t.frame) (hmax : s.frame.gas.remaining ≤ Amount.max)
    (hx : t.Served h P r x) (he : x = .error e) :
    e = .outOfRange ∧ ¬P ∨ h.Fails s.frame.invocation e := by
  have hpaid := hr.spent
  cases hx with
  | call answered resumed =>
    have hleft := hh.call answered
    simp only [Request.gasLimit] at hpaid
    exact .inl (fault_of_resumes (by omega) resumed he)
  | create answered resumed =>
    have hleft := hh.create answered
    simp only [Request.gasLimit] at hpaid
    exact .inl (fault_of_resumes (by omega) resumed he)
  | callFails failed =>
    cases he
    simp only [Request.gasLimit] at hpaid
    exact .inr (.call hr.permitted (by omega) failed)
  | createFails failed =>
    cases he
    simp only [Request.gasLimit] at hpaid
    exact .inr (.create hr.permitted (by omega) failed)

/-- A step has an answer unless the host fails; the gas that comes back never overflows. -/
theorem step_fault {e : Fault} (hh : h.Frugal) (hs : P → s.frame.Solid)
    (hmax : s.frame.gas.remaining ≤ Amount.max) (he : s.step h = .error e) :
    e = .outOfRange ∧ ¬P ∨ h.Fails s.frame.invocation e := by
  have hsteps : s.Steps h P (s.Asking h) (s.step h) := step_steps hs
  generalize s.step h = x at hsteps he
  cases hsteps with
  | goes follows => cases he
  | ends follows ended => cases he
  | asks asking follows asked =>
    refine Served.fault hh asked hmax (serve_served ?_ asked.fits) he
    exact fun hP => (follows.frame.solid hP).1
  | outOfRange loose =>
    cases he
    exact .inl ⟨rfl, loose⟩
  | refund fails =>
    cases he
    exact .inr (.refund fails)

theorem runFor_ended {n : Nat} (hs : s.frame.status ≠ .running) : s.runFor h n = .ok s := by
  cases n with
  | zero => rfl
  | succ n => simp only [runFor, hs, if_false]

theorem runFor_succ {n : Nat} (hs : s.frame.status = .running) :
    s.runFor h (n + 1) = s.step h >>= fun t => t.runFor h n := by
  simp only [runFor, hs, if_true]

theorem runFor_add {m n : Nat} : s.runFor h (m + n) = s.runFor h m >>= fun t => t.runFor h n := by
  induction m generalizing s with
  | zero => rw [Nat.zero_add]; rfl
  | succ m ih =>
    by_cases running : s.frame.status = .running
    · rw [Nat.succ_add, runFor_succ running, runFor_succ running, bind_assoc]
      exact congrArg _ (funext fun t => ih)
    · rw [runFor_ended running, runFor_ended running]
      exact (runFor_ended running).symm

/-- A run that comes to its end has an answer after any number of steps. -/
theorem runFor_of_ended {m : Nat} (ht : s.runFor h m = .ok t) (ended : t.frame.status ≠ .running) (n : Nat) :
    ∃ u, s.runFor h n = .ok u := by
  obtain hle | hle := Nat.le_total n m
  · obtain ⟨k, rfl⟩ := Nat.exists_eq_add_of_le hle
    rw [runFor_add] at ht
    obtain ⟨u, hu, -⟩ := Except.bind_eq_ok ht
    exact ⟨u, hu⟩
  · obtain ⟨k, rfl⟩ := Nat.exists_eq_add_of_le hle
    refine ⟨t, ?_⟩
    rw [runFor_add, ht]
    exact runFor_ended ended

theorem runFor_unique {m n : Nat} {u : Machine σ} (ht : s.runFor h m = .ok t)
    (htended : t.frame.status ≠ .running) (hu : s.runFor h n = .ok u)
    (huended : u.frame.status ≠ .running) : t = u := by
  obtain hle | hle := Nat.le_total m n
  · obtain ⟨k, rfl⟩ := Nat.exists_eq_add_of_le hle
    rw [runFor_add, ht] at hu
    exact Except.ok.inj ((runFor_ended htended).symm.trans hu)
  · obtain ⟨k, rfl⟩ := Nat.exists_eq_add_of_le hle
    rw [runFor_add, hu] at ht
    exact Except.ok.inj (ht.symm.trans (runFor_ended huended))

theorem status_punish (s : Machine σ) : s.punish.frame.status = s.frame.status := by
  simp only [punish]
  split <;> rfl

theorem world_punish (s : Machine σ) : s.punish.world = s.world := by
  simp only [punish]
  split <;> rfl

/-- A frame that is still running after a number of steps has spent as much gas. -/
theorem runFor_spends {n : Nat} (hh : h.Frugal) (hs : P → s.frame.Solid)
    (ht : s.runFor h n = .ok t) : s.Spends P n t := by
  induction n generalizing s with
  | zero =>
    cases ht
    exact .of_follows (.refl hs)
  | succ n ih =>
    by_cases hrun : s.frame.status = .running
    · rw [runFor_succ hrun] at ht
      obtain ⟨u, hu, ht⟩ := Except.bind_eq_ok ht
      have hsu := step_spends hh hs hu
      have hut := ih (fun hP => (hsu.follows.solid hP).1) ht
      rw [Nat.add_comm]
      apply hsu.trans hut
      -- If this step has ended the frame, the others do nothing.
      intro hended
      rw [runFor_ended hended] at ht
      cases ht
      rfl
    · rw [runFor_ended hrun] at ht
      cases ht
      exact ⟨.refl hs, fun h => absurd h hrun⟩

theorem runFor_fault {n : Nat} {e : Fault} (hh : h.Frugal) (hs : P → s.frame.Solid)
    (hmax : s.frame.gas.remaining ≤ Amount.max) (he : s.runFor h n = .error e) :
    e = .outOfRange ∧ ¬P ∨ h.Fails s.frame.invocation e := by
  induction n generalizing s with
  | zero => cases he
  | succ n ih =>
    by_cases hrun : s.frame.status = .running
    · rw [runFor_succ hrun] at he
      obtain hfault | ⟨u, hu, he⟩ := Except.bind_eq_error he
      · exact step_fault hh hs hmax hfault
      · have hsu := (step_spends hh hs hu).follows
        have hfault := ih (fun hP => (hsu.solid hP).1) (Nat.le_trans hsu.paid hmax) he
        rwa [hsu.invocation] at hfault
    · rw [runFor_ended hrun] at he
      cases he

theorem punish_follows {f : Frame} (hst : f.Follows P 0 t.frame) :
    f.Follows P 0 t.punish.frame := by
  simp only [punish]
  split
  · refine ⟨hst.invocation, hst.status, hst.limit, Nat.zero_le _, fun hP => ?_⟩
    obtain ⟨hsolid, hsize⟩ := hst.solid hP
    have hcover := hsolid.memory
    exact ⟨⟨⟨hcover.size, hcover.paid, hcover.bound⟩, hsolid.output⟩, hsize⟩
  · exact hst

theorem run_ends (hh : h.Frugal) (hs : P → s.frame.Solid) (ht : s.run h = .ok t) :
    s.frame.Follows P 0 t.frame ∧ t.frame.status ≠ .running := by
  obtain ⟨u, hu, rfl⟩ := Except.map_eq_ok ht
  have hsu := runFor_spends hh hs hu
  refine ⟨punish_follows hsu.follows, fun hrun => ?_⟩
  rw [status_punish] at hrun
  have hpaid := (hsu.spent hrun).paid
  omega

theorem run_fault {e : Fault} (hh : h.Frugal) (hs : P → s.frame.Solid)
    (hmax : s.frame.gas.remaining ≤ Amount.max) (he : s.run h = .error e) :
    e = .outOfRange ∧ ¬P ∨ h.Fails s.frame.invocation e := by
  exact runFor_fault hh hs hmax (Except.map_eq_error he)

end Machine

end MeteredVM
