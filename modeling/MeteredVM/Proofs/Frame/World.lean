import MeteredVM.Proofs.Frame.Run

namespace MeteredVM

variable {σ : Type}

def Host.after (h : Host σ) (w : σ) : Request → Except Fault σ
  | .call r _ => (h.call r w).map Prod.snd
  | .create r => (h.create r w).map Prod.snd

namespace Machine

variable {h : Host σ} {P : Prop} {s t u : Machine σ}

inductive Leads (h : Host σ) (s : Machine σ) : Except Fault (Machine σ) → Prop
  | uses {t : Machine σ} (used : h.Acts s.frame.invocation s.world t.world) : Leads h s (.ok t)
  | nests {r : Request} {t u : Machine σ} (asking : s.Asking h r t)
      (ran : h.after t.world r = .ok u.world) : Leads h s (.ok u)
  | nestFails {r : Request} {t : Machine σ} {e : Fault} (asking : s.Asking h r t)
      (failed : h.after t.world r = .error e) : Leads h s (.error e)
  | refundFails {e : Fault} (fails : h.RefundFails s.frame.invocation e) : Leads h s (.error e)

theorem Leads.of_resumes {r : Request} {left : Nat} {w : σ} {x : Except Fault Frame}
    (asking : s.Asking h r t) (ran : h.after t.world r = .ok w) (hP : P)
    (hmax : t.frame.gas.remaining + left ≤ Amount.max) (hx : t.frame.Resumes P left x) :
    s.Leads h (x.map fun f => ⟨f, w⟩) := by
  cases hx with
  | goes follows => exact .nests asking ran
  | outOfRange loose => exact absurd hP loose
  | overflow large => exact absurd hmax (Nat.not_le_of_lt large)

theorem Leads.of_served {r : Request} {x : Except Fault (Machine σ)} (hh : h.Frugal)
    (hmax : s.frame.gas.remaining ≤ Amount.max) (asking : s.Asking h r t) (hP : P)
    (hx : t.Served h P r x) : s.Leads h x := by
  have hpaid := asking.paid
  cases hx with
  | call answered resumed =>
    have hleft := hh.call answered
    simp only [Request.gasLimit] at hpaid
    refine .of_resumes asking ?_ hP (by omega) resumed
    simp only [Host.after, answered, Except.map]
  | create answered resumed =>
    have hleft := hh.create answered
    simp only [Request.gasLimit] at hpaid
    refine .of_resumes asking ?_ hP (by omega) resumed
    simp only [Host.after, answered, Except.map]
  | callFails failed =>
    refine .nestFails asking ?_
    simp only [Host.after, failed, Except.map]
  | createFails failed =>
    refine .nestFails asking ?_
    simp only [Host.after, failed, Except.map]

/-- What uses of the host keep, and nested frames, a step keeps. -/
theorem Leads.keeps {E : Fault → Prop} {J : σ → Prop} {x : Except Fault (Machine σ)}
    (hx : s.Leads h x) (used : ∀ w, h.Acts s.frame.invocation s.world w → J w)
    (nested : ∀ r t, s.Asking h r t →
      (∀ w, h.after t.world r = .ok w → J w) ∧ ∀ e, h.after t.world r = .error e → E e)
    (refund : ∀ e, h.RefundFails s.frame.invocation e → E e) :
    (∀ t, x = .ok t → J t.world) ∧ ∀ e, x = .error e → E e := by
  cases hx with
  | uses acts =>
    refine ⟨fun t ht => ?_, fun e he => by cases he⟩
    cases ht
    exact used _ acts
  | nests asking ran =>
    refine ⟨fun t ht => ?_, fun e he => by cases he⟩
    cases ht
    exact (nested _ _ asking).1 _ ran
  | nestFails asking failed =>
    refine ⟨fun t ht => (by cases ht), fun e he => ?_⟩
    cases he
    exact (nested _ _ asking).2 _ failed
  | refundFails fails =>
    refine ⟨fun t ht => (by cases ht), fun e he => ?_⟩
    cases he
    exact refund _ fails

theorem step_leads (hh : h.Frugal) (hs : s.frame.Solid)
    (hmax : s.frame.gas.remaining ≤ Amount.max) : s.Leads h (s.step h) := by
  have hsteps : s.Steps h True (s.Asking h) (s.step h) := step_steps fun _ => hs
  generalize s.step h = x at hsteps ⊢
  cases hsteps with
  | goes follows => exact .uses follows.world
  | ends follows ended => exact .uses follows.world
  | asks asking follows asked =>
    refine .of_served hh hmax asking trivial (serve_served ?_ asked.fits)
    exact fun _ => (follows.frame.solid trivial).1
  | outOfRange loose => exact absurd trivial loose
  | refund fails => exact .refundFails fails

def Keeps (h : Host σ) (i : Invocation) (E : Fault → Prop) (I : Machine σ → Prop) : Prop :=
  ∀ s, s.frame.invocation = i → s.frame.status = .running → s.frame.gas.remaining ≤ Amount.max →
    I s → s.Leads h (s.step h) →
      (∀ t, s.step h = .ok t → I t) ∧ ∀ e, s.step h = .error e → E e

variable {i : Invocation} {E : Fault → Prop} {I : Machine σ → Prop}

theorem runFor_keeps {n : Nat} (hI : Keeps h i E I) (hh : h.Frugal) (hi : s.frame.invocation = i)
    (hsolid : s.frame.Solid) (hmax : s.frame.gas.remaining ≤ Amount.max) (hs : I s) :
    (∀ t, s.runFor h n = .ok t → I t) ∧ ∀ e, s.runFor h n = .error e → E e := by
  induction n generalizing s with
  | zero =>
    refine ⟨fun t ht => ?_, fun e he => by cases he⟩
    cases ht
    exact hs
  | succ n ih =>
    by_cases hrun : s.frame.status = .running
    · obtain ⟨hok, herror⟩ := hI s hi hrun hmax hs (step_leads hh hsolid hmax)
      have next : ∀ u, s.step h = .ok u →
          (∀ t, u.runFor h n = .ok t → I t) ∧ ∀ e, u.runFor h n = .error e → E e := by
        intro u hu
        have hsu := (step_spends hh (fun _ : True => hsolid) hu).follows
        exact ih (hsu.invocation.trans hi) (hsu.solid trivial).1 (Nat.le_trans hsu.paid hmax)
          (hok u hu)
      rw [runFor_succ hrun]
      refine ⟨fun t ht => ?_, fun e he => ?_⟩
      · obtain ⟨u, hu, ht⟩ := Except.bind_eq_ok ht
        exact (next u hu).1 t ht
      · obtain hfault | ⟨u, hu, he⟩ := Except.bind_eq_error he
        · exact herror e hfault
        · exact (next u hu).2 e he
    · rw [runFor_ended hrun]
      refine ⟨fun t ht => ?_, fun e he => by cases he⟩
      cases ht
      exact hs

/-- What every step keeps holds at the end of a run, but for the gas that a failed frame loses. -/
theorem run_keeps (hI : Keeps h i E I) (hh : h.Frugal) (hi : s.frame.invocation = i)
    (hsolid : s.frame.Solid) (hmax : s.frame.gas.remaining ≤ Amount.max) (hs : I s) :
    (∀ t, s.run h = .ok t → ∃ u, I u ∧ t = u.punish) ∧ ∀ e, s.run h = .error e → E e := by
  obtain ⟨hok, herror⟩ := runFor_keeps (n := s.frame.gas.remaining + 1) hI hh hi hsolid hmax hs
  refine ⟨fun t ht => ?_, fun e he => ?_⟩
  · obtain ⟨u, hu, rfl⟩ := Except.map_eq_ok ht
    exact ⟨u, hok u hu, rfl⟩
  · exact herror e (Except.map_eq_error he)

end Machine

end MeteredVM
