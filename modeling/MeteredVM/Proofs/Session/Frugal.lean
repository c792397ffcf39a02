import MeteredVM.Proofs.Frame.Run
import MeteredVM.Proofs.Session.Nested
import MeteredVM.Sandbox

namespace MeteredVM

structure Gas.Left (g : Gas) (given : Nat) : Prop where
  limit : g.limit = given
  remaining : g.remaining ≤ given

namespace Gas.Left

theorem ofLimit (limit : Nat) : (Gas.ofLimit limit).Left limit := ⟨rfl, Nat.le_refl _⟩

theorem spent {g : Gas} {given : Nat} (h : g.Left given) : g.spent = .ok (given - g.remaining) := by
  obtain ⟨rfl, hremaining⟩ := h
  exact if_pos hremaining

end Gas.Left

namespace Executor

variable {x : Executor} {s : Session} {inner : Option (Host Session)}

theorem runCode_frugal {h : Host Session} {i : Invocation} {gasLimit : Nat} (hh : h.Frugal) :
    Yields (runCode h i gasLimit) s (fun _ => True) fun f _ =>
      f.gas.Left gasLimit ∧ f.status.endsFrame = true := by
  refine Yields.any fun f t hrun => ?_
  obtain ⟨m, hm, hf⟩ := Except.map_eq_ok hrun
  cases hf
  have hs : True → (Frame.start i gasLimit).Solid := fun _ => Frame.start_solid i gasLimit
  obtain ⟨hfollows, hended⟩ := Machine.run_ends hh hs hm
  exact ⟨⟨hfollows.limit, hfollows.paid⟩, hfollows.status.resolve_left hended⟩

/-- A call that is closed has the gas and the status of its frame. -/
theorem closeCall_reply {mark : Checkpoint} {f : Frame} :
    Yields (closeCall mark f) s (fun _ => True) fun reply _ =>
      reply.gas = f.gas ∧ reply.status = f.status := by
  apply closeCall_rule
  · exact fun _ _ => trivial
  · exact fun _ => .any fun _ _ _ _ => ⟨rfl, rfl⟩
  · exact fun _ => .any fun _ _ _ _ => ⟨rfl, rfl⟩

theorem callCode_frugal {r : CallRequest} {code : Bytes} (hinner : ∀ h ∈ inner, h.Frugal) :
    Yields (x.callCode inner r code) s (fun _ => True) fun reply _ => reply.gas.Left r.gasLimit := by
  refine Yields.bind .emit fun _ s _ => ?_
  cases inner with
  | none => exact .pure (.ofLimit _)
  | some h =>
    refine Yields.bind (.any fun _ _ hx => hx) fun opened s _ => ?_
    cases opened with
    | error status => exact .pure (.ofLimit _)
    | ok mark =>
      dsimp only
      split
      · refine Yields.bind (.any fun _ _ hx => hx) fun _ s _ => ?_
        exact .pure (.ofLimit _)
      · refine Yields.bind (runCode_frugal (hinner h rfl)) fun f s hf => ?_
        refine closeCall_reply.imp fun reply t hreply => ?_
        rw [hreply.1]
        exact hf.1

theorem call_frugal {r : CallRequest} (hinner : ∀ h ∈ inner, h.Frugal) :
    Yields (x.call inner r) s (fun _ => True) fun reply _ => reply.gas.Left r.gasLimit := by
  refine Yields.bind (.any fun _ _ hx => hx) fun loaded s _ => ?_
  cases loaded with
  | ok code => exact callCode_frugal hinner
  | error e => exact .pure (.ofLimit _)

theorem deposit_gas {gas left : Gas} {code stored : Bytes}
    (h : x.deposit gas code = .ok (left, stored)) :
    left.remaining ≤ gas.remaining ∧ left.limit = gas.limit := by
  simp only [deposit] at h
  split at h
  · cases h
  split at h
  · cases h
  split at h
  · rename_i paid hpaid
    cases h
    obtain ⟨cost, -, hpaid⟩ := Option.bind_eq_some_iff.mp hpaid
    obtain ⟨-, rfl⟩ := Gas.charge?_eq_some hpaid
    exact ⟨Nat.sub_le _ _, rfl⟩
  · split at h
    · cases h
    · cases h
      exact ⟨Nat.le_refl _, rfl⟩

theorem closeCreate_frugal {address : Address} {mark : Checkpoint} {f : Frame} {gasLimit : Nat}
    (hf : f.gas.Left gasLimit) :
    Yields (x.closeCreate address mark f) s (fun _ => True) fun reply _ =>
      reply.gas.Left gasLimit := by
  apply closeCreate_rule
  · exact fun _ _ => trivial
  · exact fun _ => .any fun _ _ _ _ => hf
  · intro _ output gas code _ hdeposit
    obtain ⟨hremaining, hlimit⟩ := deposit_gas hdeposit
    exact .any fun _ _ _ => ⟨hlimit.trans hf.limit, Nat.le_trans hremaining hf.remaining⟩
  · exact fun _ _ _ _ => .any fun _ _ _ => ⟨hf.limit, Nat.zero_le _⟩

theorem create_frugal {r : CreateRequest} (hinner : ∀ h ∈ inner, h.Frugal) :
    Yields (x.create inner r) s (fun _ => True) fun reply _ => reply.gas.Left r.gasLimit := by
  refine Yields.bind .emit fun _ s _ => ?_
  cases inner with
  | none => exact .pure (.ofLimit _)
  | some h =>
    refine Yields.bind (.any fun _ _ hx => hx) fun endowed s _ => ?_
    cases endowed with
    | error why => exact .pure (.ofLimit _)
    | ok p =>
      obtain ⟨address, mark⟩ := p
      refine Yields.bind (runCode_frugal (hinner h rfl)) fun f s hf => ?_
      refine Yields.bind (closeCreate_frugal hf.1) fun reply s hreply => ?_
      refine Yields.bind .emit fun _ s _ => ?_
      exact .pure hreply

/-- Frames of a transaction leave no more gas than they were given, by induction on how deep they
may be nested. -/
theorem hostWithin_frugal (x : Executor) {room : Nat} {h : Host Session}
    (hx : x.hostWithin room = some h) : h.Frugal := by
  induction room generalizing h with
  | zero => cases hx
  | succ room ih =>
    cases hx
    have hinner : ∀ h ∈ x.hostWithin room, h.Frugal := fun h hh => ih hh
    exact ⟨fun hr => ((call_frugal hinner).ok hr).remaining,
      fun hr => ((create_frugal hinner).ok hr).remaining⟩

theorem host_frugal (x : Executor) (room : Nat) : (x.host (x.hostWithin room)).Frugal := by
  have hwithin : x.hostWithin (room + 1) = some (x.host (x.hostWithin room)) := rfl
  exact x.hostWithin_frugal hwithin

end Executor

theorem Sandbox.host_frugal (environment : Environment) : (Sandbox.host environment).Frugal := by
  refine ⟨fun hr => ?_, fun hr => ?_⟩
  · cases hr
    exact Nat.le_refl _
  · cases hr
    exact Nat.le_refl _

/-- The gas of the frames of a host: it only ever gets less, and all frames end. -/
structure Host.Metered {σ : Type} (h : Host σ) : Prop where
  /-- A step brings no gas back, and leaves less of it unless it ends the frame. -/
  step {s t : Machine σ} (hs : s.frame.gas.remaining ≤ s.frame.gas.limit) (ht : s.step h = .ok t) :
    t.frame.gas.limit = s.frame.gas.limit ∧ t.frame.gas.remaining ≤ s.frame.gas.remaining ∧
      (t.frame.status = .running → t.frame.gas.remaining < s.frame.gas.remaining)
  /-- A step has an answer, unless the host has none or memory is not what was paid for. In
  particular no sum of gas overflows. -/
  fault {s : Machine σ} {e : Fault} (hs : s.frame.gas.remaining ≤ s.frame.gas.limit)
    (hl : s.frame.gas.limit ≤ Amount.max) (he : s.step h = .error e) :
    e = .outOfRange ∧ ¬s.frame.Solid ∨ h.Fails s.frame.invocation e
  /-- After any number of steps the limit is what it was, no more than it is left, and what was
  spent can be told. -/
  within {s t : Machine σ} {n : Nat} (hs : s.frame.gas.remaining ≤ s.frame.gas.limit)
    (ht : s.runFor h n = .ok t) :
    t.frame.gas.limit = s.frame.gas.limit ∧ t.frame.gas.remaining ≤ t.frame.gas.limit ∧
      t.frame.gas.spent = .ok (t.frame.gas.limit - t.frame.gas.remaining)
  /-- One step more than the gas limit is enough for every frame. -/
  ends {s t : Machine σ} {n : Nat} (hs : s.frame.gas.remaining ≤ s.frame.gas.limit)
    (hn : s.frame.gas.limit < n) (ht : s.runFor h n = .ok t) : t.frame.status ≠ .running
  /-- A run goes on to the end of its frame. -/
  run {s t : Machine σ} (hs : s.frame.gas.remaining ≤ s.frame.gas.limit) (ht : s.run h = .ok t) :
    t.frame.status ≠ .running ∧ t.frame.gas.limit = s.frame.gas.limit ∧
      t.frame.gas.remaining ≤ s.frame.gas.remaining
  /-- A frame that is run from its start comes to its end, unless the host has no answer. -/
  start {i : Invocation} {gasLimit : Nat} {w : σ} {e : Fault} (hl : gasLimit ≤ Amount.max)
    (he : Machine.run h ⟨.start i gasLimit, w⟩ = .error e) : h.Fails i e

/-- Gas is never created and every frame ends, on each host whose nested frames leave no more gas
than they were given. All hosts of a transaction and that of a single frame are such hosts. -/
theorem Host.gas_never_created :
    (∀ {σ : Type} (h : Host σ), h.Frugal → h.Metered) ∧
      (∀ (x : Executor) (room : Nat) (h : Host Session), x.hostWithin room = some h → h.Frugal) ∧
      ∀ environment : Environment, (Sandbox.host environment).Frugal := by
  refine ⟨fun h hh => ?_, fun x room h hx => x.hostWithin_frugal hx, Sandbox.host_frugal⟩
  constructor
  case step =>
    intro s t hs ht
    have hst := Machine.step_spends hh False.elim ht
    exact ⟨hst.follows.limit, hst.follows.paid, fun hrun => (hst.spent hrun).paid⟩
  case fault =>
    intro s e hs hl he
    exact Machine.step_fault hh id (Nat.le_trans hs hl) he
  case within =>
    intro s t n hs ht
    have hst := (Machine.runFor_spends hh False.elim ht).follows
    have hle : t.frame.gas.remaining ≤ t.frame.gas.limit := by
      rw [hst.limit]
      exact Nat.le_trans hst.paid hs
    refine ⟨hst.limit, hle, ?_⟩
    simp only [Gas.spent, Amount.sub, hle, if_true]
  case ends =>
    intro s t n hs hn ht hrun
    have hpaid := ((Machine.runFor_spends hh False.elim ht).spent hrun).paid
    omega
  case run =>
    intro s t hs ht
    obtain ⟨hst, hended⟩ := Machine.run_ends hh False.elim ht
    exact ⟨hended, hst.limit, hst.paid⟩
  case start =>
    intro i gasLimit w e hl he
    obtain ⟨-, loose⟩ | hfails := Machine.run_fault hh (fun _ => Frame.start_solid i gasLimit) hl he
    · exact absurd trivial loose
    · exact hfails

/-- Calls account 1 for ever. -/
def Executor.looping : Bytes :=
  ⟨#[0x5b, 0x60, 0, 0x60, 0, 0x60, 0, 0x60, 0, 0x60, 0, 0x60, 1, 0x5a, 0xf1, 0x50, 0x60, 0, 0x56]⟩

def Executor.looper : Executor where
  environment := {}
  rules := .ofHardfork .london
  database :=
    { Database.empty with
      account := fun a => if a = 1 then some { codeHash := 1, code := none } else none
      code := fun _ => looping }

def Machine.loop : Machine Session where
  frame := .start ⟨ByteArray.empty, .ofBytes Executor.looping, 2, 3, 0, false, .ofHardfork .london⟩ 3000
  world := { journal := .ofHardfork .london }

/-- However often it calls itself, the code ends. Four frames have been opened until all gas is spent. -/
theorem Host.gas_never_created_looper :
    ∃ h t, Executor.looper.hostWithin Executor.maxFrames = some h ∧ h.Frugal ∧ h.Metered ∧
      Machine.loop.run h = .ok t ∧ t.world.events.length = 8 ∧ t.frame.status ≠ .running ∧
      t.frame.gas.limit = 3000 ∧ t.frame.gas.remaining ≤ 3000 := by
  obtain ⟨hmetered, hwithin, -⟩ := Host.gas_never_created
  have hx : Executor.looper.hostWithin Executor.maxFrames =
      some (Executor.looper.host (Executor.looper.hostWithin 1024)) := rfl
  have hfrugal := hwithin _ _ _ hx
  have hran : (Machine.loop.run (Executor.looper.host (Executor.looper.hostWithin 1024))).toOption.map
      (·.world.events.length) = some 8 := by
    decide +kernel
  obtain ⟨t, ht, hevents⟩ := Option.map_eq_some_iff.mp hran
  replace ht := Except.eq_ok_of_toOption ht
  obtain ⟨hended, hlimit, hleft⟩ := (hmetered _ hfrugal).run (Nat.le_refl 3000) ht
  exact ⟨_, t, hx, hfrugal, hmetered _ hfrugal, ht, hevents, hended, hlimit, hleft⟩

end MeteredVM
