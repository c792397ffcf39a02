import MeteredVM.Proofs.Frame.Step

namespace MeteredVM

open Exec Instruction

variable {σ : Type}

def Frame.credited (f : Frame) (amount : Nat) : Frame :=
  { f with gas := { f.gas with remaining := f.gas.remaining + amount } }

namespace Frame

variable {P : Prop} {f g : Frame} {amount : Nat}

theorem credited_solid (hf : P → f.Solid) (amount : Nat) : P → (f.credited amount).Solid := by
  intro hP
  have hcover := (hf hP).memory
  exact ⟨⟨hcover.size, hcover.paid, hcover.bound⟩, (hf hP).output⟩

theorem credited_follows (hf : P → f.Solid) (amount : Nat) : (f.credited amount).Follows P 0 f :=
  ⟨rfl, .inl rfl, rfl, Nat.le_add_right _ _, fun hP => ⟨hf hP, Nat.le_refl _⟩⟩

inductive Resumes (P : Prop) (left : Nat) (f : Frame) : Except Fault Frame → Prop
  | goes {g : Frame} (follows : (f.credited left).Follows P 0 g)
      (fits : f.gas.remaining ≤ Amount.max → g.gas.remaining ≤ Amount.max) : Resumes P left f (.ok g)
  | outOfRange (loose : ¬P) : Resumes P left f (.error .outOfRange)
  | overflow (large : Amount.max < f.gas.remaining + left) : Resumes P left f (.error .overflow)

theorem Resumes.of_follows {left : Nat} (hf : P → f.Solid) (hg : f.Follows P 0 g) :
    f.Resumes P left (.ok g) :=
  .goes ((credited_follows hf left).trans hg) fun hmax => Nat.le_trans hg.paid hmax

theorem Resumes.of_pays {left : Nat} {x : Local Unit} {Q : Unit → Frame → Prop} (hf : P → f.Solid)
    (hx : Local.Pays P 0 x f Q) : f.Resumes P left (f.settle x) := by
  unfold Local.Pays at hx
  replace hx := hx hf
  simp only [settle]
  cases he : x f with
  | ok a g =>
    rw [he] at hx
    exact .of_follows hf hx.1
  | error e g =>
    rw [he] at hx
    cases e with
    | status e => exact .of_follows hf (hx.2.withStatus hx.1.endsFrame)
    | fault e =>
      obtain ⟨rfl, loose⟩ := hx
      exact .outOfRange loose

theorem Resumes.halts {left : Nat} {s : Status} (hf : P → f.Solid) (hs : s.endsFrame = true) :
    f.Resumes P left (f.settle (Local.halt s)) :=
  .of_follows hf ((Follows.refl hf).withStatus hs)

theorem Resumes.giveBack {gas : Gas} {k : Unit → Local Unit} {Q : Unit → Frame → Prop}
    (hf : P → f.Solid) (hk : Local.Pays P 0 (k ()) (f.credited gas.remaining) Q) :
    f.Resumes P gas.remaining (f.settle (Local.giveBack gas >>= k)) := by
  by_cases hmax : f.gas.remaining + gas.remaining ≤ Amount.max
  · have hcredit : Local.giveBack gas f = .ok () (f.credited gas.remaining) := by
      simp only [Local.giveBack, Gas.giveBack, Amount.add, hmax, if_true, Except.map]
      rfl
    unfold Local.Pays at hk
    replace hk := hk (credited_solid hf _)
    simp only [settle, Bind.bind, EStateM.bind, hcredit]
    cases he : k () (f.credited gas.remaining) with
    | ok a g =>
      rw [he] at hk
      exact .goes hk.1 fun _ => Nat.le_trans hk.1.paid hmax
    | error e g =>
      rw [he] at hk
      cases e with
      | status e => exact .goes (hk.2.withStatus hk.1.endsFrame) fun _ => Nat.le_trans hk.2.paid hmax
      | fault e =>
        obtain ⟨rfl, loose⟩ := hk
        exact .outOfRange loose
  · have hfault : Local.giveBack gas f = .error (.fault .overflow) f := by
      simp only [Local.giveBack, Gas.giveBack, Amount.add, hmax, if_false, Except.map]
    simp only [settle, Bind.bind, EStateM.bind, hfault]
    exact .overflow (Nat.lt_of_not_le hmax)

/-- The frame with the output of a nested frame at hand. -/
def holding (f : Frame) (data : Bytes) : Frame := { f with returnData := data }

theorem Resumes.setReturnData {left : Nat} {data : Bytes} {k : Unit → Local Unit}
    (h : (f.holding data).Resumes P left ((f.holding data).settle (k ()))) :
    f.Resumes P left (f.settle (Local.setReturnData data >>= k)) := by
  have hset : f.settle (Local.setReturnData data >>= k) = (f.holding data).settle (k ()) := rfl
  rw [hset]
  generalize (f.holding data).settle (k ()) = r at h ⊢
  cases h with
  | goes follows fits =>
    exact .goes ⟨follows.invocation, follows.status, follows.limit, follows.paid, follows.solid⟩ fits
  | outOfRange loose => exact .outOfRange loose
  | overflow large => exact .overflow large

theorem takeCallReply_resumes {reply : CallReply} {into : Span} (hf : P → f.Solid)
    (hinto : P → into.start + into.length ≤ f.memory.size) :
    f.Resumes P reply.gas.remaining (f.settle (Local.takeCallReply reply into)) := by
  refine .setReturnData ?_
  have hf₁ : P → (f.holding reply.output).Solid := fun hP => ⟨(hf hP).memory, (hf hP).output⟩
  split
  · refine .giveBack hf₁ (Q := fun _ _ => True) ?_
    refine Local.Pays.first (.setBytes fun hP => ?_) fun _ _ _ _ => .push
    have hin := hinto hP
    rw [ByteArray.size_extract]
    exact Nat.le_trans (by omega) hin
  split
  · exact .halts hf₁ rfl
  · exact .of_pays hf₁ .push

theorem takeCreateReply_resumes {reply : CreateReply} (hf : P → f.Solid) :
    f.Resumes P reply.gas.remaining (f.settle (Local.takeCreateReply reply)) := by
  refine .setReturnData ?_
  generalize (if reply.status = .reverted then reply.output else ByteArray.empty) = data
  have hf₁ : P → (f.holding data).Solid := fun hP => ⟨(hf hP).memory, (hf hP).output⟩
  split
  · refine .giveBack hf₁ (Q := fun _ _ => True) ?_
    split
    · exact .push
    · exact .push
  split
  · exact .giveBack hf₁ .push
  split
  · exact .halts hf₁ rfl
  · exact .of_pays hf₁ .push

end Frame

namespace Machine

theorem settle_here (s : Machine σ) (x : Local Unit) :
    s.settle (here x) = (s.frame.settle x).map fun f => ⟨f, s.world⟩ := by
  simp only [settle, Frame.settle, here]
  cases x s.frame with
  | ok a f => rfl
  | error e f =>
    cases e with
    | status e => rfl
    | fault e => rfl

/-- A nested frame is run in the world that the frame has left, and the frame goes on in the world
that the nested one leaves. -/
theorem settle_nested {α : Type} (s : Machine σ) (x : Nested σ α) (k : α → Local Unit) :
    s.settle (nested x >>= fun a => here (k a)) =
      (x s.world).bind fun p => (s.frame.settle (k p.1)).map fun f => ⟨f, p.2⟩ := by
  cases hx : x s.world with
  | ok p =>
    have hrun : nested x s = .ok p.1 { s with world := p.2 } := by simp only [nested, hx]
    rw [settle_congr (Exec.bind_ok hrun), settle_here]
    rfl
  | error e =>
    have hrun : nested x s = .error (.fault e) s := by simp only [nested, hx]
    simp only [settle, Bind.bind, EStateM.bind, hrun, Except.bind]

theorem settle_serve_call (h : Host σ) (s : Machine σ) (r : CallRequest) (into : Span) :
    s.settle (serve h (.call r into)) = (h.call r s.world).bind fun p =>
      (s.frame.settle (Local.takeCallReply p.1 into)).map fun f => ⟨f, p.2⟩ := by
  have hserve : (serve h (.call r into) : Exec σ Unit) =
      nested (h.call r) >>= fun reply => here (Local.takeCallReply reply into) := rfl
  rw [hserve, settle_nested]

theorem settle_serve_create (h : Host σ) (s : Machine σ) (r : CreateRequest) :
    s.settle (serve h (.create r)) = (h.create r s.world).bind fun p =>
      (s.frame.settle (Local.takeCreateReply p.1)).map fun f => ⟨f, p.2⟩ := by
  have hserve : (serve h (.create r) : Exec σ Unit) =
      nested (h.create r) >>= fun reply => here (Local.takeCreateReply reply) := rfl
  rw [hserve, settle_nested]

inductive Served (h : Host σ) (P : Prop) (s : Machine σ) : Request → Except Fault (Machine σ) → Prop
  | call {r : CallRequest} {into : Span} {reply : CallReply} {w : σ} {x : Except Fault Frame}
      (answered : h.call r s.world = .ok (reply, w))
      (resumed : s.frame.Resumes P reply.gas.remaining x) :
      Served h P s (.call r into) (x.map fun f => ⟨f, w⟩)
  | create {r : CreateRequest} {reply : CreateReply} {w : σ} {x : Except Fault Frame}
      (answered : h.create r s.world = .ok (reply, w))
      (resumed : s.frame.Resumes P reply.gas.remaining x) :
      Served h P s (.create r) (x.map fun f => ⟨f, w⟩)
  | callFails {r : CallRequest} {into : Span} {e : Fault} (failed : h.call r s.world = .error e) :
      Served h P s (.call r into) (.error e)
  | createFails {r : CreateRequest} {e : Fault} (failed : h.create r s.world = .error e) :
      Served h P s (.create r) (.error e)

theorem serve_served {h : Host σ} {P : Prop} {s : Machine σ} {r : Request}
    (hs : P → s.frame.Solid) (hr : P → r.Fits s.frame) :
    s.Served h P r (s.settle (serve h r)) := by
  cases r with
  | call r into =>
    rw [settle_serve_call]
    cases hx : h.call r s.world with
    | ok p => exact .call hx (Frame.takeCallReply_resumes hs hr)
    | error e => exact .callFails hx
  | create r =>
    rw [settle_serve_create]
    cases hx : h.create r s.world with
    | ok p => exact .create hx (Frame.takeCreateReply_resumes hs)
    | error e => exact .createFails hx

end Machine

end MeteredVM
