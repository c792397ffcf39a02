import MeteredVM.Proofs.Frame.Region

namespace MeteredVM

open Exec Instruction

variable {σ : Type} {R : List Stretch}

def Request.Writes (R : List Stretch) : Request → Prop
  | .call _ into => into.length ≠ 0 →
    ∃ r ∈ R, r.written = true ∧ into.start = r.start ∧ into.length = r.length
  | .create _ => True

theorem Bytes.size_extract_le (b : Bytes) (start len : Nat) :
    (b.extract start (start + len)).size ≤ len := by
  rw [ByteArray.size_extract]
  omega

namespace Instruction

open Local

section Local

variable {f : Frame}

theorem unary_uses (g : Word → Word) : Uses id R (unary g) f fun _ _ => True :=
  .bind .top1 fun _ _ _ _ => .setTop

theorem binary_uses (g : Word → Word → Word) : Uses id R (binary g) f fun _ _ => True :=
  .bind .top2 fun _ _ _ _ => .setTop

theorem ternary_uses (g : Word → Word → Word → Word) :
    Uses id R (ternary g) f fun _ _ => True :=
  .bind .top3 fun _ _ _ _ => .setTop

theorem binarySince_uses (fork : Hardfork) (g : Word → Word → Word) :
    Uses id R (binarySince fork g) f fun _ _ => True :=
  .bind .since fun _ _ _ _ => binary_uses g

theorem exp_uses : Uses id R exp f fun _ _ => True := by
  apply Uses.bind .top2
  rintro ⟨base, exponent⟩ f₁ - -
  apply Uses.bind .rules
  intro r f₂ _ _
  exact .bind .pay fun _ _ _ _ => .setTop

theorem discard_uses : Uses id R discard f fun _ _ => True :=
  .bind .pop1 fun _ _ _ _ => .pure trivial

theorem pushZero_uses : Uses id R pushZero f fun _ _ => True :=
  .bind .having fun _ _ _ _ => .push

theorem pushBytes_uses (n : Nat) : Uses id R (pushBytes n) f fun _ _ => True := by
  apply Uses.bind .get
  rintro g _ - -
  apply Uses.bind .checked
  intro data f₁ _ _
  apply Uses.bind (.onStack fun s hs => Stack.pushBytes_error hs)
  intro _ f₂ _ _
  exact (Uses.modify rfl rfl).imp fun _ _ _ _ => trivial

theorem jumpTo_uses (target : Word) : Uses id R (jumpTo target) f fun _ _ => True := by
  simp only [jumpTo]
  split
  · apply Uses.bind .get
    intro g f₁ _ _
    apply Uses.bind (.ensure Status.noConfusion)
    intro _ f₂ _ _
    exact (Uses.modify rfl rfl).imp fun _ _ _ _ => trivial
  · exact .halt Status.noConfusion

theorem jump_uses : Uses id R jump f fun _ _ => True :=
  .bind .pop1 fun target _ _ _ => jumpTo_uses target

theorem jumpIf_uses : Uses id R jumpIf f fun _ _ => True := by
  apply Uses.bind .pop2
  rintro ⟨target, condition⟩ f₁ - -
  dsimp only
  split
  · exact jumpTo_uses target
  · exact .pure trivial

theorem position_uses : Uses id R position f fun _ _ => True := by
  apply Uses.bind .get
  intro g f₁ _ _
  exact .bind .checked fun _ _ _ _ => .push

theorem observe_uses (g : Frame → Word) : Uses id R (observe g) f fun _ _ => True :=
  .bind .get fun _ _ _ _ => .push

theorem callDataLoad_uses : Uses id R callDataLoad f fun _ _ => True := by
  apply Uses.bind .top1
  intro offset f₁ _ _
  exact .bind .get fun _ _ _ _ => .setTop

theorem returnDataSize_uses : Uses id R returnDataSize f fun _ _ => True :=
  .bind .since fun _ _ _ _ => observe_uses _

theorem difficulty_uses (block : Block) : Uses id R (difficulty block) f fun _ _ => True := by
  simp only [difficulty]
  split
  · exact .bind .rules fun _ _ _ _ => .push
  · exact .push

theorem observeHaving_uses (e : Eip) (w : Word) :
    Uses id R (observeHaving e w) f fun _ _ => True :=
  .bind .having fun _ _ _ _ => .push

theorem sentry_uses : Uses id R sentry f fun _ g => g = f := by
  apply Uses.bind .get
  rintro _ _ - ⟨rfl, rfl⟩
  exact .ensure Status.noConfusion

theorem memLoad_uses (hR : ⟨(f.stack.operand 0).toNat, 32, false⟩ ∈ R) :
    Uses id R memLoad f fun _ g => (f.stack.operand 0).toNat + 32 ≤ g.memory.size := by
  apply Uses.bind .top1
  rintro _ f₁ - rfl
  apply Uses.bind .amount
  rintro _ _ - ⟨rfl, rfl⟩
  apply Uses.bind (.grow fun _ => hR)
  rintro _ f₂ - ⟨hin, -⟩
  apply Uses.bind .get
  rintro _ _ - ⟨rfl, rfl⟩
  apply Uses.bind .checked
  rintro x _ - rfl
  exact Uses.setTop.imp fun _ g hg _ => Nat.le_trans (hin (by decide)) hg.grows

theorem memStore_uses (hR : ⟨(f.stack.operand 0).toNat, 32, true⟩ ∈ R) :
    Uses id R memStore f fun _ g => (f.stack.operand 0).toNat + 32 ≤ g.memory.size := by
  apply Uses.bind .pop2
  rintro _ f₁ - ⟨rfl, -⟩
  apply Uses.bind .amount
  rintro _ _ - ⟨rfl, rfl⟩
  apply Uses.bind (.grow fun _ => hR)
  rintro _ f₂ - ⟨hin, -⟩
  refine Uses.imp (.setBytes fun _ => ⟨_, hR, rfl, Nat.le_refl _, ?_⟩) fun _ g hg _ =>
    Nat.le_trans (hin (by decide)) hg.grows
  rw [Bytes.size_ofWord]
  exact Nat.le_refl _

theorem memStoreByte_uses (hR : ⟨(f.stack.operand 0).toNat, 1, true⟩ ∈ R) :
    Uses id R memStoreByte f fun _ g => (f.stack.operand 0).toNat + 1 ≤ g.memory.size := by
  apply Uses.bind .pop2
  rintro _ f₁ - ⟨rfl, -⟩
  apply Uses.bind .amount
  rintro _ _ - ⟨rfl, rfl⟩
  apply Uses.bind (.grow fun _ => hR)
  rintro _ f₂ - ⟨hin, -⟩
  exact (Uses.setByte hR).imp fun _ g hg _ => Nat.le_trans (hin (by decide)) hg.grows

theorem keccak_uses {r : Stretch}
    (hr : r = ⟨(f.stack.operand 0).toNat, (f.stack.operand 1).toNat, false⟩) (hR : r ∈ R) :
    Uses id R keccak f fun _ g => r.Within g := by
  subst hr
  apply Uses.bind .top2
  rintro _ f₁ - rfl
  apply Uses.bind .amount
  rintro _ _ - ⟨rfl, rfl⟩
  apply Uses.bind .pay
  rintro _ f₂ - -
  split
  · rename_i hlen
    exact Uses.setTop.imp fun _ _ _ _ hn => absurd hlen hn
  · rename_i hlen
    apply Uses.bind (.copyOut hlen hR)
    intro data f₃ _ hin
    exact Uses.setTop.imp fun _ g hg _ _ => Nat.le_trans hin hg.grows

theorem finish_uses {s : Status} {Q : Unit → Frame → Prop} (hs : s ≠ .running)
    (hR : ⟨(f.stack.operand 0).toNat, (f.stack.operand 1).toNat, false⟩ ∈ R) :
    Uses id R (finish s) f Q := by
  apply Uses.bind .pop2
  rintro _ f₁ - ⟨rfl, -⟩
  apply Uses.bind .amount
  rintro _ _ - ⟨rfl, rfl⟩
  split
  · apply Uses.bind (.modify rfl rfl)
    intro _ f₂ _ _
    exact .halt hs
  · apply Uses.bind .amount
    rintro _ _ - ⟨rfl, rfl⟩
    apply Uses.bind (.grow fun _ => hR)
    intro _ f₂ _ _
    apply Uses.bind (.modify rfl rfl)
    intro _ f₃ _ _
    exact .halt hs

theorem revert_uses {Q : Unit → Frame → Prop}
    (hR : ⟨(f.stack.operand 0).toNat, (f.stack.operand 1).toNat, false⟩ ∈ R) :
    Uses id R revert f Q := by
  apply Uses.bind .since
  rintro _ _ - rfl
  exact finish_uses Status.noConfusion hR

theorem copyData_uses {r : Stretch} {price : Nat → Option Nat} {memOffset dataOffset len : Word}
    {data : Bytes} (hr : r = ⟨memOffset.toNat, len.toNat, true⟩) (hR : r ∈ R) :
    Uses id R (copyData price memOffset dataOffset len data) f fun _ g => r.Within g := by
  subst hr
  apply Uses.bind .amount
  rintro _ _ - ⟨rfl, rfl⟩
  apply Uses.bind .pay
  rintro _ f₁ - -
  split
  · rename_i hlen
    apply Uses.bind .amount
    rintro _ _ - ⟨rfl, rfl⟩
    apply Uses.bind (.grow fun _ => hR)
    rintro _ f₂ - ⟨hin, -⟩
    exact (Uses.setData hR).imp fun _ g hg _ _ => Nat.le_trans (hin hlen) hg.grows
  · rename_i hlen
    exact .pure fun hn => absurd hn hlen

theorem copyLow_uses {r : Stretch} (data : Frame → Bytes)
    (hr : r = ⟨(f.stack.operand 0).toNat, (f.stack.operand 2).toNat, true⟩) (hR : r ∈ R) :
    Uses id R (copyLow data) f fun _ g => r.Within g := by
  apply Uses.bind .pop3
  rintro _ f₁ - ⟨rfl, -⟩
  apply Uses.bind .get
  intro _ f₂ _ _
  exact copyData_uses hr hR

theorem returnDataCopy_uses {r : Stretch}
    (hr : r = ⟨(f.stack.operand 0).toNat, (f.stack.operand 2).toNat, true⟩) (hR : r ∈ R) :
    Uses id R returnDataCopy f fun _ g => r.Within g := by
  subst hr
  apply Uses.bind .since
  rintro _ _ - rfl
  apply Uses.bind .pop3
  rintro _ f₁ - ⟨rfl, -⟩
  apply Uses.bind .amount
  rintro _ _ - ⟨rfl, rfl⟩
  apply Uses.bind .pay
  rintro _ f₂ - -
  apply Uses.bind .get
  rintro _ _ - ⟨rfl, rfl⟩
  apply Uses.bind (.ensure Status.noConfusion)
  rintro _ _ - rfl
  split
  · rename_i hlen
    apply Uses.bind .amount
    rintro _ _ - ⟨rfl, rfl⟩
    apply Uses.bind (.grow fun _ => hR)
    rintro _ f₃ - ⟨hin, -⟩
    refine Uses.imp (.setBytes fun _ => ⟨_, hR, rfl, Nat.le_refl _, ?_⟩) fun _ g hg _ _ =>
      Nat.le_trans (hin hlen) hg.grows
    exact Nat.add_le_add_left (Bytes.size_extract_le _ _ _) _
  · rename_i hlen
    exact .pure fun hn => absurd hn hlen

theorem initCode_uses {r : Stretch} {offset : Word} {len : Nat}
    (hr : r = ⟨offset.toNat, len, false⟩) (hR : r ∈ R) :
    Uses id R (initCode offset len) f fun _ g => r.Within g := by
  subst hr
  simp only [initCode]
  split
  · rename_i hlen
    exact .pure fun hn => absurd hlen hn
  rename_i hlen
  have copied : ∀ f₁ : Frame, Uses id R (copyOut offset len) f₁
      fun _ g => (⟨offset.toNat, len, false⟩ : Stretch).Within g := fun f₁ =>
    (Uses.copyOut hlen hR).imp fun _ _ _ hin _ => hin
  apply Uses.bind .rules
  rintro _ _ - rfl
  split
  · apply Uses.bind (.ensure Status.noConfusion)
    intro _ f₁ _ _
    exact .bind .pay fun _ _ _ _ => copied _
  · exact copied _

theorem askCreate_uses {r : Stretch} (salt : Option Word) (value : Word) (code : Bytes)
    (hf : r.Within f) :
    Uses id R (askCreate salt value code) f fun q g => q.Writes R ∧ r.Within g := by
  apply Uses.bind .get
  rintro _ _ - ⟨rfl, rfl⟩
  apply Uses.bind .charge
  intro _ f₁ h₁ _
  exact .pure ⟨trivial, hf.of_extends h₁⟩

theorem create_uses {r : Stretch} (salted : Bool)
    (hr : r = ⟨(f.stack.operand 1).toNat, (f.stack.operand 2).toNat, false⟩) (hR : r ∈ R) :
    Uses id R (create salted) f fun q g => q.Writes R ∧ r.Within g := by
  apply Uses.bind .mayWrite
  rintro _ _ - rfl
  cases salted with
  | false =>
    simp only [Bool.false_eq_true, if_false, pure_bind]
    apply Uses.bind .pop3
    rintro _ f₁ - ⟨rfl, -⟩
    apply Uses.bind .amount
    rintro _ _ - ⟨rfl, rfl⟩
    apply Uses.bind (initCode_uses hr hR)
    intro code f₂ _ hf₂
    apply Uses.bind .charge
    intro _ f₃ h₃ _
    exact askCreate_uses _ _ _ (hf₂.of_extends h₃)
  | true =>
    simp only [if_true]
    apply Uses.bind .since
    rintro _ _ - rfl
    apply Uses.bind .pop3
    rintro _ f₁ - ⟨rfl, -⟩
    apply Uses.bind (.map (T := fun _ _ => True) .pop1 fun _ _ _ => trivial)
    rintro salt f₂ - -
    apply Uses.bind .amount
    rintro _ _ - ⟨rfl, rfl⟩
    apply Uses.bind (initCode_uses hr hR)
    intro code f₃ _ hf₃
    apply Uses.bind .pay
    intro _ f₄ h₄ _
    exact askCreate_uses _ _ _ (hf₃.of_extends h₄)

/-- A range that is reserved is empty or the one that the operands name. -/
theorem reserve_uses {r : Stretch} {offset len : Word} {w : Bool}
    (hr : r = ⟨offset.toNat, len.toNat, w⟩) (hR : r ∈ R) :
    Uses id R (reserve offset len) f fun span g => r.Within g ∧
      g.stack = f.stack ∧ (span.length ≠ 0 → span.start = r.start ∧ span.length = r.length) := by
  subst hr
  apply Uses.bind .amount
  rintro _ _ - ⟨rfl, rfl⟩
  split
  · rename_i hlen
    exact .pure ⟨fun hn => absurd hlen hn, rfl, fun hn => absurd rfl hn⟩
  · rename_i hlen
    apply Uses.bind .amount
    rintro _ _ - ⟨rfl, rfl⟩
    apply Uses.bind (.grow fun _ => hR)
    rintro _ f₁ - ⟨hin, hstack⟩
    exact .pure ⟨fun _ => hin hlen, hstack, fun _ => ⟨rfl, Nat.add_sub_cancel_left ..⟩⟩

/-- The input and the output of a call, given by four operands after the first `n`. -/
theorem exchange_uses {n : Nat} {r r' : Stretch} {g : Frame} (hg : g.Popped n f)
    (hr : r = ⟨(g.stack.operand n).toNat, (g.stack.operand (n + 1)).toNat, false⟩)
    (hr' : r' = ⟨(g.stack.operand (n + 2)).toNat, (g.stack.operand (n + 3)).toNat, true⟩)
    (hR : r ∈ R) (hR' : r' ∈ R) :
    Uses id R exchange f fun p k => r.Within k ∧ r'.Within k ∧
      (p.2.length ≠ 0 → p.2.start = r'.start ∧ p.2.length = r'.length) := by
  apply Uses.bind .pop4
  rintro _ f₁ - ⟨rfl, -⟩
  have h0 := hg 0
  have h1 := hg 1
  have h2 := hg 2
  have h3 := hg 3
  simp only [Nat.add_zero] at h0 h1 h2 h3
  rw [← h0, ← h1] at hr
  rw [← h2, ← h3] at hr'
  apply Uses.bind (reserve_uses hr hR)
  rintro source f₂ - ⟨hin, -⟩
  apply Uses.bind .slice
  rintro input _ - rfl
  apply Uses.bind (reserve_uses hr' hR')
  rintro target f₃ h₃ ⟨hin', -, htarget⟩
  exact .pure ⟨hin.of_extends h₃, hin', htarget⟩

theorem forward_uses (found : Existence) (withValue : Bool) (requested : Word) :
    Uses id R (forward found withValue requested) f fun _ _ => True := by
  apply Uses.bind .rules
  intro r f₁ _ _
  apply Uses.bind .charge
  intro _ f₂ _ _
  apply Uses.bind .get
  intro g f₃ _ _
  exact .bind .charge fun _ _ _ _ => .pure trivial

end Local

section Exec

variable {h : Host σ} {s : Machine σ}

theorem refund_uses (amount : Int) :
    Uses Machine.frame R (Instruction.refund h amount) s fun _ g => g = s.frame :=
  .nested

theorem inspect_uses {α : Type} (query : Address → Query σ (Loaded α))
    (price : Rules → Bool → Nat) (result : α → Word) :
    Uses Machine.frame R (inspect query price result) s fun _ _ => True := by
  apply Uses.bind (.here .top1)
  intro w s₁ _ _
  apply Uses.bind .ask
  intro found s₂ _ _
  apply Uses.bind (.here .rules)
  intro r s₃ _ _
  apply Uses.bind (.here .charge)
  intro _ s₄ _ _
  exact .here .setTop

theorem selfBalance_uses : Uses Machine.frame R (selfBalance h) s fun _ _ => True := by
  apply Uses.bind (.here .having)
  intro _ s₁ _ _
  apply Uses.bind (.here .get)
  intro f s₂ _ _
  apply Uses.bind .ask
  intro found s₃ _ _
  exact .here .push

theorem blockHash_uses : Uses Machine.frame R (blockHash h) s fun _ _ => True := by
  apply Uses.bind (.here .top1)
  intro w s₁ _ _
  dsimp only
  split
  · apply Uses.bind .ask
    intro found s₂ _ _
    exact .here .setTop
  · exact .here .setTop

theorem codeHash_uses : Uses Machine.frame R (codeHash h) s fun _ _ => True :=
  .bind (.here .since) fun _ _ _ _ => inspect_uses _ _ _

theorem extCodeCopy_uses {r : Stretch}
    (hr : r = ⟨(s.frame.stack.operand 1).toNat, (s.frame.stack.operand 3).toNat, true⟩)
    (hR : r ∈ R) : Uses Machine.frame R (extCodeCopy h) s fun _ g => r.Within g := by
  apply Uses.bind (.here .pop4)
  rintro _ s₁ - ⟨rfl, -⟩
  apply Uses.bind .ask
  intro found s₂ _ _
  apply Uses.bind (.here .rules)
  intro rules s₃ _ _
  exact .here (copyData_uses hr hR)

theorem slotLoad_uses : Uses Machine.frame R (slotLoad h) s fun _ _ => True := by
  apply Uses.bind (.here .top1)
  intro key s₁ _ _
  apply Uses.bind (.here .get)
  intro f s₂ _ _
  apply Uses.bind .ask
  intro found s₃ _ _
  apply Uses.bind (.here .rules)
  intro r s₄ _ _
  apply Uses.bind (.here .charge)
  intro _ s₅ _ _
  exact .here .setTop

theorem slotStore_uses : Uses Machine.frame R (slotStore h) s fun _ _ => True := by
  apply Uses.bind (.here .mayWrite)
  intro _ s₁ _ _
  apply Uses.bind (.here .pop2)
  rintro ⟨key, value⟩ s₂ - -
  apply Uses.bind (.here sentry_uses)
  intro _ s₃ _ _
  apply Uses.bind (.here .get)
  intro f s₄ _ _
  apply Uses.bind .ask
  intro change s₅ _ _
  apply Uses.bind (.here .rules)
  intro r s₆ _ _
  apply Uses.bind (.here .charge)
  intro _ s₇ _ _
  exact (refund_uses _).imp fun _ _ _ _ => trivial

theorem logTopics_uses {r : Stretch} (topics : Nat) (data : Bytes) (hs : r.Within s.frame) :
    Uses Machine.frame R (logTopics h topics data) s fun _ g => r.Within g := by
  apply Uses.bind (.here .pop)
  intro words s₁ h₁ _
  apply Uses.bind (.here .get)
  intro f s₂ h₂ _
  exact Uses.tell.imp fun _ _ h₃ _ => ((hs.of_extends h₁).of_extends h₂).of_extends h₃

theorem log_uses {r : Stretch} (topics : Nat)
    (hr : r = ⟨(s.frame.stack.operand 0).toNat, (s.frame.stack.operand 1).toNat, false⟩)
    (hR : r ∈ R) : Uses Machine.frame R (log h topics) s fun _ g => r.Within g := by
  subst hr
  apply Uses.bind (.here .mayWrite)
  rintro _ s₁ - hs₁
  apply Uses.bind (.here .pop2)
  rintro _ s₂ - ⟨rfl, -⟩
  apply Uses.bind (.here .amount)
  rintro _ s₃ - ⟨rfl, -⟩
  apply Uses.bind (.here .pay)
  intro _ s₄ _ _
  rw [hs₁]
  split
  · rename_i hlen
    exact logTopics_uses _ _ fun hn => absurd hlen hn
  · rename_i hlen
    apply Uses.bind (.here (.copyOut hlen hR))
    intro data s₅ _ hin
    exact logTopics_uses _ _ fun _ => hin

theorem endDestruct_uses (cost : Nat) :
    Uses Machine.frame R (endDestruct cost) s fun _ _ => True :=
  .bind (.here .charge) fun _ _ _ _ => .here (.halt Status.noConfusion)

theorem selfDestruct_uses : Uses Machine.frame R (selfDestruct h) s fun _ _ => True := by
  apply Uses.bind (.here .mayWrite)
  intro _ s₁ _ _
  apply Uses.bind (.here .pop1)
  intro beneficiary s₂ _ _
  apply Uses.bind (.here .get)
  intro f s₃ _ _
  apply Uses.bind .ask
  intro found s₄ _ _
  apply Uses.bind (.here .rules)
  intro r s₅ _ _
  split
  · apply Uses.bind (refund_uses _)
    intro _ s₆ _ _
    exact endDestruct_uses _
  · exact endDestruct_uses _

end Exec

end Instruction

namespace Instruction

section Calls

variable {h : Host σ} {s : Machine σ} {r r' : Stretch} {s₀ : Frame}

theorem callWith_uses {n : Nat} {codeAddress : Address} {requested : Word}
    {withValue mayCreate : Bool} {request : Bytes → Nat → CallRequest} (hs : s₀.Popped n s.frame)
    (hr : r = ⟨(s₀.stack.operand n).toNat, (s₀.stack.operand (n + 1)).toNat, false⟩)
    (hr' : r' = ⟨(s₀.stack.operand (n + 2)).toNat, (s₀.stack.operand (n + 3)).toNat, true⟩)
    (hR : r ∈ R) (hR' : r' ∈ R) :
    Uses Machine.frame R (callWith h codeAddress requested withValue mayCreate request) s
      fun q g => q.Writes R ∧ r.Within g ∧ r'.Within g := by
  apply Uses.bind (.here (exchange_uses hs hr hr' hR hR'))
  rintro ⟨input, into⟩ s₁ - ⟨hin, hin', hinto⟩
  apply Uses.bind .ask
  intro found s₂ h₂ _
  apply Uses.bind (.here (forward_uses _ _ _))
  intro given s₃ h₃ _
  refine .pure ⟨fun hlen => ⟨r', hR', ?_, hinto hlen⟩, ?_, ?_⟩
  · rw [hr']
  · exact (hin.of_extends h₂).of_extends h₃
  · exact (hin'.of_extends h₂).of_extends h₃

theorem call_uses
    (hr : r = ⟨(s.frame.stack.operand 3).toNat, (s.frame.stack.operand 4).toNat, false⟩)
    (hr' : r' = ⟨(s.frame.stack.operand 5).toNat, (s.frame.stack.operand 6).toNat, true⟩)
    (hR : r ∈ R) (hR' : r' ∈ R) :
    Uses Machine.frame R (call h) s fun q g => q.Writes R ∧ r.Within g ∧ r'.Within g := by
  apply Uses.bind (.here .pop3)
  rintro _ s₁ - ⟨rfl, h₁⟩
  apply Uses.bind (.here .get)
  rintro _ s₂ - ⟨-, h₂⟩
  apply Uses.bind (.here (.ensure Status.noConfusion))
  rintro _ s₃ - h₃
  rw [← h₂, ← h₃] at h₁
  exact callWith_uses h₁ hr hr' hR hR'

theorem callCode_uses
    (hr : r = ⟨(s.frame.stack.operand 3).toNat, (s.frame.stack.operand 4).toNat, false⟩)
    (hr' : r' = ⟨(s.frame.stack.operand 5).toNat, (s.frame.stack.operand 6).toNat, true⟩)
    (hR : r ∈ R) (hR' : r' ∈ R) :
    Uses Machine.frame R (callCode h) s fun q g => q.Writes R ∧ r.Within g ∧ r'.Within g := by
  apply Uses.bind (.here .pop3)
  rintro _ s₁ - ⟨rfl, h₁⟩
  apply Uses.bind (.here .get)
  rintro _ s₂ - ⟨-, h₂⟩
  rw [← h₂] at h₁
  exact callWith_uses h₁ hr hr' hR hR'

theorem delegateCall_uses
    (hr : r = ⟨(s.frame.stack.operand 2).toNat, (s.frame.stack.operand 3).toNat, false⟩)
    (hr' : r' = ⟨(s.frame.stack.operand 4).toNat, (s.frame.stack.operand 5).toNat, true⟩)
    (hR : r ∈ R) (hR' : r' ∈ R) :
    Uses Machine.frame R (delegateCall h) s fun q g => q.Writes R ∧ r.Within g ∧ r'.Within g := by
  apply Uses.bind (.here .since)
  rintro _ s₁ - h₁
  apply Uses.bind (.here .pop2)
  rintro _ s₂ - ⟨rfl, h₂⟩
  apply Uses.bind (.here .get)
  rintro _ s₃ - ⟨-, h₃⟩
  rw [h₁, ← h₃] at h₂
  exact callWith_uses h₂ hr hr' hR hR'

theorem staticCall_uses
    (hr : r = ⟨(s.frame.stack.operand 2).toNat, (s.frame.stack.operand 3).toNat, false⟩)
    (hr' : r' = ⟨(s.frame.stack.operand 4).toNat, (s.frame.stack.operand 5).toNat, true⟩)
    (hR : r ∈ R) (hR' : r' ∈ R) :
    Uses Machine.frame R (staticCall h) s fun q g => q.Writes R ∧ r.Within g ∧ r'.Within g := by
  apply Uses.bind (.here .since)
  rintro _ s₁ - h₁
  apply Uses.bind (.here .pop2)
  rintro _ s₂ - ⟨rfl, h₂⟩
  apply Uses.bind (.here .get)
  rintro _ s₃ - ⟨-, h₃⟩
  rw [h₁, ← h₃] at h₂
  exact callWith_uses h₂ hr hr' hR hR'

end Calls

section Replies

open Local

variable {h : Host σ} {s : Machine σ} {f : Frame}

theorem giveBack_uses (gas : Gas) : Uses id R (giveBack gas) f fun _ _ => True := by
  unfold Uses
  intro hf
  by_cases hmax : f.gas.remaining + gas.remaining ≤ Amount.max
  · simp only [Local.giveBack, Gas.giveBack, Amount.add, hmax, if_true, Except.map]
    exact ⟨.of_same hf rfl rfl rfl, trivial⟩
  · simp only [Local.giveBack, Gas.giveBack, Amount.add, hmax, if_false, Except.map]

theorem takeCallReply_uses {reply : CallReply} {into : Span} {r : CallRequest}
    (hR : (Request.call r into).Writes R) :
    Uses id R (takeCallReply reply into) f fun _ _ => True := by
  apply Uses.bind (.modify rfl rfl)
  intro _ f₁ _ _
  split
  · apply Uses.bind (giveBack_uses _)
    intro _ f₂ _ _
    refine Uses.bind (.setBytes fun hb => ?_) fun _ _ _ _ => .push
    -- No more is written than what has been set aside.
    rw [ByteArray.size_extract] at hb ⊢
    obtain ⟨r, hr, hw, hstart, hlen⟩ := hR (by omega)
    refine ⟨r, hr, hw, Nat.le_of_eq hstart.symm, ?_⟩
    rw [hstart]
    refine Nat.add_le_add_left ?_ _
    omega
  split
  · exact .halt Status.noConfusion
  · exact .push

theorem takeCreateReply_uses {reply : CreateReply} :
    Uses id R (takeCreateReply reply) f fun _ _ => True := by
  apply Uses.bind (.modify rfl rfl)
  intro _ f₁ _ _
  split
  · apply Uses.bind (giveBack_uses _)
    intro _ f₂ _ _
    split
    · exact .push
    · exact .push
  split
  · exact .bind (giveBack_uses _) fun _ _ _ _ => .push
  split
  · exact .halt Status.noConfusion
  · exact .push

theorem serve_uses {r : Request} (hR : r.Writes R) :
    Uses Machine.frame R (serve h r) s fun _ _ => True := by
  cases r with
  | call r into => exact .bind .nested fun _ _ _ _ => .here (takeCallReply_uses hR)
  | create r => exact .bind .nested fun _ _ _ _ => .here takeCreateReply_uses

end Replies

end Instruction

def Frame.Places (R : List Stretch) (f : Frame) : Prop := ∀ r ∈ R, r.Within f

namespace Frame.Places

variable {f : Frame} {r r' : Stretch}

theorem nil : f.Places [] := fun _ hr => absurd hr List.not_mem_nil

theorem single (hr : r.Within f) : f.Places [r] := by
  intro k hk
  rw [List.mem_singleton.1 hk]
  exact hr

theorem pair (hr : r.Within f) (hr' : r'.Within f) : f.Places [r, r'] := by
  intro k hk
  obtain rfl | hk := List.mem_cons.1 hk
  · exact hr
  · rw [List.mem_singleton.1 hk]
    exact hr'

end Frame.Places

namespace Opcode

variable {h : Host σ} {s : Machine σ}

theorem idle {S : Type} {view : S → Frame} {x : EStateM Ending S Unit} {s : S}
    (hx : Uses view [] x s fun _ _ => True) : Uses view [] x s fun _ g => g.Places [] :=
  hx.imp fun _ _ _ _ => .nil

theorem run_uses {op : Opcode} (hop : op.request? h = none) :
    Uses Machine.frame (op.stretches s.frame.stack) (op.run h) s
      fun _ g => g.Places (op.stretches s.frame.stack) := by
  cases op with
  | stop | invalid => exact .here (.halt Status.noConfusion)
  | add | mul | sub | div | signedDiv | mod | signedMod | signExtend | lt | gt | signedLt
  | signedGt | eq | bitAnd | bitOr | bitXor | byteAt => exact idle (.here (binary_uses _))
  | addMod | mulMod => exact idle (.here (ternary_uses _))
  | isZero | bitNot => exact idle (.here (unary_uses _))
  | shiftLeft | shiftRight | signedShiftRight => exact idle (.here (binarySince_uses _ _))
  | exp => exact idle (.here exp_uses)
  | address | caller | callValue | callDataSize | codeSize | memSize | gas =>
    exact idle (.here (observe_uses _))
  | origin | gasPrice | coinbase | timestamp | number | gasLimit => exact idle (.here .push)
  | difficulty => exact idle (.here (difficulty_uses _))
  | chainId | baseFee => exact idle (.here (observeHaving_uses _ _))
  | callDataLoad => exact idle (.here callDataLoad_uses)
  | returnDataSize => exact idle (.here returnDataSize_uses)
  | balance => exact idle (inspect_uses h.balance Price.balance id)
  | extCodeSize => exact idle (inspect_uses h.code Price.codeSize fun code => .ofNat code.size)
  | extCodeHash => exact idle codeHash_uses
  | blockHash => exact idle blockHash_uses
  | selfBalance => exact idle selfBalance_uses
  | pop => exact idle (.here discard_uses)
  | slotLoad => exact idle slotLoad_uses
  | slotStore => exact idle slotStore_uses
  | jump => exact idle (.here jump_uses)
  | jumpIf => exact idle (.here jumpIf_uses)
  | pc => exact idle (.here position_uses)
  | jumpDest => exact .pure .nil
  | pushZero => exact idle (.here pushZero_uses)
  | push n => exact idle (.here (pushBytes_uses _))
  | dup n => exact idle (.here (.onStack fun _ he => Stack.dup_error he))
  | swap n => exact idle (.here (.onStack fun _ he => Stack.swap_error he))
  | selfDestruct => exact idle selfDestruct_uses
  | memLoad =>
    exact (Uses.here (memLoad_uses List.mem_cons_self)).imp fun _ _ _ hin => .single fun _ => hin
  | memStore =>
    exact (Uses.here (memStore_uses List.mem_cons_self)).imp fun _ _ _ hin => .single fun _ => hin
  | memStoreByte =>
    exact (Uses.here (memStoreByte_uses List.mem_cons_self)).imp fun _ _ _ hin =>
      .single fun _ => hin
  | keccak =>
    exact (Uses.here (keccak_uses rfl List.mem_cons_self)).imp fun _ _ _ hin => .single hin
  | callDataCopy | codeCopy =>
    exact (Uses.here (copyLow_uses _ rfl List.mem_cons_self)).imp fun _ _ _ hin => .single hin
  | returnDataCopy =>
    exact (Uses.here (returnDataCopy_uses rfl List.mem_cons_self)).imp fun _ _ _ hin => .single hin
  | extCodeCopy =>
    exact (extCodeCopy_uses rfl List.mem_cons_self).imp fun _ _ _ hin => .single hin
  | log n => exact (log_uses _ rfl List.mem_cons_self).imp fun _ _ _ hin => .single hin
  | ret => exact .here (finish_uses Status.noConfusion List.mem_cons_self)
  | revert => exact .here (revert_uses List.mem_cons_self)
  | create | call | callCode | delegateCall | create2 | staticCall => cases hop

theorem request?_uses {op : Opcode} {x : Exec σ Request} (hop : op.request? h = some x) :
    Uses Machine.frame (op.stretches s.frame.stack) x s
      fun q g => q.Writes (op.stretches s.frame.stack) ∧ g.Places (op.stretches s.frame.stack) := by
  have both : ∀ {r r' : Stretch} {q : Request} {g : Frame},
      q.Writes [r, r'] ∧ r.Within g ∧ r'.Within g → q.Writes [r, r'] ∧ g.Places [r, r'] :=
    fun hq => ⟨hq.1, .pair hq.2.1 hq.2.2⟩
  cases op with
  | create | create2 =>
    cases hop
    exact (Uses.here (create_uses _ rfl List.mem_cons_self)).imp fun _ _ _ hq =>
      ⟨hq.1, .single hq.2⟩
  | call =>
    cases hop
    exact (call_uses rfl rfl List.mem_cons_self (List.mem_cons_of_mem _ List.mem_cons_self)).imp
      fun _ _ _ => both
  | callCode =>
    cases hop
    exact (callCode_uses rfl rfl List.mem_cons_self
      (List.mem_cons_of_mem _ List.mem_cons_self)).imp fun _ _ _ => both
  | delegateCall =>
    cases hop
    exact (delegateCall_uses rfl rfl List.mem_cons_self
      (List.mem_cons_of_mem _ List.mem_cons_self)).imp fun _ _ _ => both
  | staticCall =>
    cases hop
    exact (staticCall_uses rfl rfl List.mem_cons_self
      (List.mem_cons_of_mem _ List.mem_cons_self)).imp fun _ _ _ => both
  | _ => cases hop

end Opcode

namespace Frame

def regions (f : Frame) : List Region := (Opcode.ofByte? f.nextByte).elim [] Opcode.regions

def stretches (f : Frame) : List Stretch := f.regions.map (·.on f.stack)

end Frame

namespace Machine

variable {h : Host σ} {s t : Machine σ}

theorem execute_uses (op? : Option Opcode) :
    Uses Machine.frame ((op?.elim [] Opcode.regions).map (·.on s.frame.stack)) (execute h op?) s
      fun _ g => g.Places ((op?.elim [] Opcode.regions).map (·.on s.frame.stack)) := by
  cases op? with
  | none => exact .here (.halt Status.noConfusion)
  | some op =>
    apply Uses.bind (.here .charge)
    rintro _ t - hstack
    have hsame : op.stretches t.frame.stack = op.regions.map (·.on s.frame.stack) := by
      rw [hstack]
      rfl
    cases hop : op.request? h with
    | none =>
      have hrun := Opcode.run_uses (s := t) hop
      rw [hsame] at hrun
      exact hrun
    | some x =>
      have hx := Opcode.request?_uses (s := t) hop
      rw [hsame] at hx
      rw [Opcode.run_eq_nest hop]
      apply Uses.bind hx
      rintro q u - ⟨hq, hplaced⟩
      exact (serve_uses hq).imp fun _ g hg _ r hr => (hplaced r hr).of_extends hg

theorem settle_uses {x : Exec σ Unit} (hs : s.frame.gas.Covers s.frame.memory.size)
    (hx : Uses Machine.frame R x s fun _ g => g.Places R) (ht : s.settle x = .ok t) :
    s.frame.Extends R t.frame ∧ (t.frame.status = .running → t.frame.Places R) := by
  unfold Uses at hx
  replace hx := hx hs
  simp only [settle] at ht
  cases he : x s with
  | ok a u =>
    rw [he] at hx ht
    cases ht
    exact ⟨hx.1, fun _ => hx.2⟩
  | error e u =>
    rw [he] at hx ht
    cases e with
    | status e =>
      cases ht
      obtain ⟨hended, hcovers, hgrows, hgrown, hkept⟩ := hx
      exact ⟨⟨hcovers, hgrows, hgrown, hkept⟩, fun hrun => absurd hrun hended⟩
    | fault e => cases ht

/-- A step uses the memory in the ranges of its opcode, which all lie in memory if the frame runs
on. -/
theorem step_uses (hs : s.frame.gas.Covers s.frame.memory.size) (ht : s.step h = .ok t) :
    s.frame.Extends s.frame.stretches t.frame ∧
      (t.frame.status = .running → t.frame.Places s.frame.stretches) := by
  have hpassed : s.passed.frame.gas.Covers s.passed.frame.memory.size := hs
  rw [step_eq] at ht
  obtain ⟨⟨hcovers, hgrows, hgrown, hkept⟩, hplaced⟩ :=
    settle_uses hpassed (execute_uses _) ht
  exact ⟨⟨hcovers, hgrows, hgrown, hkept⟩, hplaced⟩

end Machine

end MeteredVM
