import MeteredVM.Proofs.Frame.Exec

namespace MeteredVM

variable {σ : Type}

/-- The calls that the instructions of a frame ask for. A static frame moves no value to another
account. -/
inductive Invocation.MayCall (i : Invocation) : CallRequest → Prop
  | call (callee : Address) (value : Word) (input : Bytes) (gas : Nat)
      (allowed : i.isStatic = false ∨ value = 0) :
      MayCall i
        { codeAddress := callee
          source := i.address
          target := callee
          value := value
          input := input
          gasLimit := gas
          address := callee
          caller := i.address
          apparentValue := value
          isStatic := i.isStatic }
  | callCode (callee : Address) (value : Word) (input : Bytes) (gas : Nat) :
      MayCall i
        { codeAddress := callee
          source := i.address
          target := i.address
          value := value
          input := input
          gasLimit := gas
          address := i.address
          caller := i.address
          apparentValue := value
          isStatic := i.isStatic }
  | delegateCall (callee : Address) (input : Bytes) (gas : Nat)
      (since : i.rules.since .homestead = true) :
      MayCall i
        { codeAddress := callee
          source := i.address
          target := i.address
          value := 0
          input := input
          gasLimit := gas
          address := i.address
          caller := i.caller
          apparentValue := i.value
          isStatic := i.isStatic }
  | staticCall (callee : Address) (input : Bytes) (gas : Nat)
      (since : i.rules.since .byzantium = true) :
      MayCall i
        { codeAddress := callee
          source := i.address
          target := callee
          value := 0
          input := input
          gasLimit := gas
          address := callee
          caller := i.address
          apparentValue := 0
          isStatic := true }

structure Invocation.MayCreate (i : Invocation) (r : CreateRequest) : Prop where
  writable : i.isStatic = false
  creator : r.creator = i.address
  salt : r.salt.isSome → i.rules.since .constantinople = true

def Invocation.MayAsk (i : Invocation) : Request → Prop
  | .call r _ => i.MayCall r
  | .create r => i.MayCreate r

namespace Request

def gasLimit : Request → Nat
  | .call r _ => r.gasLimit
  | .create r => r.gasLimit

def cost : Request → Nat
  | .call _ _ => 1
  | .create _ => Price.creation

theorem cost_pos : ∀ r : Request, 0 < r.cost
  | .call _ _ => Nat.one_pos
  | .create _ => Nat.succ_pos _

def Fits (f : Frame) : Request → Prop
  | .call _ into => into.start + into.length ≤ f.memory.size
  | .create _ => True

end Request

/-- The request may be made, is paid for along with the gas that goes with it, and its output has a
place. -/
structure Frame.Asks (P : Prop) (f : Frame) (r : Request) (g : Frame) : Prop where
  permitted : f.invocation.MayAsk r
  paid : r.gasLimit + r.cost + g.gas.remaining ≤ f.gas.remaining
  fits : P → r.Fits g

theorem Frame.Asks.spent {P : Prop} {f g : Frame} {r : Request} (h : f.Asks P r g) :
    r.gasLimit + g.gas.remaining < f.gas.remaining := by
  have hpaid := h.paid
  have hcost := r.cost_pos
  omega

namespace Price

theorem le_call (r : Rules) (withValue absent cold : Bool) :
    40 + (if withValue then 9000 else 0) ≤ call r withValue absent cold := by
  have hbase : 40 ≤ (if r.has .eip2929 then account cold else if r.since .tangerine then 700 else 40) := by
    simp only [account]
    repeat' split
    all_goals decide
  simp only [call]
  omega

end Price

namespace Instruction

open Local

section Local

variable {P : Prop} {f : Frame}

theorem initCode_pays (offset : Word) (len : Nat) :
    Local.Pays P 0 (initCode offset len) f fun _ _ => True := by
  simp only [initCode]
  split
  · exact .pure trivial
  rename_i hlen
  apply Local.Pays.first .rules
  rintro r _ - -
  split
  · apply Local.Pays.first (.ensure (by rfl))
    intro _ f₁ _ _
    refine Local.Pays.first (.pay fun cost _ => Nat.zero_le cost) ?_
    intro _ f₂ _ _
    exact .copyOut hlen
  · exact .copyOut hlen

theorem reserve_pays (offset len : Word) :
    Local.Pays P 0 (reserve offset len) f
      fun span g => P → span.start + span.length ≤ g.memory.size := by
  apply Local.Pays.first .amount
  rintro n _ - rfl
  split
  · exact .pure fun _ => Nat.zero_le _
  · rename_i hn
    apply Local.Pays.first .amount
    rintro start _ - rfl
    apply Local.Pays.first .grow
    intro _ f₁ _ h₁
    refine .pure fun hP => ?_
    have hin := h₁ hP hn
    simp only [Span.length]
    omega

theorem exchange_pays :
    Local.Pays P 0 exchange f
      fun r g => P → r.2.start + r.2.length ≤ g.memory.size := by
  apply Local.Pays.first .pop4
  rintro ⟨sourceOffset, sourceLen, targetOffset, targetLen⟩ f₁ - -
  apply Local.Pays.first (reserve_pays _ _)
  intro source f₂ _ h₂
  apply Local.Pays.first (.slice h₂)
  rintro input _ - rfl
  apply Local.Pays.first (reserve_pays _ _)
  intro target f₃ _ h₃
  exact .pure h₃

/-- What the callee is given comes out of what is left, as its stipend is less than what a transfer
of value costs. -/
theorem forward_pays (found : Existence) (withValue : Bool) (requested : Word) :
    Local.Pays P 1 (forward found withValue requested) f
      fun given g => given + g.gas.remaining < f.gas.remaining := by
  apply Local.Pays.first .rules
  rintro _ f₀ - ⟨rfl, rfl⟩
  have hprice := Price.le_call f₀.rules withValue found.absent found.cold
  refine Local.Pays.then (Local.Pays.charge.imp (by omega) fun _ _ h => h.1) ?_
  intro _ f₁ _ h₁
  refine Local.Pays.first .get ?_
  rintro _ _ - ⟨rfl, rfl⟩
  refine Local.Pays.first (Local.Pays.charge.imp (Nat.zero_le _) fun _ _ h => h.1) ?_
  intro _ f₂ _ h₂
  refine .pure ?_
  cases withValue with
  | false =>
    simp only [Bool.false_eq_true, if_false] at hprice ⊢
    omega
  | true =>
    -- The 2300 that are not charged for have been paid with the 9000 for the value.
    simp only [if_true] at hprice ⊢
    simp only [Amount.addClamped, Price.stipend]
    omega

/-- The last steps of a creation, which are the same for both kinds. -/
def askCreate (salt : Option Word) (value : Word) (code : Bytes) : Local Request := do
  let f ← get
  let left := f.gas.remaining
  let given := if f.rules.since .tangerine then Price.allButOne64th left else left
  charge given
  return .create ⟨f.invocation.address, salt, value, code, given⟩

theorem askCreate_pays {f₀ : Frame} {salt : Option Word} (value : Word) (code : Bytes)
    (hw : f₀.invocation.isStatic = false) (h : f₀.Follows P Price.creation f)
    (hsalt : salt.isSome → f₀.rules.since .constantinople = true) :
    Local.Pays P 0 (askCreate salt value code) f (f₀.Asks P) := by
  apply Local.Pays.first .get
  rintro _ f₁ - ⟨rfl, rfl⟩
  refine Local.Pays.first (Local.Pays.charge.imp (Nat.zero_le _) fun _ _ h => h.1) ?_
  intro _ f₂ _ h₂
  refine .pure ⟨⟨hw, ?_, hsalt⟩, ?_, fun _ => trivial⟩
  · exact congrArg Invocation.address h.invocation
  · have hpaid := h.paid
    simp only [Request.gasLimit, Request.cost]
    omega

theorem create_pays (salted : Bool) :
    Local.Pays P Price.creation (create salted) f (f.Asks P) := by
  apply Local.Pays.first .mayWrite
  rintro _ f₀ - ⟨hw, rfl⟩
  cases salted with
  | false =>
    simp only [Bool.false_eq_true, if_false, pure_bind]
    apply Local.Pays.first .pop3
    rintro ⟨value, offset, w⟩ f₁ h₁ -
    apply Local.Pays.first .amount
    rintro len f₂ h₂ -
    apply Local.Pays.first (initCode_pays _ _)
    intro code f₃ h₃ _
    refine Local.Pays.then (Local.Pays.charge.imp (Nat.le_refl _) fun _ _ h => h) ?_
    intro _ f₄ h₄ _
    have hpaid := ((h₁.trans h₂).trans h₃).trans h₄
    rw [Nat.zero_add] at hpaid
    exact askCreate_pays value code hw hpaid nofun
  | true =>
    simp only [if_true]
    apply Local.Pays.first .since
    rintro _ _ - ⟨hsince, rfl⟩
    apply Local.Pays.first .pop3
    rintro ⟨value, offset, w⟩ f₁ h₁ -
    apply Local.Pays.first (.map .pop1)
    intro salt f₂ h₂ _
    apply Local.Pays.first .amount
    rintro len f₃ h₃ -
    apply Local.Pays.first (initCode_pays _ _)
    intro code f₄ h₄ _
    refine Local.Pays.then (.pay fun cost hcost => Price.le_saltedCreation hcost) ?_
    intro _ f₅ h₅ _
    have hpaid := (((h₁.trans h₂).trans h₃).trans h₄).trans h₅
    rw [Nat.zero_add] at hpaid
    exact askCreate_pays value code hw hpaid fun _ => hsince

end Local

section Exec

variable {h : Host σ} {P : Prop} {s : Machine σ}

theorem callWith_pays {s₀ : Machine σ} {codeAddress : Address} {requested : Word}
    {withValue mayCreate : Bool} {request : Bytes → Nat → CallRequest} (h₀ : s₀.Follows h P 0 s)
    (hgas : ∀ input gas, (request input gas).gasLimit = gas)
    (hmay : ∀ input gas, s₀.frame.invocation.MayCall (request input gas)) :
    Exec.Pays h P 1 (callWith h codeAddress requested withValue mayCreate request) s
      fun r t => s₀.frame.Asks P r t.frame := by
  apply Exec.Pays.first (.here exchange_pays)
  rintro ⟨input, into⟩ s₁ h₁ ⟨hinto, -⟩
  apply Exec.Pays.first (.ask (.existence _))
  intro found s₂ h₂ _
  apply Exec.Pays.then (.here (forward_pays _ _ _))
  rintro given s₃ h₃ ⟨hgiven, -⟩
  refine .pure ⟨hmay input given, ?_, fun hP => ?_⟩
  · have hpaid := ((h₀.trans h₁).trans h₂).frame.paid
    simp only [Request.gasLimit, Request.cost, hgas input given]
    omega
  · have hsize := (h₂.trans h₃).frame.solid hP
    exact Nat.le_trans (hinto hP) hsize.2

theorem call_pays : Exec.Pays h P 1 (call h) s fun r t => s.frame.Asks P r t.frame := by
  apply Exec.Pays.first (.here .pop3)
  rintro ⟨requested, callee, value⟩ s₁ h₁ -
  apply Exec.Pays.first (.here .get)
  rintro _ s₂ h₂ ⟨⟨rfl, -⟩, -⟩
  refine Exec.Pays.first (.here (.ensure (by rfl))) ?_
  rintro _ s₃ h₃ ⟨⟨hallowed, -⟩, -⟩
  rw [h₁.frame.invocation] at hallowed ⊢
  refine callWith_pays ((h₁.trans h₂).trans h₃) (fun _ _ => rfl) fun input gas => ?_
  refine .call callee.toAddress value input gas ?_
  simpa [Decidable.or_iff_not_imp_left] using hallowed

theorem callCode_pays : Exec.Pays h P 1 (callCode h) s fun r t => s.frame.Asks P r t.frame := by
  apply Exec.Pays.first (.here .pop3)
  rintro ⟨requested, callee, value⟩ s₁ h₁ -
  apply Exec.Pays.first (.here .get)
  rintro _ s₂ h₂ ⟨⟨rfl, -⟩, -⟩
  rw [h₁.frame.invocation]
  refine callWith_pays (h₁.trans h₂) (fun _ _ => rfl) fun input gas => ?_
  exact .callCode callee.toAddress value input gas

theorem delegateCall_pays :
    Exec.Pays h P 1 (delegateCall h) s fun r t => s.frame.Asks P r t.frame := by
  apply Exec.Pays.first (.here .since)
  rintro _ s₁ h₁ ⟨⟨hsince, -⟩, -⟩
  apply Exec.Pays.first (.here .pop2)
  rintro ⟨requested, callee⟩ s₂ h₂ -
  apply Exec.Pays.first (.here .get)
  rintro _ s₃ h₃ ⟨⟨rfl, -⟩, -⟩
  rw [(h₁.trans h₂).frame.invocation]
  refine callWith_pays ((h₁.trans h₂).trans h₃) (fun _ _ => rfl) fun input gas => ?_
  exact .delegateCall callee.toAddress input gas hsince

theorem staticCall_pays :
    Exec.Pays h P 1 (staticCall h) s fun r t => s.frame.Asks P r t.frame := by
  apply Exec.Pays.first (.here .since)
  rintro _ s₁ h₁ ⟨⟨hsince, -⟩, -⟩
  apply Exec.Pays.first (.here .pop2)
  rintro ⟨requested, callee⟩ s₂ h₂ -
  apply Exec.Pays.first (.here .get)
  rintro _ s₃ h₃ ⟨⟨rfl, -⟩, -⟩
  rw [(h₁.trans h₂).frame.invocation]
  refine callWith_pays ((h₁.trans h₂).trans h₃) (fun _ _ => rfl) fun input gas => ?_
  exact .staticCall callee.toAddress input gas hsince

end Exec

end Instruction

end MeteredVM
