import MeteredVM.Proofs.Frame.Trade
import MeteredVM.Proofs.Frame.Memory

namespace MeteredVM

open Exec Instruction

variable {σ : Type} {E F : Prop}

theorem Exec.bind_eq_ok {S α β : Type} {x : EStateM Ending S α} {k : α → EStateM Ending S β}
    {s u : S} {b : β} (hu : (x >>= k) s = .ok b u) : ∃ a t, x s = .ok a t ∧ k a t = .ok b u := by
  simp only [Bind.bind, EStateM.bind] at hu
  cases hx : x s with
  | ok a t =>
    rw [hx] at hu
    exact ⟨a, t, rfl, hu⟩
  | error e t =>
    rw [hx] at hu
    cases hu

theorem Exec.here_eq_ok {α : Type} {x : Local α} {s t : Machine σ} {a : α}
    (ht : (here x : Exec σ α) s = .ok a t) : x s.frame = .ok a t.frame ∧ t.world = s.world := by
  simp only [Exec.here] at ht
  cases hx : x s.frame with
  | ok b g =>
    rw [hx] at ht
    cases ht
    exact ⟨rfl, rfl⟩
  | error e g =>
    rw [hx] at ht
    cases ht

theorem Exec.ask_eq_ok {α : Type} {q : Query σ α} {s t : Machine σ} {a : α}
    (ht : (ask q : Exec σ α) s = .ok a t) :
    q s.world = .ok a t.world ∧ t.frame = s.frame := by
  simp only [ask] at ht
  cases hq : q s.world with
  | ok b w =>
    rw [hq] at ht
    cases ht
    exact ⟨rfl, rfl⟩
  | error e w =>
    rw [hq] at ht
    cases ht

theorem Exec.rules_eq_ok {s t : Machine σ} {r : Rules}
    (ht : (here Local.rules : Exec σ Rules) s = .ok r t) : r = s.frame.rules ∧ t = s := by
  cases ht
  exact ⟨rfl, rfl⟩

theorem Exec.get_eq_ok {s t : Machine σ} {f : Frame} (ht : (here get : Exec σ Frame) s = .ok f t) :
    f = s.frame ∧ t = s := by
  cases ht
  exact ⟨rfl, rfl⟩

theorem Exec.solid_of_pays {α : Type} {n : Nat} {x : Local α} {Q : α → Frame → Prop}
    {s t : Machine σ} {a : α} (hx : Local.Pays True n x s.frame Q) (ht : (here x : Exec σ α) s = .ok a t)
    (hs : s.frame.Solid) : t.frame.Solid := by
  unfold Local.Pays at hx
  replace hx := hx fun _ => hs
  rw [(Exec.here_eq_ok ht).1] at hx
  exact (hx.1.solid trivial).1

theorem Trades.answered {α : Type} {m n : Nat} {d : Option Nat} {x : Local α}
    {Q : α → Frame → Prop} {f : Frame} (hx : Trades id E True m n d x f)
    (hp : Local.Pays True 0 x f Q) (hf : f.Solid) : Trades id E F m n d x f := by
  unfold Local.Pays at hp
  unfold Trades at hx ⊢
  replace hp := hp fun _ => hf
  refine Ends.iff.mpr ⟨fun a t => hx.ok, fun e t he => ?_⟩
  cases e with
  | status e => exact hx.error he
  | fault e =>
    rw [he] at hp
    exact absurd trivial hp.2

namespace Instruction

open Local

section Local

variable {f : Frame}

theorem unary_trades (g : Word → Word) : Trades id E F 1 1 (some 0) (unary g) f :=
  .relay .top1 fun _ _ _ _ => .setTop

theorem binary_trades (g : Word → Word → Word) : Trades id E F 2 1 (some 0) (binary g) f :=
  .relay .top2 fun _ _ _ _ => .setTop

theorem ternary_trades (g : Word → Word → Word → Word) :
    Trades id E F 3 1 (some 0) (ternary g) f :=
  .relay .top3 fun _ _ _ _ => .setTop

theorem binarySince_trades (fork : Hardfork) (g : Word → Word → Word) :
    Trades id E F 2 1 (some 0) (binarySince fork g) f :=
  .first .since fun _ _ _ _ => binary_trades g

theorem exp_trades : Trades id E F 2 1 (some 0) exp f := by
  apply Trades.relay .top2
  rintro ⟨base, exponent⟩ f₁ - -
  apply Trades.first .rules
  intro r f₂ _ _
  exact .first .pay fun _ _ _ _ => .setTop

theorem keccak_trades (hF : 2 ≤ f.stack.items.length → F) :
    Trades id E F 2 1 (some 0) keccak f := by
  apply Trades.relay .top2
  rintro ⟨offset, len⟩ f₁ - h₁
  apply Trades.first .amount
  intro len f₂ _ _
  apply Trades.first .pay
  intro _ f₃ _ _
  split
  · exact .setTop
  · exact .first (.copyOut (hF h₁.enough)) fun _ _ _ _ => .setTop

theorem discard_trades : Trades id E F 1 0 (some 0) discard f :=
  .relay .pop1 fun _ _ _ _ => .pure

theorem pushZero_trades : Trades id E F 0 1 (some 0) pushZero f :=
  .first .having fun _ _ _ _ => .push

theorem observe_trades (g : Frame → Word) : Trades id E F 0 1 (some 0) (observe g) f :=
  .first .get fun _ _ _ _ => .push

theorem observeHaving_trades (e : Eip) (w : Word) :
    Trades id E F 0 1 (some 0) (observeHaving e w) f :=
  .first .having fun _ _ _ _ => .push

theorem difficulty_trades (block : Block) : Trades id E F 0 1 (some 0) (difficulty block) f := by
  simp only [difficulty]
  split
  · exact .first .rules fun _ _ _ _ => .push
  · exact .push

theorem returnDataSize_trades : Trades id E F 0 1 (some 0) returnDataSize f :=
  .first .since fun _ _ _ _ => observe_trades _

theorem position_trades (hF : F) : Trades id E F 0 1 (some 0) position f := by
  apply Trades.first .get
  intro g f₁ _ _
  exact .first (.checked hF) fun _ _ _ _ => .push

theorem callDataLoad_trades : Trades id E F 1 1 (some 0) callDataLoad f := by
  apply Trades.relay .top1
  intro offset f₁ _ _
  exact .first .get fun _ _ _ _ => .setTop

theorem memLoad_trades (hF : 1 ≤ f.stack.items.length → F) :
    Trades id E F 1 1 (some 0) memLoad f := by
  apply Trades.relay .top1
  intro offset f₁ _ h₁
  apply Trades.first .amount
  intro offset f₂ _ _
  apply Trades.first .grow
  intro _ f₃ _ _
  apply Trades.first .get
  intro g f₄ _ _
  exact .first (.checked (hF h₁.enough)) fun _ _ _ _ => .setTop

theorem memStore_trades (hF : 2 ≤ f.stack.items.length → F) :
    Trades id E F 2 0 (some 0) memStore f := by
  apply Trades.relay .pop2
  rintro ⟨offset, value⟩ f₁ - h₁
  apply Trades.first .amount
  intro offset f₂ _ _
  exact .first .grow fun _ _ _ _ => .onMemory (hF h₁.enough)

theorem memStoreByte_trades (hF : 2 ≤ f.stack.items.length → F) :
    Trades id E F 2 0 (some 0) memStoreByte f := by
  apply Trades.relay .pop2
  rintro ⟨offset, value⟩ f₁ - h₁
  apply Trades.first .amount
  intro offset f₂ _ _
  exact .first .grow fun _ _ _ _ => .onMemory (hF h₁.enough)

theorem copyData_trades (price : Nat → Option Nat) (memOffset dataOffset len : Word) (data : Bytes)
    (hF : F) : Trades id E F 0 0 (some 0) (copyData price memOffset dataOffset len data) f := by
  apply Trades.first .amount
  intro len f₁ _ _
  apply Trades.first .pay
  intro _ f₂ _ _
  split
  · apply Trades.first .amount
    intro offset f₃ _ _
    exact .first .grow fun _ _ _ _ => .onMemory hF
  · exact .pure

theorem copyLow_trades (data : Frame → Bytes) (hF : 3 ≤ f.stack.items.length → F) :
    Trades id E F 3 0 (some 0) (copyLow data) f := by
  apply Trades.relay .pop3
  rintro ⟨memOffset, dataOffset, len⟩ f₁ - h₁
  exact .first .get fun _ _ _ _ => copyData_trades _ _ _ _ _ (hF h₁.enough)

theorem returnDataCopy_trades (hF : 3 ≤ f.stack.items.length → F) :
    Trades id E F 3 0 (some 0) returnDataCopy f := by
  apply Trades.first .since
  intro _ f₁ _ h₀
  apply Trades.relay .pop3
  rintro ⟨memOffset, dataOffset, len⟩ f₂ - h₁
  have hfault : F := hF (h₀.join h₁).enough
  apply Trades.first .amount
  intro len f₃ _ _
  apply Trades.first .pay
  intro _ f₄ _ _
  apply Trades.first .get
  intro g f₅ _ _
  apply Trades.first (.ensure rfl)
  intro _ f₆ _ _
  split
  · apply Trades.first .amount
    intro offset f₇ _ _
    exact .first .grow fun _ _ _ _ => .onMemory hfault
  · exact .pure

theorem pushBytes_trades (n : Nat) (hF : F) : Trades id E F 0 1 (some n) (pushBytes n) f := by
  apply Trades.first .get
  rintro _ _ ⟨⟩ -
  apply Trades.first (.checked hF)
  intro data f₁ _ h₁
  apply Trades.relay .pushBytes
  intro _ f₂ _ h₂
  have hpc : f₂.pc = f.pc := (h₁.join h₂).pc 0 rfl
  refine .lift h₂.placed (.move rfl ?_)
  rintro _ ⟨⟩
  rw [hpc]

theorem jumpTo_trades (target : Word) : Trades id E F 0 0 none (jumpTo target) f := by
  simp only [jumpTo]
  split
  · apply Trades.first .get
    intro g f₁ _ _
    apply Trades.first (.ensure rfl)
    intro _ f₂ _ _
    refine .move rfl fun _ hk => ?_
    cases hk
  · exact .fails rfl

theorem jump_trades : Trades id E F 1 0 none jump f :=
  .relay .pop1 fun _ _ _ _ => jumpTo_trades _

theorem jumpIf_trades : Trades id E F 2 0 none jumpIf f := by
  apply Trades.relay .pop2
  rintro ⟨target, condition⟩ f₁ - -
  dsimp only
  split
  · exact jumpTo_trades target
  · exact Trades.pure.anywhere

theorem finish_trades (s : Status) (hE : 2 ≤ f.stack.items.length → E) (hs : s ≠ .running) :
    Trades id E F 2 0 (some 0) (finish s) f := by
  apply Trades.relay .pop2
  rintro ⟨offset, len⟩ f₁ - h₁
  have henough : E := hE h₁.enough
  apply Trades.first .amount
  intro len f₂ _ _
  split
  · exact .first (.modify rfl rfl) fun _ _ _ _ => .halt henough hs
  · apply Trades.first .amount
    intro start f₃ _ _
    apply Trades.first .grow
    intro _ f₄ _ _
    exact .first (.modify rfl rfl) fun _ _ _ _ => .halt henough hs

theorem revert_trades (hE : 2 ≤ f.stack.items.length → E) :
    Trades id E F 2 0 (some 0) revert f := by
  apply Trades.first .since
  intro _ f₁ _ h₀
  have hlength : f₁.stack.items.length = f.stack.items.length := h₀.length_eq
  exact finish_trades _ (fun henough => hE (hlength ▸ henough)) Status.noConfusion

end Local

section Exec

variable {h : Host σ} {s : Machine σ}

theorem refund_trades (amount : Int) (hF : F) :
    Trades Machine.frame E F 0 0 (some 0) (Instruction.refund h amount) s :=
  .nested hF

theorem inspect_trades {α : Type} (query : Address → Query σ (Loaded α))
    (price : Rules → Bool → Nat) (result : α → Word) :
    Trades Machine.frame E F 1 1 (some 0) (inspect query price result) s := by
  apply Trades.relay (.here .top1)
  intro w s₁ _ _
  apply Trades.first .ask
  intro found s₂ _ _
  apply Trades.first (.here .rules)
  intro r s₃ _ _
  apply Trades.first (.here .charge)
  intro _ s₄ _ _
  exact .here .setTop

theorem selfBalance_trades : Trades Machine.frame E F 0 1 (some 0) (selfBalance h) s := by
  apply Trades.first (.here .having)
  intro _ s₁ _ _
  apply Trades.first (.here .get)
  intro f s₂ _ _
  apply Trades.first .ask
  intro found s₃ _ _
  exact .here .push

theorem blockHash_trades : Trades Machine.frame E F 1 1 (some 0) (blockHash h) s := by
  apply Trades.relay (.here .top1)
  intro w s₁ _ _
  dsimp only
  split
  · apply Trades.first .ask
    intro found s₂ _ _
    exact .here .setTop
  · exact .here .setTop

theorem codeHash_trades : Trades Machine.frame E F 1 1 (some 0) (codeHash h) s :=
  .first (.here .since) fun _ _ _ _ => inspect_trades _ _ _

theorem extCodeCopy_trades (hF : 4 ≤ s.frame.stack.items.length → F) :
    Trades Machine.frame E F 4 0 (some 0) (extCodeCopy h) s := by
  apply Trades.relay (.here .pop4)
  rintro ⟨account, memOffset, codeOffset, len⟩ s₁ - h₁
  apply Trades.first .ask
  intro found s₂ _ _
  apply Trades.first (.here .rules)
  intro r s₃ _ _
  exact .here (copyData_trades _ _ _ _ _ (hF h₁.enough))

theorem slotLoad_trades : Trades Machine.frame E F 1 1 (some 0) (slotLoad h) s := by
  apply Trades.relay (.here .top1)
  intro key s₁ _ _
  apply Trades.first (.here .get)
  intro f s₂ _ _
  apply Trades.first .ask
  intro found s₃ _ _
  apply Trades.first (.here .rules)
  intro r s₄ _ _
  apply Trades.first (.here .charge)
  intro _ s₅ _ _
  exact .here .setTop

theorem sentry_trades {f : Frame} : Trades id E F 0 0 (some 0) sentry f :=
  .first .get fun _ _ _ _ => .ensure rfl

theorem slotStore_trades (hF : 2 ≤ s.frame.stack.items.length → F) :
    Trades Machine.frame E F 2 0 (some 0) (slotStore h) s := by
  apply Trades.first (.here .mayWrite)
  intro _ s₁ _ h₀
  apply Trades.relay (.here .pop2)
  rintro ⟨key, value⟩ s₂ - h₁
  have hfault : F := hF (h₀.join h₁).enough
  apply Trades.first (.here sentry_trades)
  intro _ s₃ _ _
  apply Trades.first (.here .get)
  intro f s₄ _ _
  apply Trades.first .ask
  intro change s₅ _ _
  apply Trades.first (.here .rules)
  intro r s₆ _ _
  apply Trades.first (.here .charge)
  intro _ s₇ _ _
  exact refund_trades _ hfault

theorem logTopics_trades (topics : Nat) (data : Bytes) :
    Trades Machine.frame E F topics 0 (some 0) (logTopics h topics data) s := by
  apply Trades.relay (.here .pop)
  intro words s₁ _ _
  exact .first (.here .get) fun _ _ _ _ => .tell

/-- The topics are taken off the stack only after the data is read, for which there need not be memory
unless it keeps to the meter. -/
theorem log_trades (topics : Nat) (hloose : ¬s.frame.Solid → F) :
    Trades Machine.frame E F (topics + 2) 0 (some 0) (log h topics) s := by
  apply Trades.first (.here .mayWrite)
  intro _ s₁ hs₁ _
  apply Trades.bind (.here .pop2)
  rintro ⟨offset, len⟩ s₂ hs₂ -
  apply Trades.first (.here .amount)
  intro len s₃ hs₃ _
  apply Trades.first (.here .pay)
  intro _ s₄ hs₄ _
  split
  · exact logTopics_trades _ _
  · rename_i hlen
    have hreads : Trades id E F 0 0 (some 0) (copyOut offset len) s₄.frame := by
      by_cases hsolid : s.frame.Solid
      · have h₁ := solid_of_pays .mayWrite hs₁ hsolid
        have h₂ := solid_of_pays .pop2 hs₂ h₁
        have h₃ := solid_of_pays .amount hs₃ h₂
        have h₄ := solid_of_pays (n := 0) (.pay fun _ _ => Nat.zero_le _) hs₄ h₃
        exact .answered (.copyOut trivial) (.copyOut hlen) h₄
      · exact .copyOut (hloose hsolid)
    exact .first (.here hreads) fun data _ _ _ => logTopics_trades _ data

theorem endDestruct_trades (cost : Nat) (hE : E) :
    Trades Machine.frame E F 0 0 (some 0) (endDestruct cost) s :=
  .first (.here .charge) fun _ _ _ _ => .here (.halt hE Status.noConfusion)

theorem selfDestruct_trades (hE : 1 ≤ s.frame.stack.items.length → E)
    (hF : 1 ≤ s.frame.stack.items.length → F) :
    Trades Machine.frame E F 1 0 (some 0) (selfDestruct h) s := by
  apply Trades.first (.here .mayWrite)
  intro _ s₁ _ h₀
  apply Trades.relay (.here .pop1)
  intro beneficiary s₂ _ h₁
  have henough : E := hE (h₀.join h₁).enough
  have hfault : F := hF (h₀.join h₁).enough
  apply Trades.first (.here .get)
  intro f s₃ _ _
  apply Trades.first .ask
  intro found s₄ _ _
  apply Trades.first (.here .rules)
  intro r s₅ _ _
  split
  · apply Trades.first (refund_trades _ hfault)
    intro _ s₆ _ _
    exact endDestruct_trades _ henough
  · exact endDestruct_trades _ henough

end Exec

section Requests

variable {h : Host σ} {s : Machine σ} {f : Frame}

theorem initCode_trades (offset : Word) (len : Nat) (hF : F) :
    Trades id E F 0 0 (some 0) (initCode offset len) f := by
  simp only [initCode]
  split
  · exact .pure
  apply Trades.first .rules
  intro r f₁ _ _
  split
  · apply Trades.first (.ensure rfl)
    intro _ f₂ _ _
    exact .first .pay fun _ _ _ _ => .copyOut hF
  · exact .copyOut hF

theorem askCreate_trades (salt : Option Word) (value : Word) (code : Bytes) :
    Trades id E F 0 0 (some 0) (askCreate salt value code) f := by
  apply Trades.first .get
  intro g f₁ _ _
  exact .first .charge fun _ _ _ _ => .pure

theorem create_trades (salted : Bool)
    (hF : (if salted then 4 else 3) ≤ f.stack.items.length → F) :
    Trades id E F (if salted then 4 else 3) 0 (some 0) (create salted) f := by
  apply Trades.first .mayWrite
  intro _ f₁ _ h₀
  cases salted with
  | false =>
    simp only [Bool.false_eq_true, if_false, pure_bind] at hF ⊢
    apply Trades.relay .pop3
    rintro ⟨value, offset, len⟩ f₂ - h₁
    apply Trades.first .amount
    intro len f₃ _ _
    apply Trades.first (initCode_trades _ _ (hF (h₀.join h₁).enough))
    intro code f₄ _ _
    exact .first .charge fun _ _ _ _ => askCreate_trades _ _ _
  | true =>
    simp only [if_true] at hF ⊢
    apply Trades.first .since
    intro _ f₂ _ h₁
    apply Trades.bind .pop3
    rintro ⟨value, offset, len⟩ f₃ - h₂
    apply Trades.relay (.map .pop1)
    intro salt f₄ _ h₃
    have henough := ((h₀.join h₁).join (h₂.join h₃)).enough
    apply Trades.first .amount
    intro len f₅ _ _
    apply Trades.first (initCode_trades _ _ (hF henough))
    intro code f₆ _ _
    exact .first .pay fun _ _ _ _ => askCreate_trades _ _ _

theorem reserve_trades (offset len : Word) : Trades id E F 0 0 (some 0) (reserve offset len) f := by
  apply Trades.first .amount
  intro len f₁ _ _
  split
  · exact .pure
  · apply Trades.first .amount
    intro offset f₂ _ _
    exact .first .grow fun _ _ _ _ => .pure

theorem exchange_trades (hF : 4 ≤ f.stack.items.length → F) :
    Trades id E F 4 0 (some 0) exchange f := by
  apply Trades.relay .pop4
  rintro ⟨sourceOffset, sourceLen, targetOffset, targetLen⟩ f₁ - h₁
  apply Trades.first (reserve_trades _ _)
  intro source f₂ _ _
  apply Trades.first (.slice (hF h₁.enough))
  intro input f₃ _ _
  exact .first (reserve_trades _ _) fun _ _ _ _ => .pure

theorem forward_trades (found : Existence) (withValue : Bool) (requested : Word) :
    Trades id E F 0 0 (some 0) (forward found withValue requested) f := by
  apply Trades.first .rules
  intro r f₁ _ _
  apply Trades.first .charge
  intro _ f₂ _ _
  apply Trades.first .get
  intro g f₃ _ _
  exact .first .charge fun _ _ _ _ => .pure

theorem callWith_trades (codeAddress : Address) (requested : Word) (withValue mayCreate : Bool)
    (request : Bytes → Nat → CallRequest) (hF : 4 ≤ s.frame.stack.items.length → F) :
    Trades Machine.frame E F 4 0 (some 0)
      (callWith h codeAddress requested withValue mayCreate request) s := by
  apply Trades.relay (.here (exchange_trades hF))
  rintro ⟨input, into⟩ s₁ - -
  apply Trades.first .ask
  intro found s₂ _ _
  exact .first (.here (forward_trades _ _ _)) fun _ _ _ _ => .pure

theorem call_trades (hF : 7 ≤ s.frame.stack.items.length → F) :
    Trades Machine.frame E F 7 0 (some 0) (call h) s := by
  apply Trades.bind (.here .pop3)
  rintro ⟨requested, callee, value⟩ s₁ - h₁
  apply Trades.first (.here .get)
  intro self s₂ _ h₂
  apply Trades.first (.here (.ensure rfl))
  intro _ s₃ _ h₃
  refine callWith_trades _ _ _ _ _ fun henough => hF ?_
  have hlength := (h₁.join (h₂.join h₃)).length
  omega

theorem callCode_trades (hF : 7 ≤ s.frame.stack.items.length → F) :
    Trades Machine.frame E F 7 0 (some 0) (callCode h) s := by
  apply Trades.bind (.here .pop3)
  rintro ⟨requested, callee, value⟩ s₁ - h₁
  apply Trades.first (.here .get)
  intro self s₂ _ h₂
  refine callWith_trades _ _ _ _ _ fun henough => hF ?_
  have hlength := (h₁.join h₂).length
  omega

theorem delegateCall_trades (hF : 6 ≤ s.frame.stack.items.length → F) :
    Trades Machine.frame E F 6 0 (some 0) (delegateCall h) s := by
  apply Trades.first (.here .since)
  intro _ s₁ _ h₁
  apply Trades.bind (.here .pop2)
  rintro ⟨requested, callee⟩ s₂ - h₂
  apply Trades.first (.here .get)
  intro self s₃ _ h₃
  refine callWith_trades _ _ _ _ _ fun henough => hF ?_
  have hlength := (h₁.join (h₂.join h₃)).length
  omega

theorem staticCall_trades (hF : 6 ≤ s.frame.stack.items.length → F) :
    Trades Machine.frame E F 6 0 (some 0) (staticCall h) s := by
  apply Trades.first (.here .since)
  intro _ s₁ _ h₁
  apply Trades.bind (.here .pop2)
  rintro ⟨requested, callee⟩ s₂ - h₂
  apply Trades.first (.here .get)
  intro self s₃ _ h₃
  refine callWith_trades _ _ _ _ _ fun henough => hF ?_
  have hlength := (h₁.join (h₂.join h₃)).length
  omega

end Requests

section Replies

variable {h : Host σ} {s : Machine σ} {f : Frame}

theorem giveBack_trades (gas : Gas) (hF : F) : Trades id E F 0 0 (some 0) (giveBack gas) f := by
  simp only [Trades, Ends, Local.giveBack]
  cases f.gas.giveBack gas.remaining with
  | ok gas => exact .of_same rfl rfl
  | error fault => exact hF

theorem takeCallReply_trades (reply : CallReply) (into : Span) (hF : F) :
    Trades id E F 0 1 (some 0) (takeCallReply reply into) f := by
  apply Trades.first (.modify rfl rfl)
  intro _ f₁ _ _
  split
  · apply Trades.first (giveBack_trades _ hF)
    intro _ f₂ _ _
    exact .first (.onMemory hF) fun _ _ _ _ => .push
  split
  · exact .fails rfl
  · exact .push

theorem takeCreateReply_trades (reply : CreateReply) (hF : F) :
    Trades id E F 0 1 (some 0) (takeCreateReply reply) f := by
  apply Trades.first (.modify rfl rfl)
  intro _ f₁ _ _
  split
  · apply Trades.first (giveBack_trades _ hF)
    intro _ f₂ _ _
    split
    · exact .push
    · exact .push
  split
  · exact .first (giveBack_trades _ hF) fun _ _ _ _ => .push
  split
  · exact .fails rfl
  · exact .push

/-- Whatever the host replies, one word is put on the stack. -/
theorem serve_trades (r : Request) (hF : F) :
    Trades Machine.frame E F 0 1 (some 0) (serve h r) s := by
  cases r with
  | call r into => exact .first (.nested hF) fun _ _ _ _ => .here (takeCallReply_trades _ _ hF)
  | create r => exact .first (.nested hF) fun _ _ _ _ => .here (takeCreateReply_trades _ hF)

theorem nest_trades {m : Nat} {request : Exec σ Request}
    (hr : Trades Machine.frame E F m 0 (some 0) request s)
    (hF : m ≤ s.frame.stack.items.length → F) :
    Trades Machine.frame E F m 1 (some 0) (nest h request) s :=
  .relay hr fun r _ _ ht => serve_trades r (hF ht.enough)

end Replies

end Instruction

namespace Opcode

variable {h : Host σ} {s : Machine σ}

def passes : Opcode → Option Nat
  | jump | jumpIf => none
  | op => some op.info.immediate

/-- An instruction takes the operands of the table, and puts the results there. -/
theorem run_trades (op : Opcode) (hE : op.info.inputs ≤ s.frame.stack.items.length → E)
    (hF : op.info.inputs ≤ s.frame.stack.items.length → F) (hloose : ¬s.frame.Solid → F) :
    Trades Machine.frame E F op.info.inputs op.info.outputs op.passes (op.run h) s := by
  cases op with
  | stop => exact .here (.halt (hE (Nat.zero_le _)) Status.noConfusion)
  | invalid => exact .here (.fails rfl)
  | add | mul | sub | div | signedDiv | mod | signedMod | signExtend | lt | gt | signedLt
  | signedGt | eq | bitAnd | bitOr | bitXor | byteAt => exact .here (binary_trades _)
  | addMod | mulMod => exact .here (ternary_trades _)
  | isZero | bitNot => exact .here (unary_trades _)
  | shiftLeft | shiftRight | signedShiftRight => exact .here (binarySince_trades _ _)
  | exp => exact .here exp_trades
  | keccak => exact .here (keccak_trades hF)
  | address | caller | callValue | callDataSize | codeSize | memSize | gas =>
    exact .here (observe_trades _)
  | origin | gasPrice | coinbase | timestamp | number | gasLimit => exact .here .push
  | difficulty => exact .here (difficulty_trades _)
  | chainId | baseFee => exact .here (observeHaving_trades _ _)
  | callDataLoad => exact .here callDataLoad_trades
  | callDataCopy | codeCopy => exact .here (copyLow_trades _ hF)
  | returnDataSize => exact .here returnDataSize_trades
  | returnDataCopy => exact .here (returnDataCopy_trades hF)
  | balance => exact inspect_trades h.balance Price.balance id
  | extCodeSize => exact inspect_trades h.code Price.codeSize fun code => .ofNat code.size
  | extCodeCopy => exact extCodeCopy_trades hF
  | extCodeHash => exact codeHash_trades
  | blockHash => exact blockHash_trades
  | selfBalance => exact selfBalance_trades
  | pop => exact .here discard_trades
  | memLoad => exact .here (memLoad_trades hF)
  | memStore => exact .here (memStore_trades hF)
  | memStoreByte => exact .here (memStoreByte_trades hF)
  | slotLoad => exact slotLoad_trades
  | slotStore => exact slotStore_trades hF
  | jump => exact .here jump_trades
  | jumpIf => exact .here jumpIf_trades
  | pc => exact .here (position_trades (hF (Nat.zero_le _)))
  | jumpDest => exact .pure
  | pushZero => exact .here pushZero_trades
  | push n => exact .here (pushBytes_trades _ (hF (Nat.zero_le _)))
  | dup n => exact .here .dup
  | swap n => exact .here .swap
  | log n => exact log_trades _ hloose
  | ret => exact .here (finish_trades _ hE Status.noConfusion)
  | revert => exact .here (revert_trades hE)
  | selfDestruct => exact selfDestruct_trades hE hF
  | create => exact nest_trades (.here (create_trades false hF)) hF
  | call => exact nest_trades (call_trades hF) hF
  | callCode => exact nest_trades (callCode_trades hF) hF
  | delegateCall => exact nest_trades (delegateCall_trades hF) hF
  | create2 => exact nest_trades (.here (create_trades true hF)) hF
  | staticCall => exact nest_trades (staticCall_trades hF) hF

end Opcode

end MeteredVM
