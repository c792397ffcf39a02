import Mathlib.Logic.Relation
import MeteredVM.Proofs.Frame.Instruction
import MeteredVM.Proofs.Outcome
import MeteredVM.Instruction.State

namespace MeteredVM

open Relation

variable {σ α β : Type}

/-- One use that a frame makes of its host. Those that change the state need a frame that is not
static. -/
inductive Host.Act (h : Host σ) (i : Invocation) (w : σ) : σ → Prop
  | existence (a : Address) : Act h i w (leftBy (h.existence a) w)
  | blockHash (number : Nat) : Act h i w (leftBy (h.blockHash number) w)
  | balance (a : Address) : Act h i w (leftBy (h.balance a) w)
  | code (a : Address) : Act h i w (leftBy (h.code a) w)
  | codeHash (a : Address) : Act h i w (leftBy (h.codeHash a) w)
  | readSlot (key : Word) : Act h i w (leftBy (h.readSlot i.address key) w)
  | writeSlot (key new : Word) (writable : i.isStatic = false) :
      Act h i w (leftBy (h.writeSlot i.address key new) w)
  | selfDestruct (target : Address) (writable : i.isStatic = false) :
      Act h i w (leftBy (h.selfDestruct i.address target) w)
  | refund {amount : Int} {w' : σ} (writable : i.isStatic = false)
      (refunded : h.refund amount w = .ok w') : Act h i w w'
  | log (l : Log) (writable : i.isStatic = false) : Act h i w (h.log l w)

abbrev Host.Acts (h : Host σ) (i : Invocation) : σ → σ → Prop := ReflTransGen (h.Act i)

def Host.RefundFails (h : Host σ) (i : Invocation) (e : Fault) : Prop :=
  i.isStatic = false ∧ ∃ amount w, h.refund amount w = .error e

structure Machine.Follows (h : Host σ) (P : Prop) (n : Nat) (s t : Machine σ) : Prop where
  frame : s.frame.Follows P n t.frame
  world : h.Acts s.frame.invocation s.world t.world

namespace Machine

variable {h : Host σ} {P : Prop} {m n : Nat}

theorem Follows.refl {s : Machine σ} (hs : P → s.frame.Solid) : s.Follows h P 0 s :=
  ⟨.refl hs, .refl⟩

theorem Follows.trans {s t u : Machine σ} (hst : s.Follows h P m t) (htu : t.Follows h P n u) :
    s.Follows h P (m + n) u := by
  refine ⟨hst.frame.trans htu.frame, hst.world.trans ?_⟩
  have hworld := htu.world
  rwa [hst.frame.invocation] at hworld

theorem Follows.mono {s t : Machine σ} (hst : s.Follows h P m t) (hn : n ≤ m) :
    s.Follows h P n t :=
  ⟨hst.frame.mono hn, hst.world⟩

theorem Follows.of_act {s : Machine σ} {w : σ} (hs : P → s.frame.Solid)
    (ha : h.Act s.frame.invocation s.world w) : s.Follows h P 0 { s with world := w } :=
  ⟨.refl hs, .single ha⟩

end Machine

namespace Exec

theorem here_rule {x : Local α} {s : Machine σ} {E : Ending → Machine σ → Prop}
    {Q : α → Machine σ → Prop}
    (h : Ends x s.frame (fun e f => E e { s with frame := f }) fun a f => Q a { s with frame := f }) :
    Ends (here x) s E Q := by
  simp only [Ends, here] at h ⊢
  cases hrun : x s.frame with
  | ok a f =>
    rw [hrun] at h
    exact h
  | error e f =>
    rw [hrun] at h
    exact h

/-- The step costs at least `n` gas if it goes on, and then its result satisfies `Q`. If `P` holds,
which is to say that the frame is solid, only the refund counter can leave it without an answer. -/
def Pays (h : Host σ) (P : Prop) (n : Nat) (x : Exec σ α) (s : Machine σ)
    (Q : α → Machine σ → Prop) : Prop :=
  (P → s.frame.Solid) →
    match x s with
    | .ok a t => s.Follows h P n t ∧ Q a t
    | .error (.status e) t => e.endsFrame = true ∧ s.Follows h P 0 t
    | .error (.fault e) _ => e = .outOfRange ∧ ¬P ∨ h.RefundFails s.frame.invocation e

section Rules

variable {h : Host σ} {P : Prop} {m n : Nat} {x : Exec σ α} {s : Machine σ}
  {Q R : α → Machine σ → Prop}

theorem Pays.imp (hx : Pays h P n x s Q) (hm : m ≤ n) (hQ : ∀ a t, Q a t → R a t) :
    Pays h P m x s R := by
  intro hs
  replace hx := hx hs
  cases he : x s with
  | ok a t =>
    simp only [he] at hx ⊢
    exact ⟨hx.1.mono hm, hQ a t hx.2⟩
  | error e t =>
    rw [he] at hx
    cases e with
    | status e => exact hx
    | fault e => exact hx

theorem Pays.bind {k : α → Exec σ β} {R : β → Machine σ → Prop} (hx : Pays h P m x s Q)
    (hk : ∀ a t, s.Follows h P m t → Q a t → Pays h P n (k a) t R) :
    Pays h P (m + n) (x >>= k) s R := by
  intro hs
  replace hx := hx hs
  simp only [Bind.bind, EStateM.bind]
  cases he : x s with
  | error e t =>
    rw [he] at hx
    cases e with
    | status e => exact hx
    | fault e => exact hx
  | ok a t =>
    simp only [he] at hx ⊢
    obtain ⟨hst, ha⟩ := hx
    have hka := hk a t hst ha fun hP => (hst.frame.solid hP).1
    cases he' : k a t with
    | ok b u =>
      simp only [he'] at hka ⊢
      exact ⟨hst.trans hka.1, hka.2⟩
    | error e u =>
      cases e with
      | status e =>
        simp only [he'] at hka ⊢
        exact ⟨hka.1, (hst.trans hka.2).mono (Nat.zero_le _)⟩
      | fault e =>
        simp only [he'] at hka ⊢
        rwa [hst.frame.invocation] at hka

theorem Pays.first {k : α → Exec σ β} {R : β → Machine σ → Prop} (hx : Pays h P 0 x s Q)
    (hk : ∀ a t, s.Follows h P 0 t → Q a t → Pays h P n (k a) t R) :
    Pays h P n (x >>= k) s R := by
  have hxk := hx.bind hk
  rwa [Nat.zero_add] at hxk

theorem Pays.then {k : α → Exec σ β} {R : β → Machine σ → Prop} (hx : Pays h P n x s Q)
    (hk : ∀ a t, s.Follows h P n t → Q a t → Pays h P 0 (k a) t R) :
    Pays h P n (x >>= k) s R :=
  hx.bind hk

theorem Pays.pure {a : α} (ha : Q a s) : Pays h P 0 (pure a : Exec σ α) s Q :=
  fun hs => ⟨.refl hs, ha⟩

theorem Pays.here {x : Local α} {Q : α → Frame → Prop} (hx : Local.Pays P n x s.frame Q) :
    Pays h P n (here x) s fun a t => Q a t.frame ∧ t.world = s.world := by
  intro hs
  unfold Local.Pays at hx
  replace hx := hx hs
  simp only [Exec.here]
  cases he : x s.frame with
  | ok a g =>
    simp only [he] at hx ⊢
    exact ⟨⟨hx.1, .refl⟩, hx.2.2, trivial⟩
  | error e g =>
    rw [he] at hx
    cases e with
    | status e => exact ⟨hx.1.endsFrame, hx.2, .refl⟩
    | fault e => exact .inl hx

theorem Pays.spend {cost : Nat} (hn : n ≤ cost) :
    Pays h P n (Exec.here (Local.charge cost)) s fun _ _ => True :=
  (Pays.here .charge).imp hn fun _ _ _ => trivial

theorem Pays.alone {x : Local Unit} (hx : Local.Pays P n x s.frame fun _ _ => True) :
    Pays h P n (Exec.here x) s fun _ _ => True :=
  (Pays.here hx).imp (Nat.le_refl _) fun _ _ _ => trivial

theorem Pays.halt {e : Status} (he : e.endsFrame = true) :
    Pays h P n (Exec.here (Local.halt e) : Exec σ α) s Q :=
  fun hs => ⟨he, .refl hs⟩

theorem Pays.ask {q : Query σ α} (hq : h.Act s.frame.invocation s.world (leftBy q s.world)) :
    Pays h P 0 (ask q) s fun _ t => t.frame = s.frame := by
  intro hs
  simp only [Exec.ask]
  cases he : q s.world with
  | ok a w =>
    rw [leftBy_eq_of_ok he] at hq
    exact ⟨.of_act hs hq, rfl⟩
  | error e w =>
    rw [leftBy_eq_of_error he] at hq
    exact ⟨rfl, .of_act hs hq⟩

theorem Pays.log {l : Log} (hw : s.frame.invocation.isStatic = false) :
    Pays h P 0 (tell (h.log l)) s fun _ _ => True :=
  fun hs => ⟨.of_act hs (.log l hw), trivial⟩

theorem Pays.refund {amount : Int} (hw : s.frame.invocation.isStatic = false) :
    Pays h P 0 (Instruction.refund h amount) s fun _ t => t.frame = s.frame := by
  intro hs
  simp only [Instruction.refund, nested]
  cases he : h.refund amount s.world with
  | ok w => exact ⟨.of_act hs (.refund hw he), rfl⟩
  | error e => exact .inr ⟨hw, amount, s.world, he⟩

end Rules

attribute [irreducible] Pays

end Exec

namespace Instruction

open Exec Local

variable {h : Host σ} {P : Prop} {s : Machine σ}

theorem inspect_pays {query : Address → Query σ (Loaded α)} {price : Rules → Bool → Nat}
    {result : α → Word} (hprice : ∀ r cold, 1 ≤ price r cold)
    (hquery : ∀ i w a, h.Act i w (leftBy (query a) w)) :
    Exec.Pays h P 1 (inspect query price result) s fun _ _ => True := by
  apply Exec.Pays.first (.here .top1)
  intro w s₁ _ _
  apply Exec.Pays.first (.ask (hquery _ _ _))
  intro found s₂ _ _
  apply Exec.Pays.first (.here .rules)
  intro r s₃ _ _
  apply Exec.Pays.then (.spend (hprice _ _))
  intro _ s₄ _ _
  exact .alone .setTop

theorem balance_pays :
    Exec.Pays h P 1 (inspect h.balance Price.balance id) s fun _ _ => True := by
  refine inspect_pays (fun r cold => ?_) fun i w a => .balance a
  have hle := Price.le_balance r cold
  omega

theorem codeSize_pays :
    Exec.Pays h P 1 (inspect h.code Price.codeSize fun code => .ofNat code.size) s
      fun _ _ => True := by
  refine inspect_pays (fun r cold => ?_) fun i w a => .code a
  have hle := Price.le_codeSize r cold
  omega

theorem selfBalance_pays : Exec.Pays h P 0 (selfBalance h) s fun _ _ => True := by
  apply Exec.Pays.first (.here .having)
  intro _ s₁ _ _
  apply Exec.Pays.first (.here .get)
  intro f s₂ _ _
  apply Exec.Pays.first (.ask (.balance _))
  intro found s₃ _ _
  exact .alone .push

theorem blockHash_pays : Exec.Pays h P 0 (blockHash h) s fun _ _ => True := by
  apply Exec.Pays.first (.here .top1)
  intro w s₁ _ _
  dsimp only
  split
  · apply Exec.Pays.first (.ask (.blockHash _))
    intro found s₂ _ _
    exact .alone .setTop
  · exact .alone .setTop

theorem codeHash_pays : Exec.Pays h P 1 (codeHash h) s fun _ _ => True := by
  apply Exec.Pays.first (.here .since)
  intro _ s₁ _ _
  refine inspect_pays (fun r cold => ?_) fun i w a => .codeHash a
  have hle := Price.le_codeHash r cold
  omega

theorem extCodeCopy_pays : Exec.Pays h P 1 (extCodeCopy h) s fun _ _ => True := by
  apply Exec.Pays.first (.here .pop4)
  rintro ⟨account, memOffset, codeOffset, len⟩ s₁ - -
  apply Exec.Pays.first (.ask (.code _))
  intro found s₂ _ _
  apply Exec.Pays.first (.here .rules)
  intro r s₃ _ _
  refine Exec.Pays.alone (copyData_pays fun len cost hcost => ?_)
  have hbase := Price.le_codeSize r found.cold
  have hle := Price.le_copy hcost
  omega

theorem slotLoad_pays : Exec.Pays h P 1 (slotLoad h) s fun _ _ => True := by
  apply Exec.Pays.first (.here .top1)
  intro key s₁ _ _
  apply Exec.Pays.first (.here .get)
  rintro _ s₂ - ⟨⟨rfl, hs₂⟩, -⟩
  rw [← hs₂]
  apply Exec.Pays.first (.ask (.readSlot _))
  intro found s₃ _ _
  apply Exec.Pays.first (.here .rules)
  intro r s₄ _ _
  have hle := Price.le_slotRead r found.cold
  apply Exec.Pays.then (.spend (by omega))
  intro _ s₅ _ _
  exact .alone .setTop

theorem sentry_pays {f : Frame} : Local.Pays P 0 sentry f fun _ g => g = f := by
  apply Local.Pays.first .get
  rintro _ g - ⟨rfl, rfl⟩
  exact (Local.Pays.ensure (by rfl)).imp (Nat.le_refl _) fun _ _ hg => hg.2

theorem slotStore_pays : Exec.Pays h P 1 (slotStore h) s fun _ _ => True := by
  apply Exec.Pays.first (.here .mayWrite)
  rintro _ s₁ h₁ ⟨⟨hw, -⟩, -⟩
  apply Exec.Pays.first (.here .pop2)
  rintro ⟨key, value⟩ s₂ h₂ -
  apply Exec.Pays.first (.here sentry_pays)
  rintro _ s₃ h₃ ⟨-, -⟩
  apply Exec.Pays.first (.here .get)
  rintro _ s₄ h₄ ⟨⟨rfl, hs₄⟩, -⟩
  have hi : s₄.frame.invocation = s.frame.invocation :=
    (((h₁.trans h₂).trans h₃).trans h₄).frame.invocation
  rw [← hs₄]
  apply Exec.Pays.first (.ask (.writeSlot _ _ (by rw [hi]; exact hw)))
  intro change s₅ h₅ _
  apply Exec.Pays.first (.here .rules)
  intro r s₆ h₆ _
  have hle := Price.le_slotWrite r change.value change.cold
  apply Exec.Pays.then (.spend (by omega))
  intro _ s₇ h₇ _
  have hi' : s₇.frame.invocation = s₄.frame.invocation := ((h₅.trans h₆).trans h₇).frame.invocation
  refine (Exec.Pays.refund ?_).imp (Nat.le_refl _) fun _ _ _ => trivial
  rw [hi', hi]
  exact hw

/-- The last steps of a log, once its data has been read. -/
def logTopics (h : Host σ) (topics : Nat) (data : Bytes) : Exec σ Unit := do
  let topics ← (Local.pop topics : Local _)
  Exec.tell (h.log ⟨(← (get : Local Frame)).invocation.address, List.ofFn topics, data⟩)

theorem logTopics_pays (topics : Nat) (data : Bytes) (hw : s.frame.invocation.isStatic = false) :
    Exec.Pays h P 0 (logTopics h topics data) s fun _ _ => True := by
  apply Exec.Pays.first (.here .pop)
  intro words s₁ h₁ _
  apply Exec.Pays.first (.here .get)
  intro f s₂ h₂ _
  apply Exec.Pays.log
  rw [h₂.frame.invocation, h₁.frame.invocation]
  exact hw

theorem log_pays (topics : Nat) : Exec.Pays h P 1 (log h topics) s fun _ _ => True := by
  apply Exec.Pays.first (.here .mayWrite)
  rintro _ s₁ h₁ ⟨⟨hw, -⟩, -⟩
  apply Exec.Pays.first (.here .pop2)
  rintro ⟨offset, w⟩ s₂ h₂ -
  apply Exec.Pays.first (.here .amount)
  rintro len s₃ h₃ -
  refine Exec.Pays.then (.here (.pay fun cost hcost => ?_)) ?_
  · have hle := Price.le_log hcost
    omega
  intro _ s₄ h₄ _
  rw [← (((h₁.trans h₂).trans h₃).trans h₄).frame.invocation] at hw
  split
  · exact logTopics_pays _ _ hw
  · rename_i hlen
    apply Exec.Pays.first (.here (.copyOut hlen))
    intro data s₅ h₅ _
    rw [← h₅.frame.invocation] at hw
    exact logTopics_pays _ _ hw

def endDestruct (cost : Nat) : Exec σ Unit := do
  let _ ← (Local.charge cost : Local Unit)
  (Local.halt .selfDestructed : Local Unit)

theorem endDestruct_pays {n : Nat} (cost : Nat) :
    Exec.Pays h P n (endDestruct cost) s fun _ _ => True := by
  apply Exec.Pays.first (.spend (Nat.zero_le _))
  intro _ s₁ _ _
  exact .halt rfl

theorem selfDestruct_pays {n : Nat} : Exec.Pays h P n (selfDestruct h) s fun _ _ => True := by
  apply Exec.Pays.first (.here .mayWrite)
  rintro _ s₁ h₁ ⟨⟨hw, -⟩, -⟩
  apply Exec.Pays.first (.here .pop1)
  intro beneficiary s₂ h₂ _
  apply Exec.Pays.first (.here .get)
  rintro _ s₃ h₃ ⟨⟨rfl, hs₃⟩, -⟩
  have hi : s₃.frame.invocation = s.frame.invocation := ((h₁.trans h₂).trans h₃).frame.invocation
  rw [← hs₃]
  apply Exec.Pays.first (.ask (.selfDestruct _ (by rw [hi]; exact hw)))
  intro found s₄ h₄ _
  apply Exec.Pays.first (.here .rules)
  intro r s₅ h₅ _
  split
  · refine Exec.Pays.first (.refund ?_) ?_
    · rw [(h₄.trans h₅).frame.invocation, hi]
      exact hw
    intro _ s₆ _ _
    exact endDestruct_pays _
  · exact endDestruct_pays _

end Instruction

end MeteredVM
