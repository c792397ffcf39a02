import MeteredVM.Proofs.Gas.Memory
import MeteredVM.Frame.Basic

namespace MeteredVM

namespace Frame

/-- Memory is as long as the meter has been paid for, and the output lies within it. -/
structure Solid (f : Frame) : Prop where
  memory : f.gas.Covers f.memory.size
  output : f.output.length ≠ 0 → f.output.start + f.output.length ≤ f.memory.size

theorem start_solid (i : Invocation) (limit : Nat) : (start i limit).Solid :=
  ⟨Gas.ofLimit_covers limit, fun h => absurd rfl h⟩

/-- A later state of a frame, at least `n` gas later. If `P` holds the frame is still solid. -/
structure Follows (P : Prop) (n : Nat) (f g : Frame) : Prop where
  invocation : g.invocation = f.invocation
  status : g.status = f.status ∨ g.status.endsFrame = true
  limit : g.gas.limit = f.gas.limit
  paid : g.gas.remaining + n ≤ f.gas.remaining
  solid : P → g.Solid ∧ f.memory.size ≤ g.memory.size

variable {P : Prop}

theorem Follows.refl {f : Frame} (hf : P → f.Solid) : f.Follows P 0 f :=
  ⟨rfl, .inl rfl, rfl, Nat.le_refl _, fun hP => ⟨hf hP, Nat.le_refl _⟩⟩

theorem Follows.trans {m n : Nat} {f g k : Frame} (hfg : f.Follows P m g)
    (hgk : g.Follows P n k) : f.Follows P (m + n) k := by
  refine ⟨hgk.invocation.trans hfg.invocation, ?_, hgk.limit.trans hfg.limit, ?_, fun hP => ?_⟩
  · obtain hsame | hended := hgk.status
    · rw [hsame]
      exact hfg.status
    · exact .inr hended
  · have hm := hfg.paid
    have hn := hgk.paid
    omega
  · obtain ⟨-, hsize⟩ := hfg.solid hP
    obtain ⟨hk, hsize'⟩ := hgk.solid hP
    exact ⟨hk, Nat.le_trans hsize hsize'⟩

theorem Follows.mono {m n : Nat} {f g : Frame} (h : f.Follows P m g) (hn : n ≤ m) :
    f.Follows P n g :=
  ⟨h.invocation, h.status, h.limit, Nat.le_trans (Nat.add_le_add_left hn _) h.paid, h.solid⟩

/-- Two states that differ in neither status, gas, memory nor output. -/
theorem Follows.of_same {f g : Frame} (hf : P → f.Solid) (hi : g.invocation = f.invocation)
    (hs : g.status = f.status) (hg : g.gas = f.gas) (hm : g.memory = f.memory) (ho : g.output = f.output) :
    f.Follows P 0 g := by
  refine ⟨hi, .inl hs, by rw [hg], Nat.le_of_eq (by rw [hg, Nat.add_zero]), fun hP => ?_⟩
  refine ⟨⟨by rw [hg, hm]; exact (hf hP).memory, ?_⟩, Nat.le_of_eq (by rw [hm])⟩
  rw [ho, hm]
  exact (hf hP).output

theorem Follows.withStatus {n : Nat} {f g : Frame} (h : f.Follows P n g) {s : Status}
    (hs : s.endsFrame = true) : f.Follows P n { g with status := s } :=
  ⟨h.invocation, .inr hs, h.limit, h.paid, fun hP =>
    ⟨⟨(h.solid hP).1.memory, (h.solid hP).1.output⟩, (h.solid hP).2⟩⟩

end Frame

namespace Stack

theorem push_error {s : Stack} {w : Word} {e : Status} (h : s.push w = .error e) :
    e.Inner := by
  simp only [push] at h
  split at h
  · cases h
    exact rfl
  · cases h

theorem pushBytes_error {s : Stack} {b : Bytes} {e : Status} (h : s.pushBytes b = .error e) :
    e.Inner := by
  simp only [pushBytes] at h
  split at h
  · cases h
    exact rfl
  · exact push_error h

theorem set_error {s : Stack} {n : Nat} {w : Word} {e : Status} (h : s.set n w = .error e) :
    e.Inner := by
  simp only [set] at h
  split at h
  · cases h
  · cases h
    exact rfl

theorem dup_error {s : Stack} {n : Nat} {e : Status} (h : s.dup n = .error e) : e.Inner := by
  simp only [dup] at h
  split at h
  · split at h
    · cases h
      exact rfl
    · cases h
  · cases h
    exact rfl

theorem swap_error {s : Stack} {n : Nat} {e : Status} (h : s.swap n = .error e) :
    e.Inner := by
  simp only [swap] at h
  split at h
  · cases h
  · cases h
    exact rfl

theorem popN_error {s : Stack} {n : Nat} {e : Status} (h : s.popN n = .error e) :
    e.Inner := by
  simp only [popN] at h
  split at h
  · cases h
  · cases h
    exact rfl

theorem popNTop_error {s : Stack} {n : Nat} {e : Status} (h : s.popNTop n = .error e) :
    e.Inner := by
  simp only [popNTop] at h
  split at h
  · cases h
  · cases h
    exact rfl

end Stack

namespace Memory

variable {m mem : Memory} {off dataOff len : Nat} {b : Bytes} {e : Fault}

theorem size_resize (m : Memory) (n : Nat) : (m.resize n).size = n := by
  simp only [resize, size]
  split
  · rename_i h
    rw [ByteArray.size_extract]
    omega
  · rename_i h
    rw [ByteArray.size_append, Bytes.size_zeros]
    omega

theorem size_overwrite (h : off + b.size ≤ m.data.size) :
    (m.data.overwrite off b).size = m.data.size := by
  simp only [Bytes.overwrite, ByteArray.copySlice_eq_append, ByteArray.size_append,
    ByteArray.size_extract, ByteArray.size_data]
  omega

theorem size_set (h : m.set off b = .ok mem) : mem.size = m.size := by
  simp only [set] at h
  split at h
  · cases h
    rfl
  split at h
  · rename_i hin
    cases h
    exact size_overwrite hin
  · cases h

theorem set_error (h : m.set off b = .error e) : e = .outOfRange ∧ ¬off + b.size ≤ m.size := by
  simp only [set] at h
  split at h
  · cases h
  split at h
  · cases h
  · rename_i hout
    cases h
    exact ⟨rfl, hout⟩

theorem size_setByte {x : UInt8} (h : m.setByte off x = .ok mem) : mem.size = m.size := by
  simp only [setByte] at h
  split at h
  · cases h
    exact ByteArray.size_set! ..
  · cases h

theorem setByte_error {x : UInt8} (h : m.setByte off x = .error e) :
    e = .outOfRange ∧ ¬off < m.size := by
  simp only [setByte] at h
  split at h
  · cases h
  · rename_i hout
    cases h
    exact ⟨rfl, hout⟩

theorem size_setData (h : m.setData off dataOff len b = .ok mem) : mem.size = m.size := by
  simp only [setData] at h
  split at h
  · rename_i hin
    rw [← Except.ok.inj h]
    rw [← Bytes.size_window b dataOff len] at hin
    exact size_overwrite hin
  · cases h

theorem setData_error (h : m.setData off dataOff len b = .error e) :
    e = .outOfRange ∧ ¬off + len ≤ m.size := by
  simp only [setData] at h
  split at h
  · cases h
  · rename_i hout
    cases h
    exact ⟨rfl, hout⟩

end Memory

namespace Local

variable {α β : Type}

/-- The step costs at least `n` gas if it goes on, and then its result satisfies `Q`. If it ends the frame,
its status tells why. If `P` holds, which is to say that the frame is solid, the step has an answer. -/
def Pays (P : Prop) (n : Nat) (x : Local α) (f : Frame) (Q : α → Frame → Prop) : Prop :=
  (P → f.Solid) →
    match x f with
    | .ok a g => f.Follows P n g ∧ g.status = f.status ∧ Q a g
    | .error (.status s) g => s.Inner ∧ f.Follows P 0 g
    | .error (.fault e) _ => e = .outOfRange ∧ ¬P

section Rules

variable {P : Prop} {m n : Nat} {x : Local α} {f : Frame} {Q R : α → Frame → Prop}

theorem Pays.imp (h : Pays P n x f Q) (hm : m ≤ n) (hQ : ∀ a g, Q a g → R a g) :
    Pays P m x f R := by
  intro hf
  replace h := h hf
  cases hx : x f with
  | ok a g =>
    simp only [hx] at h ⊢
    exact ⟨h.1.mono hm, h.2.1, hQ a g h.2.2⟩
  | error e g =>
    rw [hx] at h
    cases e with
    | status s => exact h
    | fault e => exact h

theorem Pays.bind {k : α → Local β} {R : β → Frame → Prop} (hx : Pays P m x f Q)
    (hk : ∀ a g, f.Follows P m g → Q a g → Pays P n (k a) g R) :
    Pays P (m + n) (x >>= k) f R := by
  intro hf
  replace hx := hx hf
  simp only [Bind.bind, EStateM.bind]
  cases h : x f with
  | error e g =>
    rw [h] at hx
    cases e with
    | status s => exact hx
    | fault e => exact hx
  | ok a g =>
    simp only [h] at hx ⊢
    obtain ⟨hfg, hstatus, ha⟩ := hx
    have hka := hk a g hfg ha fun hP => (hfg.solid hP).1
    cases h' : k a g with
    | ok b l =>
      simp only [h'] at hka ⊢
      exact ⟨hfg.trans hka.1, hka.2.1.trans hstatus, hka.2.2⟩
    | error e l =>
      cases e with
      | status s =>
        simp only [h'] at hka ⊢
        exact ⟨hka.1, (hfg.trans hka.2).mono (Nat.zero_le _)⟩
      | fault e =>
        simp only [h'] at hka ⊢
        exact hka

theorem Pays.first {k : α → Local β} {R : β → Frame → Prop} (hx : Pays P 0 x f Q)
    (hk : ∀ a g, f.Follows P 0 g → Q a g → Pays P n (k a) g R) : Pays P n (x >>= k) f R := by
  have h := hx.bind hk
  rwa [Nat.zero_add] at h

theorem Pays.then {k : α → Local β} {R : β → Frame → Prop} (hx : Pays P n x f Q)
    (hk : ∀ a g, f.Follows P n g → Q a g → Pays P 0 (k a) g R) : Pays P n (x >>= k) f R :=
  hx.bind hk

theorem Pays.pure {a : α} (h : Q a f) : Pays P 0 (pure a : Local α) f Q :=
  fun hf => ⟨.refl hf, rfl, h⟩

theorem Pays.map {u : α → β} (hx : Pays P 0 x f Q) : Pays P 0 (u <$> x) f fun _ _ => True := by
  rw [map_eq_pure_bind]
  exact hx.first fun _ _ _ _ => .pure trivial

theorem Pays.get : Pays P 0 get f fun a g => a = f ∧ g = f :=
  fun hf => ⟨.refl hf, rfl, rfl, rfl⟩

theorem Pays.modify {u : Frame → Frame} (h : (P → f.Solid) → f.Follows P 0 (u f))
    (status : (u f).status = f.status) : Pays P 0 (modify u) f fun _ g => g = u f :=
  fun hf => ⟨h hf, status, rfl⟩

theorem Pays.halt {s : Status} (hs : s.Inner) : Pays P n (halt s : Local α) f Q :=
  fun hf => ⟨hs, .refl hf⟩

theorem Pays.checked {y : Except Fault α} (h : ∀ e, y = .error e → e = .outOfRange ∧ ¬P) :
    Pays P 0 (checked y) f fun a g => y = .ok a ∧ g = f := by
  intro hf
  simp only [Local.checked]
  cases hy : y with
  | ok a => exact ⟨.refl hf, rfl, rfl, rfl⟩
  | error e => exact h e hy

theorem Pays.ensure {c : Bool} {s : Status} (hs : s.Inner) :
    Pays P 0 (ensure c s) f fun _ g => c = true ∧ g = f := by
  simp only [Local.ensure]
  split
  · rename_i hc
    exact .pure ⟨hc, rfl⟩
  · exact .halt hs

theorem Pays.rules : Pays P 0 rules f fun r g => r = f.rules ∧ g = f :=
  fun hf => ⟨.refl hf, rfl, rfl, rfl⟩

theorem Pays.since {fork : Hardfork} :
    Pays P 0 (since fork) f fun _ g => f.rules.since fork = true ∧ g = f := by
  apply Pays.first .rules
  rintro _ g - ⟨rfl, rfl⟩
  exact .ensure rfl

theorem Pays.having {e : Eip} : Pays P 0 (having e) f fun _ _ => True := by
  apply Pays.first .rules
  rintro _ g - ⟨rfl, rfl⟩
  exact (Pays.ensure (by rfl)).imp (Nat.le_refl _) fun _ _ _ => trivial

theorem Pays.mayWrite :
    Pays P 0 mayWrite f fun _ g => f.invocation.isStatic = false ∧ g = f := by
  apply Pays.first .get
  rintro _ g - ⟨rfl, rfl⟩
  apply (Pays.ensure (by rfl)).imp (Nat.le_refl _)
  rintro _ g ⟨h, rfl⟩
  exact ⟨by simpa using h, rfl⟩

theorem Pays.charge {cost : Nat} :
    Pays P cost (charge cost) f fun _ g =>
      g.gas.remaining + cost = f.gas.remaining ∧ g.pc = f.pc := by
  intro hf
  simp only [Local.charge]
  cases h : f.gas.charge? cost with
  | none => exact ⟨rfl, .refl hf⟩
  | some gas =>
    obtain ⟨hc, rfl⟩ := Gas.charge?_eq_some h
    have hsum : f.gas.remaining - cost + cost = f.gas.remaining := by omega
    refine ⟨⟨rfl, .inl rfl, rfl, Nat.le_of_eq hsum, fun hP => ?_⟩, rfl, hsum, rfl⟩
    refine ⟨⟨?_, (hf hP).output⟩, Nat.le_refl _⟩
    have hcover := (hf hP).memory
    exact ⟨hcover.size, hcover.paid, hcover.bound⟩

theorem Pays.pay {price : Option Nat} (h : ∀ cost, price = some cost → n ≤ cost) :
    Pays P n (pay price) f fun _ _ => True := by
  simp only [Local.pay]
  cases price with
  | none => exact .halt rfl
  | some cost => exact Pays.charge.imp (h cost rfl) fun _ _ _ => trivial

theorem Pays.grow {offset len : Nat} :
    Pays P 0 (grow offset len) f fun _ g => P → len ≠ 0 → offset + len ≤ g.memory.size := by
  intro hf
  simp only [Local.grow]
  cases h : f.gas.payMemory offset len with
  | error s => exact ⟨Gas.payMemory_error h, .refl hf⟩
  | ok r =>
    obtain ⟨resized, gas⟩ := r
    obtain ⟨hlimit, hpaid, hcover⟩ := Gas.payMemory_ok h
    cases resized with
    | none =>
      refine ⟨⟨rfl, .inl rfl, hlimit, hpaid, fun hP => ?_⟩, rfl, fun hP => (hcover _ (hf hP).memory).2.2⟩
      exact ⟨⟨(hcover _ (hf hP).memory).1, (hf hP).output⟩, Nat.le_refl _⟩
    | some size =>
      have hsize : (f.memory.resize size).size = size := Memory.size_resize _ _
      refine ⟨⟨rfl, .inl rfl, hlimit, hpaid, fun hP => ?_⟩, rfl, fun hP hlen => ?_⟩
      · obtain ⟨hg, hle, -⟩ := hcover _ (hf hP).memory
        rw [← hsize] at hg hle
        exact ⟨⟨hg, fun ho => Nat.le_trans ((hf hP).output ho) hle⟩, hle⟩
      · have hle := (hcover _ (hf hP).memory).2.2 hlen
        rw [← hsize] at hle
        exact hle

theorem Pays.amount {w : Word} : Pays P 0 (amount w) f fun _ g => g = f := by
  simp only [Local.amount]
  split
  · exact .pure rfl
  · exact .halt rfl

theorem Pays.onStack {change : Stack → Except Status Stack}
    (h : ∀ s, change f.stack = .error s → s.Inner) :
    Pays P 0 (onStack change) f fun _ _ => True := by
  intro hf
  simp only [Local.onStack]
  cases hc : change f.stack with
  | ok stack => exact ⟨.of_same hf rfl rfl rfl rfl rfl, rfl, trivial⟩
  | error s => exact ⟨h s hc, .refl hf⟩

theorem Pays.push {w : Word} : Pays P 0 (push w) f fun _ _ => True :=
  .onStack fun _ h => Stack.push_error h

theorem Pays.setTop {w : Word} : Pays P 0 (setTop w) f fun _ _ => True :=
  .onStack fun _ h => Stack.set_error h

theorem Pays.pop {k : Nat} : Pays P 0 (pop k) f fun _ _ => True := by
  intro hf
  simp only [Local.pop]
  cases h : f.stack.popN k with
  | ok r => exact ⟨.of_same hf rfl rfl rfl rfl rfl, rfl, trivial⟩
  | error s => exact ⟨Stack.popN_error h, .refl hf⟩

theorem Pays.popTop {k : Nat} : Pays P 0 (popTop k) f fun _ _ => True := by
  intro hf
  simp only [Local.popTop]
  cases h : f.stack.popNTop k with
  | ok r => exact ⟨.of_same hf rfl rfl rfl rfl rfl, rfl, trivial⟩
  | error s => exact ⟨Stack.popNTop_error h, .refl hf⟩

theorem Pays.pop1 : Pays P 0 pop1 f fun _ _ => True :=
  .first .pop fun _ _ _ _ => .pure trivial

theorem Pays.pop2 : Pays P 0 pop2 f fun _ _ => True :=
  .first .pop fun _ _ _ _ => .pure trivial

theorem Pays.pop3 : Pays P 0 pop3 f fun _ _ => True :=
  .first .pop fun _ _ _ _ => .pure trivial

theorem Pays.pop4 : Pays P 0 pop4 f fun _ _ => True :=
  .first .pop fun _ _ _ _ => .pure trivial

theorem Pays.top1 : Pays P 0 top1 f fun _ _ => True :=
  .first .popTop fun _ _ _ _ => .pure trivial

theorem Pays.top2 : Pays P 0 top2 f fun _ _ => True :=
  .first .popTop fun _ _ _ _ => .pure trivial

theorem Pays.top3 : Pays P 0 top3 f fun _ _ => True :=
  .first .popTop fun _ _ _ _ => .pure trivial

theorem Pays.slice {offset len : Nat} (h : P → offset + len ≤ f.memory.size) :
    Pays P 0 (slice offset len) f fun _ g => g = f := by
  apply Pays.first .get
  rintro _ g - ⟨rfl, rfl⟩
  refine (Pays.checked ?_).imp (Nat.le_refl _) fun _ _ hg => hg.2
  intro e he
  simp only [Memory.slice] at he
  split at he
  · cases he
  · rename_i hout
    cases he
    exact ⟨rfl, fun hP => hout (h hP)⟩

theorem Pays.copyOut {offset : Word} {len : Nat} (hlen : len ≠ 0) :
    Pays P 0 (copyOut offset len) f fun _ _ => True := by
  apply Pays.first .amount
  rintro start g - rfl
  apply Pays.first .grow
  rintro _ k - hk
  exact (Pays.slice fun hP => hk hP hlen).imp (Nat.le_refl _) fun _ _ _ => trivial

theorem Pays.onMemory {change : Memory → Except Fault Memory}
    (herror : ∀ e, change f.memory = .error e → e = .outOfRange ∧ ¬P)
    (hsize : ∀ mem, change f.memory = .ok mem → mem.size = f.memory.size) :
    Pays P 0 (onMemory change) f fun _ _ => True := by
  intro hf
  simp only [Local.onMemory]
  cases h : change f.memory with
  | error e => exact herror e h
  | ok mem =>
    have hs := hsize mem h
    refine ⟨⟨rfl, .inl rfl, rfl, Nat.le_refl _, fun hP => ⟨⟨?_, ?_⟩, Nat.le_of_eq hs.symm⟩⟩, rfl, trivial⟩
    · rw [hs]
      exact (hf hP).memory
    · rw [hs]
      exact (hf hP).output

-- The rules above say all there is to know; unfolding it further would run the step.
attribute [irreducible] Pays

theorem Pays.setBytes {off : Nat} {b : Bytes} (h : P → off + b.size ≤ f.memory.size) :
    Pays P 0 (Local.onMemory (·.set off b)) f fun _ _ => True := by
  refine Pays.onMemory (fun e he => ?_) fun mem hm => Memory.size_set hm
  obtain ⟨rfl, hout⟩ := Memory.set_error he
  exact ⟨rfl, fun hP => hout (h hP)⟩

theorem Pays.setWord {off : Nat} {w : Word} (h : P → off + 32 ≤ f.memory.size) :
    Pays P 0 (Local.onMemory (·.setWord off w)) f fun _ _ => True := by
  refine Pays.setBytes fun hP => ?_
  rw [Bytes.size_ofWord]
  exact h hP

end Rules

end Local

end MeteredVM
