import MeteredVM.Proofs.Frame.Region

namespace MeteredVM

/-- `m` items were taken off the stack and `n` were put in their place; the position has moved on by `d`,
if that is known. -/
structure Frame.Trades (m n : Nat) (d : Option Nat) (f g : Frame) : Prop where
  enough : m ≤ f.stack.items.length
  length : g.stack.items.length + m = f.stack.items.length + n
  below : g.stack.items.drop n = f.stack.items.drop m
  within : f.stack.items.length ≤ Stack.limit → g.stack.items.length ≤ Stack.limit
  pc : ∀ k ∈ d, g.pc = f.pc + k

namespace Frame.Trades

variable {l m n p : Nat} {d : Option Nat} {f g k : Frame}

theorem of_stack (stack : g.stack = f.stack) (pc : ∀ k ∈ d, g.pc = f.pc + k) :
    f.Trades 0 0 d g :=
  ⟨Nat.zero_le _, by rw [stack], by rw [stack], by rw [stack]; exact id, pc⟩

theorem of_same (stack : g.stack = f.stack) (pc : g.pc = f.pc) : f.Trades 0 0 (some 0) g := by
  refine of_stack stack ?_
  rintro _ ⟨⟩
  exact pc

theorem length_eq (h : f.Trades 0 0 d g) : g.stack.items.length = f.stack.items.length := h.length

theorem refl (f : Frame) : f.Trades 0 0 (some 0) f := of_same rfl rfl

/-- The second step takes what the first has put on the stack. -/
theorem trans (hfg : f.Trades m p (some 0) g) (hgk : g.Trades p n d k) : f.Trades m n d k := by
  refine ⟨hfg.enough, ?_, hgk.below.trans hfg.below, fun h => hgk.within (hfg.within h),
    fun c hc => ?_⟩
  · have hm := hfg.length
    have hp := hgk.length
    omega
  · rw [hgk.pc c hc, hfg.pc 0 rfl, Nat.add_zero]

/-- The first step only takes items off, and the second takes others. -/
theorem join (hfg : f.Trades m 0 (some 0) g) (hgk : g.Trades l n d k) :
    f.Trades (l + m) n d k := by
  have hm := hfg.length
  have hl := hgk.length
  have henough := hgk.enough
  refine ⟨by omega, by omega, ?_, fun h => hgk.within (hfg.within h), fun c hc => ?_⟩
  · have hbelow := hfg.below
    rw [List.drop_zero] at hbelow
    rw [hgk.below, hbelow, List.drop_drop, Nat.add_comm l m]
  · rw [hgk.pc c hc, hfg.pc 0 rfl, Nat.add_zero]

theorem placed (h : f.Trades m n d g) : n ≤ g.stack.items.length := by
  have hlength := h.length
  have henough := h.enough
  omega

/-- Leaving the stack alone is leaving the items at the top in their place. -/
theorem lift (h : f.Trades 0 0 d g) (hn : n ≤ f.stack.items.length) : f.Trades n n d g := by
  have hbelow := h.below
  simp only [List.drop_zero] at hbelow
  exact ⟨hn, by rw [hbelow], by rw [hbelow], h.within, h.pc⟩

end Frame.Trades

/-- The frame may end so: with an error, or with another status if `E` holds. Without an answer it may be
left if `F` holds. -/
def Ending.Fair (E F : Prop) : Ending → Prop
  | .status e => e.isError = true ∨ E ∧ e ≠ .running
  | .fault _ => F

def Trades {S α : Type} (view : S → Frame) (E F : Prop) (m n : Nat) (d : Option Nat)
    (x : EStateM Ending S α) (s : S) : Prop :=
  Ends x s (fun e _ => e.Fair E F) fun _ t => (view s).Trades m n d (view t)

namespace Trades

variable {S α β : Type} {view : S → Frame} {E F : Prop} {l m n p : Nat} {d : Option Nat}

section Rules

variable {x : EStateM Ending S α} {s : S} {k : α → EStateM Ending S β}

/-- The second step takes what the first has put on the stack. -/
theorem relay (hx : Trades view E F m p (some 0) x s)
    (hk : ∀ a t, x s = .ok a t → (view s).Trades m p (some 0) (view t) →
      Trades view E F p n d (k a) t) : Trades view E F m n d (x >>= k) s := by
  refine Ends.bind hx.known ?_
  rintro a t ⟨hok, ht⟩
  exact (hk a t hok ht).imp fun _ _ hu => ht.trans hu

theorem first (hx : Trades view E F 0 0 (some 0) x s)
    (hk : ∀ a t, x s = .ok a t → (view s).Trades 0 0 (some 0) (view t) →
      Trades view E F m n d (k a) t) : Trades view E F m n d (x >>= k) s := by
  refine Ends.bind hx.known ?_
  rintro a t ⟨hok, ht⟩
  exact (hk a t hok ht).imp fun _ _ hu => ht.join hu

/-- The first step takes items off, and the second takes others. -/
theorem bind (hx : Trades view E F m 0 (some 0) x s)
    (hk : ∀ a t, x s = .ok a t → (view s).Trades m 0 (some 0) (view t) →
      Trades view E F l n d (k a) t) : Trades view E F (l + m) n d (x >>= k) s := by
  refine Ends.bind hx.known ?_
  rintro a t ⟨hok, ht⟩
  exact (hk a t hok ht).imp fun _ _ hu => ht.join hu

theorem pure {a : α} : Trades view E F 0 0 (some 0) (pure a : EStateM Ending S α) s :=
  Frame.Trades.refl _

theorem map {u : α → β} (hx : Trades view E F m n d x s) : Trades view E F m n d (u <$> x) s := by
  rw [map_eq_pure_bind]
  exact Ends.bind hx fun _ _ h => Ends.pure h

theorem lift (hn : n ≤ (view s).stack.items.length) (hx : Trades view E F 0 0 d x s) :
    Trades view E F n n d x s :=
  hx.imp fun _ _ h => h.lift hn

theorem anywhere (hx : Trades view E F m n d x s) : Trades view E F m n none x s :=
  hx.imp fun _ _ h => ⟨h.enough, h.length, h.below, h.within, nofun⟩

end Rules

section Local

open Local

variable {f : Frame}

theorem get : Trades id E F 0 0 (some 0) get f := Frame.Trades.refl _

theorem move {u : Frame → Frame} (stack : (u f).stack = f.stack)
    (pc : ∀ k ∈ d, (u f).pc = f.pc + k) : Trades id E F 0 0 d (modify u) f :=
  (Frame.Trades.of_stack stack pc : f.Trades 0 0 d (u f))

theorem modify {u : Frame → Frame} (stack : (u f).stack = f.stack) (pc : (u f).pc = f.pc) :
    Trades id E F 0 0 (some 0) (modify u) f :=
  (Frame.Trades.of_same stack pc : f.Trades 0 0 (some 0) (u f))

theorem fails {e : Status} (he : e.isError = true) :
    Trades id E F m n d (halt e : Local α) f :=
  .inl he

theorem halt {e : Status} (hE : E) (he : e ≠ .running) :
    Trades id E F m n d (Local.halt e : Local α) f :=
  .inr ⟨hE, he⟩

theorem checked {y : Except Fault α} (hF : F) : Trades id E F 0 0 (some 0) (checked y) f := by
  simp only [Trades, Ends, Local.checked]
  cases y with
  | ok a => exact .refl f
  | error e => exact hF

theorem ensure {c : Bool} {e : Status} (he : e.isError = true) :
    Trades id E F 0 0 (some 0) (ensure c e) f := by
  simp only [Local.ensure]
  split
  · exact .pure
  · exact .fails he

theorem rules : Trades id E F 0 0 (some 0) rules f := .first .get fun _ _ _ _ => .pure

theorem since {fork : Hardfork} : Trades id E F 0 0 (some 0) (since fork) f :=
  .first .rules fun _ _ _ _ => .ensure rfl

theorem having {e : Eip} : Trades id E F 0 0 (some 0) (having e) f :=
  .first .rules fun _ _ _ _ => .ensure rfl

theorem mayWrite : Trades id E F 0 0 (some 0) mayWrite f := .first .get fun _ _ _ _ => .ensure rfl

theorem charge {cost : Nat} : Trades id E F 0 0 (some 0) (charge cost) f := by
  simp only [Trades, Ends, Local.charge]
  cases f.gas.charge? cost with
  | some gas => exact .of_same rfl rfl
  | none => exact .inl rfl

theorem pay {price : Option Nat} : Trades id E F 0 0 (some 0) (pay price) f := by
  cases price with
  | some cost => exact .charge
  | none => exact .fails rfl

theorem amount {w : Word} : Trades id E F 0 0 (some 0) (amount w) f := by
  simp only [Local.amount]
  split
  · exact .pure
  · exact .fails rfl

theorem grow {offset len : Nat} : Trades id E F 0 0 (some 0) (grow offset len) f := by
  simp only [Trades, Ends, Local.grow]
  cases h : f.gas.payMemory offset len with
  | ok r =>
    obtain ⟨resized, gas⟩ := r
    cases resized with
    | none => exact .of_same rfl rfl
    | some size => exact .of_same rfl rfl
  | error e =>
    obtain rfl | rfl := Gas.payMemory_eq_error h
    · exact .inl rfl
    · exact .inl rfl

theorem slice {offset len : Nat} (hF : F) : Trades id E F 0 0 (some 0) (slice offset len) f :=
  .first .get fun _ _ _ _ => .checked hF

theorem copyOut {offset : Word} {len : Nat} (hF : F) :
    Trades id E F 0 0 (some 0) (copyOut offset len) f := by
  refine .first .amount fun _ _ _ _ => ?_
  exact .first .grow fun _ _ _ _ => .slice hF

theorem onMemory {change : Memory → Except Fault Memory} (hF : F) :
    Trades id E F 0 0 (some 0) (onMemory change) f := by
  simp only [Trades, Ends, Local.onMemory]
  cases change f.memory with
  | ok memory => exact .of_same rfl rfl
  | error e => exact hF

theorem pop {n : Nat} : Trades id E F n 0 (some 0) (pop n) f := by
  simp only [Trades, Ends, Local.pop, Stack.popN]
  by_cases hn : n ≤ f.stack.items.length
  · simp only [hn, dite_true]
    refine ⟨hn, ?_, rfl, fun hlimit => ?_, by simp⟩
    · simp [Nat.sub_add_cancel hn]
    · simpa using Nat.le_trans (Nat.sub_le _ n) hlimit
  · simp only [hn, dite_false]
    exact .inl rfl

/-- The items are taken off, but for the last, which a result will take the place of. -/
theorem popTop {n : Nat} : Trades id E F (n + 1) 1 (some 0) (popTop n) f := by
  simp only [Trades, Ends, Local.popTop, Stack.popNTop]
  by_cases hn : n < f.stack.items.length
  · simp only [hn, dite_true]
    refine ⟨hn, ?_, ?_, fun hlimit => ?_, by simp⟩
    · simp only [id, List.length_drop]
      omega
    · simp [List.drop_drop]
    · simpa using Nat.le_trans (Nat.sub_le _ n) hlimit
  · simp only [hn, dite_false]
    exact .inl rfl

theorem pop1 : Trades id E F 1 0 (some 0) pop1 f := .relay .pop fun _ _ _ _ => .pure

theorem pop2 : Trades id E F 2 0 (some 0) pop2 f := .relay .pop fun _ _ _ _ => .pure

theorem pop3 : Trades id E F 3 0 (some 0) pop3 f := .relay .pop fun _ _ _ _ => .pure

theorem pop4 : Trades id E F 4 0 (some 0) pop4 f := .relay .pop fun _ _ _ _ => .pure

theorem top1 : Trades id E F 1 1 (some 0) top1 f :=
  .relay .popTop fun _ _ _ ht => .lift ht.placed .pure

theorem top2 : Trades id E F 2 1 (some 0) top2 f :=
  .relay .popTop fun _ _ _ ht => .lift ht.placed .pure

theorem top3 : Trades id E F 3 1 (some 0) top3 f :=
  .relay .popTop fun _ _ _ ht => .lift ht.placed .pure

theorem onStack {change : Stack → Except Status Stack}
    (h : match change f.stack with
      | .ok s => f.Trades m n (some 0) { f with stack := s }
      | .error e => e.isError = true) : Trades id E F m n (some 0) (onStack change) f := by
  simp only [Trades, Ends, Local.onStack]
  cases hc : change f.stack with
  | ok s =>
    rw [hc] at h
    exact h
  | error e =>
    rw [hc] at h
    exact .inl h

theorem push {w : Word} : Trades id E F 0 1 (some 0) (push w) f := by
  refine .onStack ?_
  simp only [Stack.push]
  by_cases hfull : f.stack.items.length = Stack.limit
  · simp only [hfull, if_true]
    rfl
  · simp only [hfull, if_false]
    refine ⟨Nat.zero_le _, rfl, rfl, fun hlimit => ?_, by simp⟩
    exact Nat.lt_of_le_of_ne hlimit hfull

theorem pushBytes {b : Bytes} :
    Trades id E F 0 1 (some 0) (Local.onStack (·.pushBytes b)) f := by
  by_cases hlong : b.size > 32
  · refine .onStack ?_
    simp only [Stack.pushBytes, hlong, if_true]
    rfl
  · have hpush : Local.onStack (·.pushBytes b) = Local.push b.toWord := by
      simp only [Local.push, Stack.pushBytes, hlong, if_false]
    rw [hpush]
    exact .push

theorem setTop {w : Word} : Trades id E F 1 1 (some 0) (setTop w) f := by
  refine .onStack ?_
  simp only [Stack.set]
  by_cases hsome : 0 < f.stack.items.length
  · simp only [hsome, if_true]
    exact ⟨hsome, by simp, by simp [List.drop_set], by simp, by simp⟩
  · simp only [hsome, if_false]
    rfl

theorem dup {i : Nat} :
    Trades id E F (i + 1) (i + 2) (some 0) (Local.onStack (·.dup (i + 1))) f := by
  refine .onStack ?_
  simp only [Stack.dup, Nat.add_sub_cancel]
  by_cases hi : i < f.stack.items.length
  · rw [List.getElem?_eq_getElem hi]
    by_cases hfull : f.stack.items.length + 1 > Stack.limit
    · simp only [hfull, if_true]
      rfl
    · simp only [hfull, if_false]
      refine ⟨hi, ?_, by simp, fun _ => Nat.not_lt.mp hfull, by simp⟩
      simp only [List.length_cons]
      omega
  · rw [List.getElem?_eq_none (Nat.not_lt.mp hi)]
    rfl

theorem swap {i : Nat} :
    Trades id E F (i + 2) (i + 2) (some 0) (Local.onStack (·.swap (i + 1))) f := by
  refine .onStack ?_
  simp only [Stack.swap]
  by_cases hi : i + 1 < f.stack.items.length
  · rw [List.getElem?_eq_getElem hi, List.getElem?_eq_getElem (Nat.zero_lt_of_lt hi)]
    exact ⟨hi, by simp, by simp [List.drop_set], by simp, by simp⟩
  · rw [List.getElem?_eq_none (Nat.not_lt.mp hi)]
    cases f.stack.items[0]? <;> rfl

end Local

section Exec

variable {σ : Type} {s : Machine σ}

theorem here {x : Local α} (hx : Trades id E F m n d x s.frame) :
    Trades Machine.frame E F m n d (Exec.here x) s :=
  Exec.here_rule hx

theorem ask {q : Query σ α} : Trades Machine.frame E F 0 0 (some 0) (Exec.ask q) s := by
  simp only [Trades, Ends, Exec.ask]
  cases q s.world with
  | ok a w => exact .of_same rfl rfl
  | error e w => exact .inl rfl

theorem nested {x : Nested σ α} (hF : F) :
    Trades Machine.frame E F 0 0 (some 0) (Exec.nested x) s := by
  simp only [Trades, Ends, Exec.nested]
  cases x s.world with
  | ok p => exact .of_same rfl rfl
  | error e => exact hF

theorem tell {change : σ → σ} : Trades Machine.frame E F 0 0 (some 0) (Exec.tell change) s :=
  Frame.Trades.of_same rfl rfl

end Exec

-- The rules above say all there is to know; unfolding it further would run the step.
attribute [irreducible] Trades

end Trades

end MeteredVM
