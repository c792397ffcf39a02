import MeteredVM.Proofs.Frame.Boundary
import MeteredVM.Proofs.Frame.Exchange

namespace MeteredVM

open Exec Instruction

variable {σ : Type}

structure CallTerms where
  requested : Word
  callee : Address
  value : Word
  /-- Whether the call can bring the callee into existence. -/
  creates : Bool
  /-- The number of operands. -/
  operands : Nat
  inOffset : Nat
  inLength : Nat
  outOffset : Nat
  outLength : Nat
  deriving DecidableEq

namespace CallTerms

def read (s : Stack) (n : Nat) (value : Word) (creates : Bool) : CallTerms where
  requested := s.operand 0
  callee := (s.operand 1).toAddress
  value := value
  creates := creates
  operands := n + 4
  inOffset := (s.operand n).toNat
  inLength := (s.operand (n + 1)).toNat
  outOffset := (s.operand (n + 2)).toNat
  outLength := (s.operand (n + 3)).toNat

/-- The words that memory has once the input and the output of the call lie in it. -/
def words (c : CallTerms) (f : Frame) : Nat :=
  f.wordsFor c.inOffset c.inLength c.outOffset c.outLength

/-- What the call costs besides memory and the gas that goes with it. -/
def price (c : CallTerms) (f : Frame) (found : Existence) : Nat :=
  Price.call f.rules (c.value ≠ 0) (c.creates && found.absent) found.cold

end CallTerms

namespace Opcode

def callTerms? (s : Stack) : Opcode → Option CallTerms
  | call => some (.read s 3 (s.operand 2) true)
  | callCode => some (.read s 3 (s.operand 2) false)
  | delegateCall | staticCall => some (.read s 2 0 false)
  | _ => none

variable {s : Stack} {op : Opcode} {c : CallTerms}

theorem operands_of_callTerms (hop : op.callTerms? s = some c) : c.operands = op.info.inputs := by
  cases op <;> first | (cases hop; rfl) | cases hop

/-- The table has no price for the opcodes that call, as they pay by themselves. -/
theorem gas_of_callTerms (hop : op.callTerms? s = some c) : op.info.gas = 0 := by
  cases op <;> first | rfl | cases hop

theorem request_of_callTerms (h : Host σ) (hop : op.callTerms? s = some c) :
    ∃ x, op.request? h = some x := by
  cases op <;> first | exact ⟨_, rfl⟩ | cases hop

end Opcode

/-- The frame has paid for a call and asks for it. Of the `left` gas that it had then it has given `given`
along. -/
structure CallTerms.Asked (c : CallTerms) (found : Existence) (left given : Nat) (r : CallRequest)
    (into : Span) (f g : Frame) : Prop where
  paid : left + c.price f found + f.gas.increment (c.words f) = f.gas.remaining
  forwarded : given = Price.forwarded f.rules left c.requested
  affordable : given ≤ left
  gasLimit : r.gasLimit = if c.value ≠ 0 then Amount.addClamped given Price.stipend else given
  input : r.input = f.memory.data.window c.inOffset c.inLength
  length : into.length = c.outLength
  start : c.outLength ≠ 0 → into.start = c.outOffset
  within : into.start + into.length ≤ g.memory.size
  gas : g.gas.remaining = left - given
  stack : g.stack.items = f.stack.items.drop c.operands
  size : g.memory.size = 32 * c.words f
  bytes : ∀ i, g.memory.data.at0 i = f.memory.data.at0 i

namespace Goes

variable {α : Type} {s : Machine σ}

theorem here {x : Local α} {Q : α → Frame → Prop} (hx : Goes x s.frame Q) :
    Goes (here x : Exec σ α) s fun a t => Q a t.frame ∧ t.world = s.world := by
  refine Ends.iff.mpr ⟨fun a t ht => ?_, fun _ _ _ => trivial⟩
  obtain ⟨hframe, hworld⟩ := Exec.here_eq_ok ht
  exact ⟨hx.ok hframe, hworld⟩

theorem same {x : Local α} (hx : Goes x s.frame fun _ g => g = s.frame) :
    Goes (Exec.here x : Exec σ α) s fun _ t => t = s := by
  apply (here hx).imp
  rintro _ ⟨f, w⟩ ⟨hframe, hworld⟩
  cases hframe
  cases hworld
  rfl

theorem get : Goes (Exec.here MonadState.get : Exec σ Frame) s fun f t => f = s.frame ∧ t = s :=
  ⟨rfl, rfl⟩

theorem ask {q : Query σ α} :
    Goes (ask q : Exec σ α) s fun a t => q s.world = .ok a t.world ∧ t.frame = s.frame :=
  Ends.iff.mpr ⟨fun _ _ ht => Exec.ask_eq_ok ht, fun _ _ _ => trivial⟩

end Goes

namespace Instruction

theorem forward_goes {f : Frame} (found : Existence) (withValue : Bool) (requested : Word) :
    Goes (forward found withValue requested) f fun given g => ∃ avail sent,
      avail + Price.call f.rules withValue found.absent found.cold = f.gas.remaining ∧
        sent = Price.forwarded f.rules avail requested ∧ sent ≤ avail ∧
        given = (if withValue then Amount.addClamped sent Price.stipend else sent) ∧
        g = { f with gas := { f.gas with remaining := avail - sent } } := by
  apply Ends.bind Goes.rules
  rintro _ f ⟨rfl, rfl⟩
  apply Ends.bind Goes.charge
  rintro _ _ ⟨hprice, rfl⟩
  apply Ends.bind Ends.get
  rintro _ _ ⟨rfl, rfl⟩
  apply Ends.bind Goes.charge
  rintro _ _ ⟨hsent, rfl⟩
  exact Ends.pure ⟨_, _, Nat.sub_add_cancel hprice, rfl, hsent, rfl, rfl⟩

variable {h : Host σ} {s : Machine σ}

/-- What a call takes from memory and sets aside in it, by its terms. -/
theorem exchange_reads {c : CallTerms} {f : Frame} {n : Nat} (hf : f.Solid)
    (hc : c = .read f.stack n c.value c.creates) : Goes exchange (f.without n) fun r g =>
      (f.without c.operands).Grown (c.words f) g ∧
        r.1 = f.memory.data.window c.inOffset c.inLength ∧ r.2.length = c.outLength ∧
        (c.outLength ≠ 0 → r.2.start = c.outOffset) ∧ r.2.start + r.2.length ≤ g.memory.size := by
  have hcovers : (f.without n).gas.Covers (f.without n).memory.size := hf.memory
  have htwice : (f.without n).without 4 = f.without (n + 4) := by
    simp only [Frame.without, List.drop_drop]
  apply (exchange_goes hcovers).imp
  rintro ⟨input, into⟩ g ⟨-, hgrown, hinput, hinto⟩
  simp only [Frame.operand_without, htwice] at hgrown hinput hinto
  rw [hc]
  exact ⟨hgrown, hinput, hinto.length, hinto.start, hinto.within⟩

theorem callWith_goes {c : CallTerms} {f : Frame} {n : Nat}
    {request : Bytes → Nat → CallRequest} (hf : f.Solid) (hs : s.frame = f.without n)
    (hc : c = .read f.stack n c.value c.creates)
    (hrequest : ∀ input gas, (request input gas).input = input ∧ (request input gas).gasLimit = gas) :
    Goes (callWith h c.callee c.requested (c.value ≠ 0) c.creates request) s fun r t =>
      ∃ found left given q into, r = .call q into ∧
        h.existence c.callee s.world = .ok found t.world ∧
        c.Asked found left given q into f t.frame := by
  apply Ends.bind (Goes.here (hs ▸ exchange_reads hf hc))
  rintro ⟨input, into⟩ s₁ ⟨⟨hgrown, hinput, hlength, hstart, hwithin⟩, hworld⟩
  apply Ends.bind Goes.ask
  rintro found s₂ ⟨hfound, hframe⟩
  apply Ends.bind (Goes.here (forward_goes _ _ _))
  rintro gas s₃ ⟨⟨left, given, hpaid, hforwarded, hgiven, hgas, hs₃⟩, hworld₃⟩
  refine Ends.pure ⟨found, left, given, _, into, rfl, by rw [← hworld, hfound, hworld₃], ?_⟩
  have hrules : s₂.frame.rules = f.rules := by
    rw [hframe, hgrown.same]
    rfl
  have hmemory : s₃.frame.memory = s₁.frame.memory := by
    rw [hs₃, hframe]
  have hleft : s₂.frame.gas.remaining + f.gas.increment (c.words f) = f.gas.remaining := by
    rw [hframe, hgrown.gas]
    exact Nat.sub_add_cancel hgrown.paid
  simp only [decide_eq_true_eq] at hgas
  constructor
  · rw [← hleft, ← hpaid, hrules]
    rfl
  · rw [hforwarded, hrules]
  · exact hgiven
  · rw [(hrequest _ _).2, hgas]
  · rw [(hrequest _ _).1]
    exact hinput
  · exact hlength
  · exact hstart
  · rw [hmemory]
    exact hwithin
  · rw [hs₃]
  · rw [hs₃, hframe, hgrown.same]
    rfl
  · rw [hmemory, hgrown.size]
  · intro i
    rw [hmemory, hgrown.bytes]
    rfl

/-- The four opcodes that call ask for the same, by their terms. -/
theorem request_goes {op : Opcode} {c : CallTerms} {x : Exec σ Request} (hs : s.frame.Solid)
    (hop : op.callTerms? s.frame.stack = some c) (hx : op.request? h = some x) :
    Goes x s fun r t => ∃ found left given q into, r = .call q into ∧
      h.existence c.callee s.world = .ok found t.world ∧
      c.Asked found left given q into s.frame t.frame := by
  cases op with
  | call =>
    cases hop
    cases hx
    apply Ends.bind (Goes.here Goes.pop3)
    rintro _ s₁ ⟨⟨-, rfl, hs₁⟩, hworld⟩
    apply Ends.bind Goes.get
    rintro _ _ ⟨rfl, rfl⟩
    apply Ends.bind (Goes.same (Goes.ensure.imp fun _ _ h => h.2))
    rintro _ _ rfl
    rw [← hworld]
    exact callWith_goes (c := .read s.frame.stack 3 (s.frame.stack.operand 2) true) hs hs₁ rfl
      fun _ _ => ⟨rfl, rfl⟩
  | callCode =>
    cases hop
    cases hx
    apply Ends.bind (Goes.here Goes.pop3)
    rintro _ s₁ ⟨⟨-, rfl, hs₁⟩, hworld⟩
    apply Ends.bind Goes.get
    rintro _ _ ⟨rfl, rfl⟩
    rw [← hworld]
    exact callWith_goes (c := .read s.frame.stack 3 (s.frame.stack.operand 2) false) hs hs₁ rfl
      fun _ _ => ⟨rfl, rfl⟩
  | delegateCall | staticCall =>
    -- They differ in the fork that brought them and in what they ask for besides input and gas.
    cases hop
    cases hx
    apply Ends.bind (Goes.same Goes.since)
    rintro _ s rfl
    apply Ends.bind (Goes.here Goes.pop2)
    rintro _ s₁ ⟨⟨-, rfl, hs₁⟩, hworld⟩
    apply Ends.bind Goes.get
    rintro _ _ ⟨rfl, rfl⟩
    rw [← hworld]
    exact callWith_goes (c := .read s.frame.stack 2 0 false) hs hs₁ rfl fun _ _ => ⟨rfl, rfl⟩
  | _ => cases hop

end Instruction

structure CallReply.Taken (reply : CallReply) (into : Span) (f g : Frame) : Prop where
  gas : g.gas.remaining = f.gas.remaining +
    if reply.status.isOk || reply.status.isRevert then reply.gas.remaining else 0
  stack : g.stack.items = .ofBool reply.status.isOk :: f.stack.items
  returnData : g.returnData = reply.output
  size : g.memory.size = f.memory.size
  bytes : ∀ i, g.memory.data.at0 i =
    if (reply.status.isOk || reply.status.isRevert) ∧ into.start ≤ i ∧
        i < into.start + min into.length reply.output.size then
      reply.output.at0 (i - into.start)
    else f.memory.data.at0 i

namespace Goes

variable {f : Frame}

theorem onMemory {change : Memory → Except Fault Memory} : Goes (Local.onMemory change) f fun _ g =>
    ∃ mem, change f.memory = .ok mem ∧ g = { f with memory := mem } := by
  simp only [Goes, Ends, Local.onMemory]
  cases hchange : change f.memory with
  | ok mem => exact ⟨mem, rfl, rfl⟩
  | error e => trivial

theorem push {w : Word} :
    Goes (Local.push w) f fun _ g => g = { f with stack := ⟨w :: f.stack.items⟩ } := by
  simp only [Goes, Ends, Local.push, Local.onStack, Stack.push]
  by_cases hfull : f.stack.items.length = Stack.limit
  · simp only [if_pos hfull]
  · simp only [if_neg hfull]

theorem giveBack {gas : Gas} :
    Goes (Local.giveBack gas) f fun _ g => g = f.credited gas.remaining := by
  simp only [Goes, Ends, Local.giveBack, Gas.giveBack, Amount.add]
  by_cases hmax : f.gas.remaining + gas.remaining ≤ Amount.max
  · simp only [if_pos hmax, Except.map]
    rfl
  · simp only [if_neg hmax, Except.map]

end Goes

theorem Instruction.takeCallReply_goes {reply : CallReply} {into : Span} {f : Frame} :
    Goes (Local.takeCallReply reply into) f fun _ g => reply.Taken into f g := by
  apply Ends.bind Ends.modify
  rintro _ _ rfl
  by_cases hback : (reply.status.isOk || reply.status.isRevert) = true
  · rw [if_pos hback]
    apply Ends.bind Goes.giveBack
    rintro _ _ rfl
    apply Ends.bind Goes.onMemory
    rintro _ _ ⟨mem, hmem, rfl⟩
    apply Goes.push.imp
    rintro _ _ rfl
    refine ⟨?_, rfl, rfl, ?_, fun i => ?_⟩
    · rw [if_pos hback]
      rfl
    · exact Memory.size_set hmem
    · have hsize : (reply.output.extract 0 (min into.length reply.output.size)).size =
          min into.length reply.output.size := by
        rw [ByteArray.size_extract]
        omega
      by_cases hin : into.start ≤ i ∧ i < into.start + min into.length reply.output.size
      · obtain ⟨hlow, hhigh⟩ := hin
        rw [if_pos ⟨hback, hlow, hhigh⟩, Memory.at0_set_of_mem hmem hlow (by rwa [hsize]),
          ← Nat.zero_add (min _ _), Bytes.at0_extract (by omega), Nat.zero_add]
      · rw [if_neg fun h => hin h.2]
        exact Memory.at0_set hmem (by rw [hsize]; omega)
  · rw [if_neg hback]
    by_cases hfailed : reply.status = .hostFailure
    · rw [if_pos hfailed]
      exact Ends.throw trivial
    · rw [if_neg hfailed]
      apply Goes.push.imp
      rintro _ _ rfl
      refine ⟨?_, ?_, rfl, rfl, fun i => ?_⟩
      · rw [if_neg hback]
        rfl
      · have hok : reply.status.isOk = false := by
          rw [Bool.or_eq_true] at hback
          exact Bool.eq_false_iff.mpr fun h => hback (.inl h)
        rw [hok]
        rfl
      · rw [if_neg fun h => hback h.1]

theorem Price.forwarded_eq {r : Rules} {left given : Nat} {requested : Word} (hleft : left < Amount.max)
    (hgiven : given = Price.forwarded r left requested) (hle : given ≤ left) :
    given = if r.since .tangerine then min requested.toNat (left - left / 64)
      else requested.toNat := by
  have hmax : Amount.max = UInt64.size - 1 := rfl
  rw [hgiven] at hle ⊢
  simp only [Price.forwarded, Price.allButOne64th, Word.clamp] at hle ⊢
  by_cases hsince : r.since .tangerine = true
  · rw [if_pos hsince, if_pos hsince]
    omega
  · rw [if_neg hsince] at hle ⊢
    rw [if_neg hsince]
    omega

/-- The stipend comes out of what the transfer of value costs, so it fits in 64 bits too. -/
theorem CallTerms.Asked.stipend {c : CallTerms} {found : Existence} {left given : Nat} {r : CallRequest}
    {into : Span} {f g : Frame} (hasked : c.Asked found left given r into f g)
    (hmax : f.gas.remaining ≤ Amount.max) :
    r.gasLimit = given + if c.value ≠ 0 then 2300 else 0 := by
  have hprice := Price.le_call f.rules (c.value ≠ 0) (c.creates && found.absent) found.cold
  have hpaid := hasked.paid
  have hgiven := hasked.affordable
  rw [hasked.gasLimit]
  simp only [CallTerms.price] at hpaid
  by_cases hvalue : c.value ≠ 0
  · rw [decide_eq_true hvalue] at hprice hpaid
    rw [if_pos hvalue, if_pos hvalue, Amount.addClamped, Price.stipend]
    simp only [if_true] at hprice
    omega
  · rw [if_neg hvalue, if_neg hvalue]
    rfl

namespace Machine

variable {h : Host σ} {s t : Machine σ} {op : Opcode} {c : CallTerms}

theorem nested_eq_ok {α : Type} {x : Nested σ α} {a : α} (ht : nested x s = .ok a t) :
    x s.world = .ok (a, t.world) ∧ t.frame = s.frame := by
  simp only [nested] at ht
  split at ht
  · rename_i hx
    cases ht
    exact ⟨hx, rfl⟩
  · cases ht

theorem execute_eq_nest {x : Exec σ Request} (hop : op.callTerms? s.frame.stack = some c)
    (hx : op.request? h = some x) : execute h (some op) s = Instruction.nest h x s := by
  have hcharge : (here (Local.charge op.info.gas) : Exec σ Unit) s = .ok () s := by
    rw [Opcode.gas_of_callTerms hop]
    rfl
  rw [← Opcode.run_eq_nest hx]
  exact Exec.bind_ok hcharge

/-- What a step that calls has asked of its host and taken back. -/
theorem execute_calls (hs : s.frame.Solid) (hop : op.callTerms? s.frame.stack = some c)
    (ht : execute h (some op) s = .ok () t) :
    ∃ found left given r into reply w g, h.existence c.callee s.world = .ok found w ∧
      h.call r w = .ok (reply, t.world) ∧ c.Asked found left given r into s.frame g ∧
      reply.Taken into g t.frame := by
  obtain ⟨x, hx⟩ := Opcode.request_of_callTerms h hop
  rw [execute_eq_nest hop hx] at ht
  obtain ⟨r, v, hask, hserve⟩ := Exec.bind_eq_ok ht
  obtain ⟨found, left, given, q, into, rfl, hfound, hasked⟩ := (request_goes hs hop hx).ok hask
  obtain ⟨reply, u, hreply, htake⟩ := Exec.bind_eq_ok hserve
  obtain ⟨hcall, hsame⟩ := nested_eq_ok hreply
  obtain ⟨htake, hworld⟩ := Exec.here_eq_ok htake
  have htaken := takeCallReply_goes.ok htake
  rw [hsame] at htaken
  exact ⟨found, left, given, q, into, reply, _, _, hfound, by rw [hcall, hworld], hasked, htaken⟩

theorem request_answers {x : Exec σ Request} (hs : s.frame.Solid)
    (hop : op.callTerms? s.frame.stack = some c) (hx : op.request? h = some x) {e : Fault} :
    x s ≠ .error (.fault e) t := by
  intro he
  -- Calls ask for no refund, so a host that refuses none has the same request.
  let lenient : Host σ := { h with refund := fun _ w => .ok w }
  have hsame : op.request? lenient = some x := by
    cases op <;> exact hx
  have hpays : Exec.Pays lenient True 1 x s _ := Opcode.request?_pays hsame
  unfold Exec.Pays at hpays
  replace hpays := hpays fun _ => hs
  rw [he] at hpays
  obtain ⟨-, loose⟩ | ⟨-, amount, w, failed⟩ := hpays
  · exact loose trivial
  · cases failed

/-- A step that calls has an answer unless the host has none, or gives back more gas than it was given. -/
theorem execute_answers (hs : s.frame.Solid) (hmax : s.frame.gas.remaining ≤ Amount.max)
    (hop : op.callTerms? s.frame.stack = some c) {e : Fault}
    (he : s.settle (execute h (some op)) = .error e) :
    ∃ r w, h.call r w = .error e ∨
      ∃ reply w', h.call r w = .ok (reply, w') ∧ r.gasLimit < reply.gas.remaining := by
  obtain ⟨x, hx⟩ := Opcode.request_of_callTerms h hop
  rw [settle_congr (execute_eq_nest hop hx)] at he
  cases hask : x s with
  | error ending u =>
    cases ending with
    | fault e => exact absurd hask (request_answers hs hop hx)
    | status e =>
      simp only [settle, Instruction.nest, Bind.bind, EStateM.bind, hask] at he
      cases he
  | ok r u =>
    have hpays : Exec.Pays h True 1 x s _ := Opcode.request?_pays hx
    unfold Exec.Pays at hpays
    replace hpays := hpays fun _ => hs
    rw [hask] at hpays
    obtain ⟨hfollows, hasks⟩ := hpays
    obtain ⟨-, -, -, q, into, rfl, -, -⟩ := (request_goes hs hop hx).ok hask
    have hserve : Instruction.nest h x s = serve h (.call q into) u := Exec.bind_ok hask
    rw [settle_congr hserve, settle_serve_call] at he
    cases hcall : h.call q u.world with
    | error fault =>
      rw [hcall] at he
      cases he
      exact ⟨q, u.world, .inl hcall⟩
    | ok p =>
      rw [hcall] at he
      have hresumes : u.frame.Resumes True p.1.gas.remaining _ :=
        Frame.takeCallReply_resumes (fun hP => (hfollows.frame.solid hP).1) hasks.fits
      rw [Except.map_eq_error he] at hresumes
      cases hresumes with
      | outOfRange loose => exact absurd trivial loose
      | overflow large =>
        have hspent := hasks.spent
        simp only [Request.gasLimit] at hspent
        exact ⟨q, u.world, .inr ⟨p.1, p.2, hcall, by omega⟩⟩

/-- A call with all that passes between the frame that makes it and the callee. The frame pays for the
growth of memory to the ends of both ranges, which telescopes, and for the call; of what is left then the
callee gets at most all but one 64th, or before Tangerine what was asked for, and a stipend with value. The
input is what memory held before. Afterwards only the range for the output has changed, and only if the
callee did not fail. The step has an answer unless the call has none or gives back more gas than went
along. -/
theorem call_settles {i : Invocation} {limit : Nat} {w : σ} (hlimit : limit ≤ Amount.max)
    (reached : h.StepsTo ⟨.start i limit, w⟩ s) (hbyte : op.byte = s.frame.nextByte)
    (hop : op.callTerms? s.frame.stack = some c) :
    (∀ t, s.step h = .ok t → t.frame.status = .running →
      ∃ found left given r reply w', h.existence c.callee s.world = .ok found w' ∧
        h.call r w' = .ok (reply, t.world) ∧
        left + c.price s.frame found + s.frame.gas.increment (c.words s.frame) =
          s.frame.gas.remaining ∧
        given ≤ left ∧
        given = (if s.frame.rules.since .tangerine then min c.requested.toNat (left - left / 64)
          else c.requested.toNat) ∧
        r.gasLimit = given + (if c.value ≠ 0 then 2300 else 0) ∧
        r.input = s.frame.memory.data.window c.inOffset c.inLength ∧
        t.frame.gas.remaining = left - given +
          (if reply.status.isOk || reply.status.isRevert then reply.gas.remaining else 0) ∧
        c.operands ≤ s.frame.stack.items.length ∧
        t.frame.stack.items =
          (if reply.status.isOk then 1 else 0) :: s.frame.stack.items.drop c.operands ∧
        t.frame.returnData = reply.output ∧
        t.frame.memory.size = 32 * c.words s.frame ∧
        ∀ pos, t.frame.memory.data.at0 pos =
          if (reply.status.isOk || reply.status.isRevert) ∧ c.outOffset ≤ pos ∧
              pos < c.outOffset + min c.outLength reply.output.size then
            reply.output.at0 (pos - c.outOffset)
          else s.frame.memory.data.at0 pos) ∧
    ∀ e, s.step h = .error e → ∃ r w', h.call r w' = .error e ∨
      ∃ reply w'', h.call r w' = .ok (reply, w'') ∧ r.gasLimit < reply.gas.remaining := by
  obtain ⟨hmemory, houtput⟩ := steps_solid (Frame.start_solid i limit) reached
  have hsolid : s.passed.frame.Solid := ⟨hmemory, houtput⟩
  have hmax : s.frame.gas.remaining ≤ Amount.max := (steps_kept reached).fits hlimit
  refine ⟨fun t ht running => ?_, fun e he => ?_⟩
  · obtain ⟨hexecute, htrades⟩ | herror | ⟨-, hended⟩ := (step_trades hbyte).1 t ht
    · obtain ⟨found, left, given, r, into, reply, w', g, hfound, hcall, hasked, htaken⟩ :=
        execute_calls hsolid hop hexecute
      have hpaid : left + c.price s.frame found + s.frame.gas.increment (c.words s.frame) =
          s.frame.gas.remaining := hasked.paid
      have hless : left < Amount.max := by
        have hprice :=
          Price.le_call s.frame.rules (c.value ≠ 0) (c.creates && found.absent) found.cold
        simp only [CallTerms.price] at hpaid
        omega
      refine ⟨found, left, given, r, reply, w', hfound, hcall, hpaid, hasked.affordable,
        Price.forwarded_eq hless hasked.forwarded hasked.affordable, hasked.stipend hmax,
        hasked.input, ?_, ?_, ?_, htaken.returnData, ?_, fun pos => ?_⟩
      · rw [htaken.gas, hasked.gas]
      · rw [Opcode.operands_of_callTerms hop]
        exact htrades.enough
      · rw [htaken.stack, hasked.stack]
        rfl
      · rw [htaken.size, hasked.size]
        rfl
      · rw [htaken.bytes, hasked.bytes, hasked.length]
        by_cases hlen : c.outLength = 0
        · rw [if_neg (by omega), if_neg (by omega)]
          rfl
        · rw [hasked.start hlen]
          rfl
    · rw [running] at herror
      cases herror
    · exact absurd running hended
  · rw [step_eq, Opcode.ofByte?_eq_some_iff.mpr hbyte] at he
    exact execute_answers hsolid hmax hop he

end Machine

/-- A host whose calls all return the same two bytes and 10 gas. -/
def Host.prompt : Host Unit :=
  { Host.mute with
    existence := fun _ => pure ⟨false, false⟩
    call := fun _ _ => .ok (⟨.returned, .ofLimit 10, ⟨#[7, 8]⟩⟩, ()) }

namespace Machine

/-- Code that sends a value of 1 and asks for more gas than it has, with room for three bytes. -/
def sending : Invocation :=
  { storing with code := .ofBytes ⟨#[0x60, 3, 0x60, 0, 0x60, 2, 0x60, 0, 0x60, 1, 0x60, 0x0c,
      0x62, 0xff, 0xff, 0xff, 0xf1]⟩ }

def sendingTerms : CallTerms := ⟨0xffffff, 0x0c, 1, true, 7, 0, 2, 0, 3⟩

theorem call_settles_sending :
    ∃ s t : Machine Unit, Host.prompt.StepsTo ⟨.start sending 100000, ()⟩ s ∧
      s.step .prompt = .ok t ∧ t.frame.status = .running ∧
      (∃ r : CallRequest, r.gasLimit = 91757 ∧ (Host.prompt.call r ()).isOk) ∧
      t.frame.gas.remaining = 1429 ∧ t.frame.stack.items = [1] ∧ t.frame.memory.data.at0 1 = 8 := by
  have hrun : (runFor .prompt 7 ⟨.start sending 100000, ()⟩).map (fun s => decide
      (Opcode.call.byte = s.frame.nextByte ∧
        Opcode.call.callTerms? s.frame.stack = some sendingTerms ∧
        s.frame.stack.items.drop sendingTerms.operands = [] ∧
        s.frame.rules.since .tangerine = true ∧
        s.frame.gas.remaining = 99979 ∧
        sendingTerms.price s.frame ⟨false, false⟩ = 9100 ∧
        s.frame.gas.increment (sendingTerms.words s.frame) = 3 ∧
        (s.step .prompt).map (·.frame.status) = .ok .running)) = .ok true := by
    decide +kernel
  obtain ⟨s, hs, hfound⟩ := Except.map_eq_ok hrun
  obtain ⟨hbyte, hterms, hrest, hsince, hgas, hprice, hgrowth, hruns⟩ := of_decide_eq_true hfound
  obtain ⟨t, ht, running⟩ := Except.map_eq_ok hruns
  have reached := steps_of_runFor hs
  obtain ⟨hsettles, -⟩ := call_settles (by decide) reached hbyte hterms
  obtain ⟨_, left, given, r, _, _, hexists, hcall, hpaid, -, hgiven, hlimit, -, hleft, -, hstack, -, -,
    hbytes⟩ := hsettles t ht running
  cases hexists
  cases hcall
  rw [hprice, hgrowth, hgas] at hpaid
  rw [if_pos hsince, show sendingTerms.requested.toNat = 0xffffff from rfl] at hgiven
  rw [if_pos (by decide)] at hlimit
  replace hleft : t.frame.gas.remaining = left - given + 10 := hleft
  refine ⟨s, t, reached, ht, running, ⟨r, by omega, rfl⟩, by omega, ?_, hbytes 1⟩
  rw [hstack, hrest]
  rfl

end Machine

end MeteredVM
