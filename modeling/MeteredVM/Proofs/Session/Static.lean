import MeteredVM.Proofs.Frame.World
import MeteredVM.Proofs.Session.Call
import MeteredVM.Proofs.Session.Frugal

namespace MeteredVM

open Journal Relation

namespace Journal

variable {db : Database} {i j k : Journal}

/-- The state is the same, apart from which accounts are touched. -/
structure Unchanged (db : Database) (j k : Journal) : Prop where
  values (a : Address) : (k.view db a).untouched = (j.view db a).untouched
  logs : k.logs = j.logs
  refund : k.refund = j.refund

theorem Unchanged.of_view (hv : k.view db = j.view db) (hl : k.logs = j.logs)
    (hr : k.refund = j.refund) : j.Unchanged db k :=
  ⟨fun a => by rw [hv], hl, hr⟩

theorem Unchanged.trans (h : i.Unchanged db j) (h' : j.Unchanged db k) : i.Unchanged db k :=
  ⟨fun a => (h'.values a).trans (h.values a), h'.logs.trans h.logs, h'.refund.trans h.refund⟩

theorem Looks.unchanged (h : Looks db j k) : j.Unchanged db k := by
  obtain ⟨-, hl, hr⟩ := h.others
  exact .of_view h.view hl hr

theorem Restored.unchanged (h : Restored db j k) : j.Unchanged db k := by
  obtain ⟨-, hl, hr⟩ := h.others
  exact .of_view h.view hl hr

theorem touch_unchanged (j : Journal) (a : Address) : j.Unchanged db (j.touch a) :=
  ⟨untouched_touch j a, touch_logs j a, touch_refund j a⟩

theorem Paid.unchanged {source target : Address} {value : Word}
    (h : j.Paid db source target value k) (hv : source = target ∨ value = 0) :
    j.Unchanged db k := by
  cases h with
  | free => exact .of_view rfl rfl rfl
  | moved payer payee enough =>
    refine ⟨fun a => ?_, ?_, ?_⟩
    · have hbalance : paidBalance source target value a (j.view db a).balance =
          (j.view db a).balance := by
        simp only [paidBalance]
        obtain rfl | rfl := hv
        · split
          · exact BitVec.sub_add_cancel _ _
          · rfl
        · simp
      rw [view_moved payer payee, hbalance]
      rfl
    · rw [Journal.moved]
      exact (touch_logs _ target).trans (touch_logs j source)
    · rw [Journal.moved]
      exact (touch_refund _ target).trans (touch_refund j source)

def Still (db : Database) (j k : Journal) : Prop := j.Extends k ∧ j.Unchanged db k

theorem Still.refl (j : Journal) : j.Still db j := ⟨.refl j, .of_view rfl rfl rfl⟩

theorem Still.trans (h : i.Still db j) (h' : j.Still db k) : i.Still db k :=
  ⟨h.1.trans h'.1, h.2.trans h'.2⟩

theorem KeptCall.still {r : CallRequest} (h : j.KeptCall db (Still db) r k)
    (hv : r.source = r.target ∨ r.value = 0) : j.Still db k := by
  obtain ⟨i, l, hpaid, ⟨hextends, hran⟩, hcommit⟩ := h
  refine ⟨(hpaid.extends.trans hextends).committed hcommit, ?_⟩
  obtain ⟨m, hlooks, hpaid⟩ := hpaid
  have hdeeper : j.Unchanged db j.deeper := .of_view rfl rfl rfl
  have hopen : j.Unchanged db m := hdeeper.trans hlooks.unchanged
  have hpay : m.Unchanged db i := (touch_unchanged m r.target).trans (hpaid.unchanged hv)
  rw [commit_eq_ok hcommit]
  exact ((hopen.trans hpay).trans hran).trans (.of_view rfl rfl rfl)

end Journal

namespace Invocation

variable {i : Invocation} {r : CallRequest}

theorem MayCall.isStatic (h : i.MayCall r) (hi : i.isStatic = true) : r.isStatic = true := by
  cases h with
  | call | callCode | delegateCall => exact hi
  | staticCall => rfl

/-- A static call takes no value from one account to another. -/
theorem MayCall.moves_nothing (h : i.MayCall r) (hr : r.isStatic = true) :
    r.source = r.target ∨ r.value = 0 := by
  cases h with
  | call callee value input gas allowed =>
    obtain hwritable | hzero := allowed
    · rw [hwritable] at hr
      cases hr
    · exact .inr hzero
  | callCode | delegateCall => exact .inl rfl
  | staticCall => exact .inr rfl

theorem MayCall.payable (h : i.MayCall r) (hr : r.isStatic = true) (db : Database) (j : Journal) :
    j.Payable db r.source r.target r.value := by
  obtain hself | hzero := h.moves_nothing hr
  · rw [hself]
    exact payable_self db j r.target r.value
  · rw [hzero]
    exact payable_zero db j r.source r.target

end Invocation

def Host.StillCalls (h : Host Session) (db : Database) : Prop :=
  ∀ (i : Invocation) (r : CallRequest) (s : Session), i.MayCall r → r.isStatic = true →
    r.gasLimit ≤ Amount.max →
      Yields (h.call r) s (fun _ => False) fun _ t => s.journal.Still db t.journal

namespace Executor

variable {x : Executor} {i : Invocation} {s : Session}

/-- A step of a static frame leaves the state as it was if its calls do. -/
theorem static_keeps {inner : Option (Host Session)} (j : Journal) (hi : i.isStatic = true)
    (hcalls : (x.host inner).StillCalls x.database) :
    Machine.Keeps (x.host inner) i (fun _ => False) fun m => j.Still x.database m.world.journal := by
  rintro s rfl - hmax hs hleads
  have still : ∀ w, (x.host inner).Acts s.frame.invocation s.world w →
      j.Still x.database w.journal := by
    intro w hw
    induction hw with
    | refl => exact hs
    | tail _ hact ih =>
      obtain hlooks | ⟨hwritable, -⟩ := host_act hact
      · exact ih.trans ⟨hlooks.extends, hlooks.unchanged⟩
      · rw [hi] at hwritable
        cases hwritable
  -- Such a frame can not ask for a creation, and its calls are static.
  apply hleads.keeps still
  · intro r t asking
    have hused := still _ asking.used
    have hpermitted := asking.permitted
    have hpaid := asking.paid
    cases r with
    | call r into =>
      simp only [Request.gasLimit] at hpaid
      have hcall := hcalls _ r t.world hpermitted (Invocation.MayCall.isStatic hpermitted hi)
        (by omega)
      obtain ⟨hok, herror⟩ := hcall.state
      refine ⟨fun u hu => ?_, herror⟩
      obtain ⟨-, hu⟩ := hok u hu
      exact hused.trans hu
    | create r =>
      have hwritable := Invocation.MayCreate.writable hpermitted
      rw [hi] at hwritable
      cases hwritable
  · intro e fails
    have hwritable := fails.1
    rw [hi] at hwritable
    cases hwritable

theorem hostWithin_stillCalls (x : Executor) (hp : x.transfers.Sound) {room : Nat}
    {h : Host Session} (hx : x.hostWithin room = some h) : h.StillCalls x.database := by
  induction room generalizing h with
  | zero => cases hx
  | succ room ih =>
    cases hx
    intro i r s hr hstatic hgas
    have hpay := hr.payable hstatic x.database s.journal
    have hrun : ∀ h ∈ x.hostWithin room, ∀ (code : Bytes) (u : Session),
        Yields (runCode h (x.callInvocation r code) r.gasLimit) u (fun _ => False) fun f v =>
          f.Solid ∧ u.journal.Still x.database v.journal := by
      intro h hh code u
      have hcalls := ih hh
      have hfrugal := x.hostWithin_frugal hh
      cases room with
      | zero => cases hh
      | succ room =>
        cases hh
        have hkeeps := static_keeps (i := x.callInvocation r code) u.journal hstatic hcalls
        apply (runCode_yields hkeeps hfrugal hgas (Still.refl u.journal)).imp
        rintro f v ⟨hf, g, hv⟩
        exact ⟨hf, hv⟩
    refine (call_yields hp hpay Still.refl (fun j k h => h.1) fun h hh code _ u _ _ _ =>
      hrun h hh code.value u).imp ?_
    rintro reply t (hrestored | ⟨-, j, hlooks, hkept⟩)
    · exact ⟨hrestored.extends, hrestored.unchanged⟩
    · exact Still.trans ⟨hlooks.extends, hlooks.unchanged⟩
        (hkept.still (hr.moves_nothing hstatic))

/-- A static call that an instruction asks for leaves the state as it was, whenever it is made. -/
theorem static_call_changes_nothing (x : Executor) (hp : x.transfers.Sound) {room : Nat}
    {h : Host Session} (hx : x.hostWithin room = some h) {m n : Machine Session} {r : CallRequest}
    {into : Span} (hask : m.Asking h (.call r into) n) (hstatic : r.isStatic = true)
    (hgas : m.frame.gas.remaining ≤ Amount.max) (s : Session) :
    ∃ reply t, h.call r s = .ok (reply, t) ∧ s.journal.Unchanged x.database t.journal := by
  have hpaid := hask.paid
  simp only [Request.gasLimit] at hpaid
  have hstill := hostWithin_stillCalls x hp hx _ r s hask.permitted hstatic (by omega)
  cases hr : h.call r s with
  | ok p => exact ⟨p.1, p.2, rfl, (hstill.ok hr).2⟩
  | error e => exact (hstill.error hr).elim

end Executor

def Database.writer : Database :=
  { Database.empty with
    account := fun a => if a = 1 then some { codeHash := 1, code := none } else none
    code := fun _ => ⟨#[0x60, 0, 0x60, 0, 0x55]⟩ }

/-- A frame that is about to make a static call of that account. -/
def Machine.staticCaller : Machine Session where
  frame :=
    { Frame.start ⟨ByteArray.empty, .ofBytes ⟨#[0xfa]⟩, 2, 3, 0, false, .ofHardfork .london⟩ 50000 with
      stack := ⟨[10000, 1, 0, 0, 0, 0]⟩ }
  world := { journal := .ofHardfork .london }

/-- The call gets as far as the write, which ends it. -/
theorem Executor.static_call_changes_nothing_writer :
    ∃ h r into n reply t,
      (⟨{}, .ofHardfork .london, .writer, .balances⟩ : Executor).hostWithin maxFrames = some h ∧
        Machine.staticCaller.Asking h (.call r into) n ∧ r.isStatic = true ∧
        h.call r n.world = .ok (reply, t) ∧ reply.status = .writeInStaticCall ∧
        n.world.journal.Unchanged .writer t.journal := by
  have hop : Opcode.ofByte? 0xfa = some .staticCall := by
    simp only [Opcode.ofByte?, Opcode.decoded, Array.getElem?_ofFn]
    rfl
  have hask : ∃ h r into n,
      (⟨{}, .ofHardfork .london, .writer, .balances⟩ : Executor).hostWithin maxFrames = some h ∧
        Machine.staticCaller.Asking h (.call r into) n ∧ r.isStatic = true ∧
        (h.call r n.world).toOption.map (·.1.status) = some .writeInStaticCall :=
    ⟨_, _, _, _, rfl, ⟨_, _, hop, rfl, rfl⟩, rfl, by decide +kernel⟩
  obtain ⟨h, r, into, n, hx, hask, hstatic, hviolates⟩ := hask
  obtain ⟨reply, t, hr, ht⟩ :=
    static_call_changes_nothing _ (.inl rfl) hx hask hstatic (by decide) n.world
  rw [hr] at hviolates
  exact ⟨h, r, into, n, reply, t, hx, hask, hstatic, hr, Option.some.inj hviolates, ht⟩

end MeteredVM
