import MeteredVM.Proofs.Frame.Sentry
import MeteredVM.Proofs.Journal.Ledger
import MeteredVM.Proofs.Session.Course
import MeteredVM.Proofs.Session.Frugal

namespace MeteredVM

open Journal

/-- The slots of an account follow from what is loaded of them and from whether it was created. -/
theorem Journal.view_slots_of_see {db : Database} {j k : Journal} {a : Address}
    (slots : Facet.slots.see k.accounts a = Facet.slots.see j.accounts a)
    (created : Facet.created.see k.accounts a = Facet.created.see j.accounts a) :
    (k.view db a).slots = (j.view db a).slots := by
  have hview : ∀ i : Journal, (i.view db a).slots = fun key =>
      (((Facet.slots.see i.accounts a).getD ∅)[key]?).getD
        (if (Facet.created.see i.accounts a).getD false then 0 else db.slot a key) := by
    intro i
    funext key
    cases hx : i.accounts[a]? with
    | none =>
      simp only [view_of_absent hx, Account.view, Facet.see, hx, fresh_slots, unloaded, fresh_created]
      rfl
    | some x =>
      simp only [view_of_loaded hx, Account.view, Facet.see, hx]
      rfl
  rw [hview, hview, slots, created]

structure Journal.KeepsSlots (db : Database) (j k : Journal) : Prop where
  values (a : Address) : (k.view db a).slots = (j.view db a).slots
  slots : Facet.slots.Retains j k
  created : Facet.created.Retains j k

namespace Journal.KeepsSlots

variable {db : Database} {i j k l : Journal}

theorem of_rests (slots : Facet.slots.Rests j k) (created : Facet.created.Rests j k) :
    KeepsSlots db j k where
  values a := view_slots_of_see (congrFun slots.see a) (congrFun created.see a)
  slots := slots.retains
  created := created.retains

theorem of_calm (h : j.Calm k) : KeepsSlots db j k := of_rests h.slots h.created

theorem refl (j : Journal) : KeepsSlots db j j := of_calm (.refl j)

theorem trans (h : KeepsSlots db i j) (h' : KeepsSlots db j k) : KeepsSlots db i k where
  values a := (h'.values a).trans (h.values a)
  slots := h.slots.trans h'.slots
  created := h.created.trans h'.created

theorem looks (h : Looks db j k) : KeepsSlots db j k where
  values a := by rw [Looks.view h]
  slots := .of_extends h.extends
  created := .of_extends h.extends

theorem destroy (j : Journal) (a target : Address) (x : Account) :
    KeepsSlots db j (j.destroy a target x) :=
  of_rests (.destroy rfl (fun _ _ _ => rfl) j) (.destroy rfl (fun _ _ _ => rfl) j)

theorem undone (h : KeepsSlots db j.deeper k) (reverted : k.revert j.mark = .ok l) :
    KeepsSlots db j l := by
  obtain ⟨slots, entries⟩ := h.slots.revert reverted
  obtain ⟨created, -⟩ := h.created.revert reverted
  refine ⟨fun a => ?_, ⟨[], entries, slots⟩, ⟨[], entries, created⟩⟩
  exact view_slots_of_see (congrFun slots a) (congrFun created a)

end Journal.KeepsSlots

/-- Payments concern balances, nonces, code and touching at most, whether they are made or refused. -/
def TransferPolicy.Calm (p : TransferPolicy) : Prop :=
  ∀ source target value j, Journal.Calm j (leftBy (p.move source target value) j)

theorem TransferPolicy.calm_of_known {p : TransferPolicy}
    (h : p = balances ∨ p = free ∨ p = denied ∨ ∃ s, p = failing s) : p.Calm := by
  intro source target value j
  obtain rfl | rfl | rfl | ⟨s, rfl⟩ := h
  · exact .transfer source target value j
  · exact .refl j
  · exact .refl j
  · exact .refl j

/-- What goes on has no more gas than a stipend, and creates nothing. -/
def Activity.Starved : Activity → Prop
  | .call r => r.gasLimit ≤ 2300
  | .callCode r _ => r.gasLimit ≤ 2300
  | .create _ => False
  | .payment => True
  | .step f => f.gas.remaining ≤ 2300

namespace Executor

variable {x : Executor} {i : Invocation} {j k : Journal} {s t : Session} {c d : Scene}

theorem slots_charter (hp : x.transfers.Calm) :
    x.Charter Set.univ ∅ (KeepsSlots x.database) (KeepsSlots x.database) where
  refl := .refl
  trans := .trans
  weaken h := h
  after := .trans
  looks := .looks
  touch j a := .of_calm (.touch j a)
  deeper j := .of_calm (.deeper j)
  commit committed := .of_calm (.commit committed)
  raise _ raised := .of_calm (.raiseNonce raised)
  create founded _ := founded.elim
  setCode _ _ founded _ := founded.elim
  pay _ _ _ paid := by
    rw [← leftBy_eq_of_ok paid]
    exact .of_calm (hp _ _ _ _)
  refused _ _ _ h := by
    rw [← leftBy_eq_of_error h]
    exact .of_calm (hp _ _ _ _)
  undone := .undone

theorem Acted.keepsSlots (h : x.Acted i j k) : KeepsSlots x.database j k := by
  cases h with
  | looks looks => exact .looks looks
  | destroy target writable =>
    obtain ⟨l, hlooks, hl | ⟨y, -, -, hl⟩⟩ := selfDestruct_left x.database i.address target j
    · rw [hl]
      exact .looks hlooks
    · rw [hl]
      exact (KeepsSlots.looks hlooks).trans (.destroy l i.address target y)
  | refund writable recorded => exact .of_rests (.recordRefund recorded) (.recordRefund recorded)
  | log l writable => exact .of_calm (.log j l)

def readOnly (x : Executor) (inner : Option (Host Session)) : Host Session :=
  { x.host inner with writeSlot := fun _ _ _ => throw {} }

theorem readOnly_acts {inner : Option (Host Session)} (h : (x.readOnly inner).Acts i s t) :
    KeepsSlots x.database s.journal t.journal := by
  induction h with
  | refl => exact .refl _
  | tail _ hact ih =>
    obtain hacted | ⟨-, key, new, rfl⟩ := host_acted hact
    · exact ih.trans hacted.keepsSlots
    · exact ih

structure Starves (x : Executor) (c : Scene) : Prop where
  ruled : c.Ruled x
  starved : c.activity.Starved

section Sentry

variable (hsentry : x.rules.hasSentry = true)

theorem Starves.next (h : x.Starves c) (hnext : x.Next c d) : x.Starves d := by
  refine ⟨ruled_next h.ruled hnext, ?_⟩
  have hstarved := h.starved
  cases hnext with
  | loadCode loaded => exact hstarved
  | payCall opened => trivial
  | openCall opened nonempty => exact hstarved
  | payCreate opened | openCreate opened => exact hstarved.elim
  | @step room f s n running stepped =>
    have hspent := (Machine.step_spends (x.host_frugal room) (P := False) False.elim stepped).follows
    exact Nat.le_trans hspent.paid hstarved
  | @nest room f s r n running asking =>
    have hpaid := asking.paid
    have hcost := asking.cost_le
    replace hstarved : f.gas.remaining ≤ 2300 := hstarved
    cases r with
    | call r into =>
      simp only [Request.gasLimit] at hpaid
      exact Nat.le_trans (by omega : r.gasLimit ≤ f.gas.remaining) hstarved
    | create r =>
      -- A creation costs more than the sentry asks for.
      have hdear : 2300 < Price.creation := by decide
      simp only [Request.cost] at hcost
      omega

include hsentry

theorem Starves.frame {room : Nat} {f : Frame} (h : x.Starves ⟨room, .step f, s⟩) : f.Starved :=
  ⟨(congrArg Rules.hasSentry (h.ruled f rfl)).trans hsentry, h.starved⟩

theorem starves_guards : x.Guards x.Starves Set.univ ∅ (KeepsSlots x.database)
    (KeepsSlots x.database) where
  next := Starves.next
  payer _ := Set.mem_univ _
  creator _ := Set.mem_univ _
  founded h _ := h.starved.elim
  step {room f s n} h running nested stepped := by
    left
    have hstepped : Machine.step (x.readOnly (x.hostWithin room)) ⟨f, s⟩ = .ok n :=
      (Machine.step_starved (h.frame hsentry) _).trans stepped
    obtain ⟨-, used | ⟨r, m, asking, ran⟩⟩ := Machine.step_ran hstepped
    · exact readOnly_acts used
    · have hafter : (x.readOnly (x.hostWithin room)).after m.world r =
          (x.host (x.hostWithin room)).after m.world r := by
        cases r <;> rfl
      exact (readOnly_acts asking.used).trans
        (nested r m _ ((Machine.asking_congr rfl).mp asking) (hafter ▸ ran))

/-- The step that is about to be made does not write, whatever a write would do. -/
def Unwriting (x : Executor) (c : Scene) : Prop :=
  ∀ f, c.activity = .step f → ∀ write,
    Machine.step { x.host (x.hostWithin c.room) with writeSlot := write } ⟨f, c.session⟩ =
      Machine.step (x.host (x.hostWithin c.room)) ⟨f, c.session⟩

/-- Where the sentry is in force, a call with no more gas than a stipend never gets to a write, nor do
the calls that are nested in it, none of which has more gas; it never gets to a creation; and after it
every slot has the value that it had before. -/
theorem starved_call_writes_nothing (hp : x.transfers.Calm) {r : CallRequest}
    (hgas : r.gasLimit ≤ 2300) {activity : Activity}
    (opens : activity = .call r ∨ ∃ code, activity = .callCode r code) (room : Nat) (s : Session) :
    (∀ d, x.Reaches ⟨room, activity, s⟩ d → d.activity.Starved ∧ x.Unwriting d) ∧
      ∀ t, x.leaves ⟨room, activity, s⟩ = .ok t →
        ∀ a key, (t.journal.view x.database a).slots key = (s.journal.view x.database a).slots key := by
  have hstart : x.Starves ⟨room, activity, s⟩ := by
    obtain rfl | ⟨code, rfl⟩ := opens
    · exact ⟨fun _ hf => Activity.noConfusion hf, hgas⟩
    · exact ⟨fun _ hf => Activity.noConfusion hf, hgas⟩
  refine ⟨fun d hd => ?_, fun t left a key => ?_⟩
  · have hd : x.Starves d := by
      induction hd with
      | refl => exact hstart
      | tail _ hnext ih => exact ih.next hnext
    refine ⟨hd.starved, ?_⟩
    obtain ⟨room, _, s⟩ := d
    rintro f rfl write
    exact Machine.step_starved (hd.frame hsentry) write
  · have habides := (starves_guards hsentry).abides (slots_charter hp) room
    have hkept : KeepsSlots x.database s.journal t.journal :=
      habides.leaves (slots_charter hp).pact hstart left
    rw [hkept.values a]

end Sentry

/-- Writes one to the first slot of the account that runs it. -/
def marking : Bytes := ⟨#[0x60, 0x01, 0x60, 0x00, 0x55]⟩

/-- With a stipend it gets no further than the sentry. -/
theorem starved_call_writes_nothing_marking :
    ∃ x : Executor, ∃ r s reply t, x.rules.hasSentry = true ∧ x.transfers.Calm ∧
      r.gasLimit ≤ 2300 ∧ x.callCode (x.hostWithin maxFrames) r marking s = .ok (reply, t) ∧
      (∀ d, x.Reaches ⟨maxFrames, .callCode r marking, s⟩ d →
        d.activity.Starved ∧ x.Unwriting d) ∧
      reply.status = .sentryOutOfGas ∧ (s.journal.view x.database r.address).slots 0 = 0 ∧
      (t.journal.view x.database r.address).slots 0 = 0 := by
  let x : Executor := ⟨{}, .ofHardfork .london, .empty, .balances⟩
  let r := x.outerCall 0x0a ByteArray.empty 2300
  let s : Session := { journal := .ofHardfork .london }
  have hrun : (x.callCode (x.hostWithin maxFrames) r marking s).map (fun p => p.1.status) =
      .ok .sentryOutOfGas := by
    decide +kernel
  obtain ⟨⟨reply, t⟩, hrun, hstatus⟩ := Except.map_eq_ok hrun
  have hsentry : x.rules.hasSentry = true := by decide
  have hcalm : x.transfers.Calm := TransferPolicy.calm_of_known (.inl rfl)
  have hgas : r.gasLimit ≤ 2300 := Nat.le_refl 2300
  have left : x.leaves ⟨maxFrames, .callCode r marking, s⟩ = .ok t := by
    simp only [leaves, hrun]
    rfl
  have hzero : (s.journal.view x.database r.address).slots 0 = 0 := rfl
  obtain ⟨hpoints, hslots⟩ :=
    starved_call_writes_nothing hsentry hcalm hgas (.inr ⟨marking, rfl⟩) maxFrames s
  exact ⟨x, r, s, reply, t, hsentry, hcalm, hgas, hrun, hpoints, hstatus, hzero,
    (hslots t left r.address 0).trans hzero⟩

end Executor

end MeteredVM
