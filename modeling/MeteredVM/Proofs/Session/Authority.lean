import MeteredVM.Proofs.Journal.Apart
import MeteredVM.Proofs.Session.Conservation

namespace MeteredVM

open Journal

/-- The account has lost nothing: its values are the same but for the balance, which may have grown. -/
structure AccountView.Unspent (v w : AccountView) : Prop where
  slots : w.slots = v.slots
  nonce : w.nonce = v.nonce
  codeHash : w.codeHash = v.codeHash
  created : w.created = v.created
  destroyed : w.destroyed = v.destroyed
  balance : v.balance ≤ w.balance

namespace AccountView.Unspent

variable {u v w : AccountView}

theorem refl (v : AccountView) : v.Unspent v := ⟨rfl, rfl, rfl, rfl, rfl, BitVec.le_refl _⟩

theorem trans (h : u.Unspent v) (h' : v.Unspent w) : u.Unspent w where
  slots := h'.slots.trans h.slots
  nonce := h'.nonce.trans h.nonce
  codeHash := h'.codeHash.trans h.codeHash
  created := h'.created.trans h.created
  destroyed := h'.destroyed.trans h.destroyed
  balance := BitVec.le_trans h.balance h'.balance

theorem of_untouched {balance : Word}
    (h : w.untouched = { v.untouched with balance := balance }) (hle : v.balance ≤ balance) :
    v.Unspent w := by
  obtain ⟨hbalance, nonce, codeHash, slots, created, destroyed, -⟩ := AccountView.ext_iff.mp h
  refine ⟨slots, nonce, codeHash, created, destroyed, ?_⟩
  rw [show w.balance = balance from hbalance]
  exact hle

end AccountView.Unspent

theorem le_add_of_uaddOverflow {v w : Word} (h : v.uaddOverflow w = false) : v ≤ v + w := by
  rw [BitVec.le_def, BitVec.toNat_add_of_not_uaddOverflow (Bool.eq_false_iff.mp h)]
  exact Nat.le_add_right _ _

namespace Journal

/-- Value stays accounted for. Where it is, the account loses nothing, and going back to before restores
it. -/
structure Spares (db : Database) (a : Address) (j k : Journal) : Prop where
  sustains : Sustains db j k
  unspent (exact : j.Exact db) : (j.view db a).Unspent (k.view db a)
  restores (exact : j.Exact db) : j.RestoresAt a k

variable {db : Database} {a b source target : Address} {value : Word} {i j k l : Journal}
  {x : Account}

namespace Spares

theorem refl (j : Journal) : Spares db a j j := ⟨.refl j, fun _ => .refl _, fun _ => .refl a j⟩

theorem trans (h : Spares db a i j) (h' : Spares db a j k) : Spares db a i k where
  sustains := h.sustains.trans h'.sustains
  unspent exact := (h.unspent exact).trans (h'.unspent (h.sustains exact).1)
  restores exact := (h.restores exact).trans (h'.restores (h.sustains exact).1)

theorem of_elsewhere (h : Sustains db j k) (h' : j.Elsewhere a k) : Spares db a j k where
  sustains := h
  unspent _ := by rw [h'.view db]; exact .refl _
  restores _ := .of_elsewhere h'

theorem of_eq (entries : k.entries = j.entries) (accounts : k.accounts = j.accounts) :
    Spares db a j k :=
  .of_elsewhere (.rests (.of_eq entries accounts)) (.of_eq entries accounts)

theorem looks (h : Looks db j k) : Spares db a j k where
  sustains := .looks h
  unspent _ := by rw [Looks.view h]; exact .refl _
  restores _ := .of_extends h.extends

theorem touch (j : Journal) (b : Address) : Spares db a j (j.touch b) where
  sustains := .rests (.touch j b)
  unspent _ := .of_untouched (untouched_touch j b a) (BitVec.le_refl _)
  restores _ := .of_extends (touch_extends j b)

theorem moved (hfunded : db.wealth < 2 ^ 256) (hsource : source ≠ a)
    (payer : (j.accounts[source]?).isSome) (payee : (j.accounts[target]?).isSome)
    (enough : value ≤ (j.view db source).balance) : Spares db a j (j.moved source target value) where
  sustains := .of_extends (moved_extends j source target value) fun exact =>
    exact.moved payer payee enough (exact.payable hfunded source target value)
  unspent exact := by
    refine .of_untouched (view_moved payer payee value a) ?_
    have room := exact.payable hfunded source target value
    rw [paidBalance, if_neg hsource]
    split
    · rename_i htarget
      subst htarget
      exact le_add_of_uaddOverflow (room hsource enough)
    · exact BitVec.le_refl _
  restores _ := .of_extends (moved_extends j source target value)

theorem move {p : TransferPolicy} (hp : p.Sound) (hfunded : db.wealth < 2 ^ 256)
    (hsource : source ≠ a) (payer : (j.accounts[source]?).isSome)
    (payee : (j.accounts[target]?).isSome) :
    Spares db a j (leftBy (p.move source target value) j) := by
  suffices h : j.Exact db → Spares db a j (leftBy (p.move source target value) j) from
    ⟨move_sustains hp hfunded payer payee, fun exact => (h exact).unspent exact,
      fun exact => (h exact).restores exact⟩
  intro exact
  have hmove := hp.move payer payee (exact.payable hfunded source target value)
  apply Ends.left
  refine (hmove.refused fun _ k hk => ?_).imp fun _ k hk => ?_
  · subst hk
    exact touch j source
  · cases hk with
    | free => exact refl j
    | moved _ _ enough => exact moved hfunded hsource payer payee enough

theorem destroyed_avoids (hb : b ≠ a) (htarget : target ≠ a) (before : Bool) (balance : Word) :
    (JournalEntry.destroyed b target before balance).Avoids a := by
  refine .of_restore nofun fun x => ?_
  simp only [JournalEntry.restore, if_neg hb, if_neg (not_and_of_not_right _ htarget)]

/-- A destroyed account pays its balance out, and only that. -/
theorem destroy (hfunded : db.wealth < 2 ^ 256) (hb : b ≠ a) (hx : j.accounts[b]? = some x)
    (payee : (j.accounts[target]?).isSome) : Spares db a j (j.destroy b target x) := by
  have hsustains := destroy_sustains hfunded hx payee
  by_cases htarget : target = a
  · subst htarget
    refine ⟨hsustains, fun exact => ?_, fun _ => .of_extends (destroy_extends hx target)⟩
    have hloaded : (((j.emptied b).touch target).accounts[target]?).isSome := by
      rwa [loaded_touch, emptied, update, loaded_modify]
    have hemptied : (j.emptied b).view db target = j.view db target :=
      (Elsewhere.update hb j _).view db
    have hbalance : x.info.balance = (j.view db b).balance := by
      rw [view_of_loaded hx]
      rfl
    have hpaid : ((j.destroy b target x).view db target).untouched =
        { (j.view db target).untouched with
          balance := (j.view db target).balance + x.info.balance } := by
      rw [destroy_of_ne j hb, view_note, view_rebalance hloaded, if_pos rfl, balance_touch, hemptied,
        ← hemptied, ← untouched_touch (j.emptied b) target target]
      rfl
    refine .of_untouched hpaid (le_add_of_uaddOverflow ?_)
    exact exact.payable hfunded b target x.info.balance hb (BitVec.le_of_eq hbalance)
  · refine .of_elsewhere hsustains ?_
    have hnote := fun i : Journal => Elsewhere.note i
      (destroyed_avoids hb htarget x.flags.destroyed x.info.balance)
    by_cases hbt : b = target
    · subst hbt
      rw [destroy_self]
      exact (Elsewhere.update hb j _).trans (hnote _)
    · rw [destroy_of_ne j hbt]
      exact (Elsewhere.update hb j _).trans ((Elsewhere.touch htarget _).trans
        ((Elsewhere.update htarget _ _).trans (hnote _)))

theorem written (hb : b ≠ a) (key present new : Word) :
    Spares db a j (j.written b key present new) := by
  have hchanged : (JournalEntry.slotChanged b key (some present)).Avoids a :=
    .of_restore nofun fun _ => if_neg hb
  refine .of_elsewhere ?_ ((Elsewhere.update hb j _).trans (.note _ hchanged))
  have hupdate : Facet.balance.Rests j
    (j.update b fun y => { y with slots := y.slots.insert key new }) := .update j b fun _ => rfl
  exact .rests (hupdate.trans (.note _ rfl))

theorem undone (h : Spares db a j.deeper k) (reverted : k.revert j.mark = .ok l) :
    Spares db a j l where
  sustains := h.sustains.undone reverted
  unspent exact := by
    rw [view_of_look ((h.restores exact).revert reverted).2]
    exact .refl _
  restores exact := by
    obtain ⟨entries, hlook⟩ := (h.restores exact).revert reverted
    exact ⟨[], entries, hlook⟩

end Spares

end Journal

def Activity.payer? : Activity → Option Address
  | .call r => some r.source
  | .callCode r _ => some r.source
  | .create r => some r.creator
  | .payment | .step _ => none

namespace Executor

variable {x : Executor} {a : Address} {i : Invocation} {j k : Journal} {s t : Session}
  {inner : Option (Host Session)} (hp : x.transfers.Sound) (hfunded : x.database.wealth < 2 ^ 256)

section Charter

include hp hfunded

/-- Whatever is paid, counted, created and undone, if others pay and create and others are created. -/
theorem authority_charter :
    x.Charter { b | b ≠ a } { b | b ≠ a } (Spares x.database a) (Spares x.database a) where
  refl := .refl
  trans := .trans
  weaken h := h
  after := .trans
  looks := .looks
  touch := .touch
  deeper j := .of_eq rfl rfl
  commit committed := by
    rw [commit_eq_ok committed]
    exact .of_eq rfl rfl
  raise creator raised := by
    obtain ⟨rfl, -⟩ := raiseNonce_eq_some raised
    exact .of_elsewhere (.rests (.raised _ _)) (.raised creator _)
  create founded opened := by
    obtain ⟨-, rfl, -⟩ := createCheckpoint_eq_ok opened
    exact .of_elsewhere (.rests (.of_deeper (.opened rfl (fun _ _ balance => balance) _)))
      (.opened founded _)
  setCode j b founded code := .of_elsewhere (.rests (.setCode j b code)) (.setCode founded j code)
  pay mayPay payer payee paid := by
    rw [← leftBy_eq_of_ok paid]
    exact .move hp hfunded mayPay payer payee
  refused mayPay payer payee h := by
    rw [← leftBy_eq_of_error h]
    exact .move hp hfunded mayPay payer payee
  undone := .undone

end Charter

section Act

include hfunded

theorem Acted.spares (hi : i.address ≠ a) (h : x.Acted i j k) : Spares x.database a j k := by
  cases h with
  | looks looks => exact .looks looks
  | destroy target writable =>
    obtain ⟨l, hlooks, hl | ⟨y, hy, payee, hl⟩⟩ :=
      selfDestruct_left x.database i.address target j
    · rw [hl]
      exact .looks hlooks
    · rw [hl]
      exact (Spares.looks hlooks).trans (.destroy hfunded hi hy payee)
  | refund writable recorded =>
    rw [recordRefund_eq_ok recorded]
    exact .of_eq rfl rfl
  | log l writable => exact .of_eq rfl rfl

theorem act_spares (hi : i.address ≠ a) (h : (x.host inner).Act i s t) :
    Spares x.database a s.journal t.journal := by
  obtain hacted | ⟨-, key, new, hwrote⟩ := host_wrote h
  · exact hacted.spares hfunded hi
  · rw [hwrote]
    obtain ⟨l, hlooks, hl | ⟨y, present, -, -, hl⟩⟩ :=
      writeSlot_left x.database i.address key new s.journal
    · rw [hl]
      exact .looks hlooks
    · rw [hl]
      exact (Spares.looks hlooks).trans (.written hi key present new)

theorem acts_spare (hi : i.address ≠ a) (h : (x.host inner).Acts i s t) :
    Spares x.database a s.journal t.journal := by
  induction h with
  | refl => exact .refl _
  | tail _ hact ih => exact ih.trans (act_spares hfunded hi hact)

end Act

/-- The payer was found able to pay before the creation was counted. -/
theorem countCreation_allows {r : CreateRequest} {n : Nat} (h : x.countCreation r s = .ok n t) :
    ∃ i, Looks x.database s.journal i ∧ x.transfers.allows i r.creator r.value = true := by
  have hends : Ends (x.countCreation r) s (fun _ _ => True) fun _ _ =>
      ∃ i, Looks x.database s.journal i ∧ x.transfers.allows i r.creator r.value = true := by
    unfold countCreation
    refine Ends.bind ((Session.require_ends _ _ _).refused fun _ _ _ => trivial) ?_
    rintro - s₁ ⟨h₁, -⟩
    apply Ends.bind .get
    rintro _ _ ⟨rfl, rfl⟩
    split
    · exact .throw trivial
    rename_i hallowed
    apply Ends.bind .get
    rintro _ _ ⟨rfl, rfl⟩
    split
    · apply Ends.bind .modify
      rintro - _ -
      exact .pure ⟨_, h₁, by simpa using hallowed⟩
    · exact .throw trivial
  exact hends.ok h

/-- A creation that is opened is endowed, so its init code runs. -/
theorem endowCreate_of_openCreate {r : CreateRequest} {p : Address × Checkpoint}
    (hp : x.transfers.Sound) (hfunded : x.database.wealth < 2 ^ 256)
    (hs : s.journal.Exact x.database) (opened : x.openCreate r s = .ok p t) :
    ∃ u, x.endowCreate r s = .ok (.ok p, u) := by
  have law : x.Law Set.univ _ _ := conservation_law hp hfunded
  obtain ⟨n, k, hclaims, -, ht⟩ := openCreate_ends.ok opened
  have hcreate := hclaims.createCheckpoint
  obtain ⟨⟨_, hcounts⟩, hcounted, -, hcreator, y, hy, -⟩ := hclaims
  obtain ⟨i, hlooks, hallowed⟩ := countCreation_allows hcounts
  have hrests : Facet.balance.Rests k t.journal :=
    ht ▸ .trans (.of_eq rfl rfl) (.opened rfl (fun _ _ balance => balance) k)
  have hexact : t.journal.Exact x.database := by
    have hk := law.charter.pact.counted (Set.mem_univ _) hcounted
    rw [ht]
    exact (law.charter.create (Set.mem_univ _) hcreate (hk hs).1).1
  have hloaded (b : Address) : (t.journal.accounts[b]?).isSome = (k.accounts[b]?).isSome := by
    rw [ht, Journal.opened, loaded_touch, update, loaded_modify]
    rfl
  have hsame : (t.journal.view x.database r.creator).balance =
      (i.view x.database r.creator).balance := by
    rw [balance_of_rests hrests, hcounted.view, if_pos rfl, Looks.view hlooks]
  obtain ⟨l, hmove⟩ := hp.pays (by rwa [hloaded]) (by rw [hloaded, hy]; rfl)
    (hexact.payable hfunded r.creator p.1 r.value) hallowed hsame
  refine ⟨{ t with journal := l }, ?_⟩
  simp only [endowCreate, bind, StateT.bind, Except.bind, Session.attempt, opened, Session.move, hmove]
  rfl

/-- From here on no code runs on the account. -/
def Idle (x : Executor) (a : Address) (c : Scene) : Prop :=
  ∀ d f, x.Reaches c d → d.activity = .step f → f.invocation.address ≠ a

structure Aloof (x : Executor) (a : Address) (c : Scene) : Prop where
  exact : c.session.journal.Exact x.database
  ruled : c.Ruled x
  idle : x.Idle a c
  payer : c.activity.payer? ≠ some a

section Guards

include hp hfunded

theorem Aloof.next {c d : Scene} (h : x.Aloof a c) (hnext : x.Next c d) : x.Aloof a d := by
  have law : x.Law Set.univ _ _ := conservation_law hp hfunded
  have hgoverned : x.Governed Set.univ c := ⟨Set.subset_univ _, h.ruled⟩
  refine ⟨(law.lapses (law.next hnext hgoverned) h.exact).1, ruled_next h.ruled hnext,
    fun e f he => h.idle e f (.head hnext he), ?_⟩
  cases hnext with
  | loadCode loaded => exact h.payer
  | payCall | openCall | payCreate | openCreate | step => exact nofun
  | @nest room f s r n running asking =>
    -- Whatever a frame asks for is paid by the account that it runs on.
    have hself : f.invocation.address ≠ a := h.idle _ f .refl rfl
    have hpermitted := asking.permitted
    cases r with
    | call r into =>
      have hsource : r.source = f.invocation.address := by cases hpermitted <;> rfl
      exact fun hpayer => hself (hsource.symm.trans (Option.some.inj hpayer))
    | create r =>
      have hcreator : r.creator = f.invocation.address := Invocation.MayCreate.creator hpermitted
      exact fun hpayer => hself (hcreator.symm.trans (Option.some.inj hpayer))

theorem aloof_guards : x.Guards (x.Aloof a) { b | b ≠ a } { b | b ≠ a } (Spares x.database a)
    (Spares x.database a) where
  next h hnext := h.next hp hfunded hnext
  payer h := fun hpayer => h.payer (congrArg some hpayer)
  creator h := fun hpayer => h.payer (congrArg some hpayer)
  founded {room r s t p} h opened := by
    have hexact : (s.noting (.createOpened · r.creator r.gasLimit)).journal.Exact x.database :=
      h.exact
    obtain ⟨u, hendowed⟩ := endowCreate_of_openCreate hp hfunded hexact opened
    exact h.idle _ _ (.single (.openCreate hendowed)) rfl
  step {room f s n} h running nested stepped := by
    left
    have hself : f.invocation.address ≠ a := h.idle _ f .refl rfl
    obtain ⟨-, used | ⟨r, m, asking, ran⟩⟩ := Machine.step_ran stepped
    · exact acts_spare hfunded hself used
    · exact (acts_spare hfunded hself asking.used).trans (nested r m _ asking ran)

/-- An account that does not pay for a frame, and on which no code runs in it or in frames that it opens,
neither spends nor is written, wherever in a transaction the frame is opened. -/
theorem idle_account_keeps {task : Task} {gasLimit : Nat} {b c : Scene}
    (starts : x.Starts task gasLimit b) (hc : x.Reaches b c) {activity : Activity}
    (payer : activity.payer? ≠ some a) (idle : x.Idle a { c with activity := activity })
    (left : x.leaves { c with activity := activity } = .ok t) :
    (c.session.journal.view x.database a).Unspent (t.journal.view x.database a) := by
  by_cases hstep : ∃ f, activity = .step f
  · obtain ⟨f, rfl⟩ := hstep
    cases left
    exact .refl _
  · have law : x.Law Set.univ _ _ := conservation_law hp hfunded
    have hstart : b.session.journal.Exact x.database :=
      (ofHardfork_exact x.database x.rules.hardfork).looks starts.looks
    have hreached := (law.reaches hc (Set.subset_univ _) starts.ruled).2
    have hexact : c.session.journal.Exact x.database := (law.lapses hreached hstart).1
    have haloof : x.Aloof a { c with activity := activity } :=
      ⟨hexact, fun f hf => absurd ⟨f, hf⟩ hstep, idle, payer⟩
    have charter : x.Charter _ _ _ (Spares x.database a) := authority_charter hp hfunded
    have habides := (aloof_guards hp hfunded).abides charter c.room
    have hspares : Spares x.database a c.session.journal t.journal :=
      habides.leaves (c := { c with activity := activity }) charter.pact haloof left
    exact hspares.unspent hexact

end Guards

section Solitary

variable {room : Nat} {r : CallRequest} {code : Bytes}
  (hcode : ∀ pos op, Opcode.ofByte? ((Code.ofBytes code).byteAt pos) = some op →
    ∀ h : Host Session, op.request? h = none)

include hcode

/-- Code without opcodes that open frames runs in one frame only. -/
theorem activity_of_solitary {d : Scene} (h : x.Reaches ⟨room, .callCode r code, s⟩ d) :
    d.activity = .callCode r code ∨ d.activity = .payment ∨
      ∃ f, d.activity = .step f ∧ f.invocation = x.callInvocation r code := by
  induction h with
  | refl => exact .inl rfl
  | tail _ hnext ih =>
    cases hnext with
    | payCall opened => exact .inr (.inl rfl)
    | openCall opened nonempty =>
      obtain hactivity | hpayment | ⟨f, hf, -⟩ := ih
      · cases hactivity
        exact .inr (.inr ⟨_, rfl, rfl⟩)
      · cases hpayment
      · cases hf
    | step running stepped =>
      obtain hactivity | hpayment | ⟨f, hf, hinvocation⟩ := ih
      · cases hactivity
      · cases hpayment
      · cases hf
        exact .inr (.inr ⟨_, rfl, (Machine.step_invocation stepped).trans hinvocation⟩)
    | nest running asking =>
      obtain hactivity | hpayment | ⟨f, hf, hinvocation⟩ := ih
      · cases hactivity
      · cases hpayment
      · cases hf
        obtain ⟨op, y, hop, hrequest, -⟩ := asking
        rw [Frame.nextByte, hinvocation] at hop
        rw [hcode _ op hop] at hrequest
        cases hrequest
    | loadCode | payCreate | openCreate => simp at ih

theorem idle_of_solitary (hself : r.address ≠ a) : x.Idle a ⟨room, .callCode r code, s⟩ := by
  intro d f hd hf
  obtain hactivity | hpayment | ⟨g, hg, hinvocation⟩ := activity_of_solitary hcode hd
  · rw [hactivity] at hf
    cases hf
  · rw [hpayment] at hf
    cases hf
  · rw [hg] at hf
    cases hf
    rw [hinvocation]
    exact hself

end Solitary

/-- Destroys the account that runs it for the benefit of another. -/
def donating : Bytes := ⟨#[0x60, 0x07, 0xff]⟩

theorem donating_solitary (pos : Nat) (op : Opcode)
    (hop : Opcode.ofByte? ((Code.ofBytes donating).byteAt pos) = some op) (h : Host Session) :
    op.request? h = none := by
  have hops : Opcode.ofByte? 0x60 = some (.push 0) ∧ Opcode.ofByte? 0x07 = some .signedMod ∧
      Opcode.ofByte? 0xff = some .selfDestruct ∧ Opcode.ofByte? 0x00 = some .stop := by
    decide +kernel
  obtain ⟨hpush, hmod, hdestroy, hstop⟩ := hops
  obtain _ | _ | _ | n := pos
  · cases hpush.symm.trans hop
    rfl
  · cases hmod.symm.trans hop
    rfl
  · cases hdestroy.symm.trans hop
    rfl
  · rw [Code.byteAt_of_length_le (Nat.le_add_left 3 n)] at hop
    cases hstop.symm.trans hop
    rfl

/-- The beneficiary keeps what it had, and has got what was paid to the account that is destroyed. -/
theorem idle_account_keeps_donating :
    ∃ b t, payment.Starts (.code donating ByteArray.empty) 100000 b ∧ payment.Idle 7 b ∧
      b.activity.payer? ≠ some 7 ∧ payment.leaves b = .ok t ∧
      (b.session.journal.view purse 7).Unspent (t.journal.view purse 7) ∧
      balances purse b.session.journal.accounts 7 = 0 ∧ balances purse t.journal.accounts 7 = 3 := by
  let j := leftBy (loadAll payment.database (payment.warm (some 0x0a))) (.ofHardfork .london)
  let r := payment.outerCall 0x0a ByteArray.empty 100000
  let b : Scene := ⟨maxFrames, .callCode r donating, { journal := j }⟩
  have starts : payment.Starts (.code donating ByteArray.empty) 100000 b := ⟨j, rfl, rfl⟩
  have hrun : (payment.leaves b).map (fun t => balances purse t.journal.accounts 7) = .ok 3 := by
    decide +kernel
  obtain ⟨t, left, hends⟩ := Except.map_eq_ok hrun
  have hfunded : payment.database.wealth < 2 ^ 256 := by
    change purse.wealth < 2 ^ 256
    rw [wealth_purse]
    decide
  have payer : b.activity.payer? ≠ some 7 := by decide
  have idle : payment.Idle 7 b := idle_of_solitary donating_solitary (by decide)
  have hkeeps := idle_account_keeps (.inl rfl) hfunded starts .refl payer idle left
  exact ⟨b, t, starts, idle, payer, left, hkeeps, by decide +kernel, hends⟩

end Executor

end MeteredVM
