import MeteredVM.Proofs.Session.Law

namespace MeteredVM

open Journal Relation

def Frame.Overdrawn (f : Frame) : Prop :=
  f.status = .outOfGas ∧ ∃ pc, f.pc = pc + 1 ∧
    Opcode.ofByte? (f.invocation.code.byteAt pc) = some .slotStore

namespace Scene

/-- The frame at this point has ended at a write that it could not pay for; it is about to be undone. -/
def Overdrawn (c : Scene) : Prop := ∃ f, c.activity = .step f ∧ f.Overdrawn

/-- What holds of the journal holds of it but for a last write, which the frame could not pay for. -/
def Lapsed (db : Database) (P : Journal → Prop) (c : Scene) : Prop :=
  c.Overdrawn ∧ ∃ j, P j ∧ Wrote db j c.session.journal

def Ruled (x : Executor) (c : Scene) : Prop := ∀ f, c.activity = .step f → f.rules = x.rules

end Scene

namespace Executor

variable {x : Executor} {C : Set Address} {R L : Journal → Journal → Prop} {room : Nat}
  {s t : Session} {b c d : Scene}

theorem founded_subset (h : x.Reaches c d) : x.founded d ⊆ x.founded c := by
  rintro a ⟨e, hde, ha⟩
  exact ⟨e, h.trans hde, ha⟩

theorem founded_of_openCreate {r : CreateRequest} {p : Address × Checkpoint}
    (opened : x.openCreate r (s.noting (.createOpened · r.creator r.gasLimit)) = .ok p t) :
    p.1 ∈ x.founded ⟨room + 1, .create r, s⟩ := by
  obtain ⟨n, k, hclaims, -, ht⟩ := openCreate_ends.ok opened
  refine ⟨⟨room, .payment, t⟩, .single (.payCreate opened), ?_⟩
  obtain ⟨y, hy, -⟩ := hclaims.free
  have horigin : ((k.opened p.1).view x.database p.1).origin = _ :=
    origin_opened (Option.isSome_of_eq_some hy) p.1
  rw [if_pos rfl, ← ht] at horigin
  exact congrArg (·.2.2) horigin

theorem ruled_next (h : c.Ruled x) (hnext : x.Next c d) : d.Ruled x := by
  intro f hf
  cases hnext with
  | openCall | openCreate =>
    cases hf
    rfl
  | step running stepped =>
    cases hf
    exact (congrArg Invocation.rules (Machine.step_invocation stepped)).trans (h _ rfl)
  | @nest room f s r => cases r <;> cases hf
  | loadCode | payCall | payCreate => cases hf

/-- What holds at every point where a law is applied: accounts of `C` only are created from there on, and
the frame runs under the rules of the transaction. -/
def Governed (x : Executor) (C : Set Address) (c : Scene) : Prop := x.founded c ⊆ C ∧ c.Ruled x

theorem Governed.next (h : x.Governed C c) (hnext : x.Next c d) : x.Governed C d :=
  ⟨(founded_subset (.single hnext)).trans h.1, ruled_next h.2 hnext⟩

/-- What a frame leaves at a later point, or at the end: what a law promises, but for a last write that
it could not pay for. -/
def Abiding (x : Executor) (R : Journal → Journal → Prop) (j : Journal) (f : Frame) (t : Session) :
    Prop :=
  R j t.journal ∨ f.Overdrawn ∧ ∃ i, R j i ∧ Wrote x.database i t.journal

theorem Starts.ruled {task : Task} {gasLimit : Nat} (hb : x.Starts task gasLimit b) :
    b.Ruled x := by
  obtain ⟨j, -, rfl⟩ := hb
  intro f hf
  cases task <;> cases hf

section Law

variable (law : x.Law C R L)

include law

theorem Law.stepped {f : Frame} {n : Machine Session} (hrules : f.rules = x.rules)
    (nested : ∀ r m w, Machine.Asking (x.host (x.hostWithin room)) ⟨f, s⟩ r m →
      (x.host (x.hostWithin room)).after m.world r = .ok w → R m.world.journal w.journal)
    (stepped : Machine.step (x.host (x.hostWithin room)) ⟨f, s⟩ = .ok n) :
    x.Abiding R s.journal n.frame n.world := by
  have hinvocation := Machine.step_invocation stepped
  cases step_stepped stepped with
  | deeds deeds =>
    rw [hrules] at deeds
    exact .inl (law.deeds deeds)
  | unpaid store status pc wrote =>
    refine .inr ⟨⟨status, f.pc, pc, ?_⟩, s.journal, law.refl _, wrote⟩
    rw [hinvocation]
    exact store
  | nests asking ran =>
    exact .inl (law.trans (law.deeds (asking_deeds asking x.rules)) (nested _ _ _ asking ran))

theorem Law.guards : x.Guards (x.Governed C) Set.univ C R L where
  next h hnext := h.next hnext
  payer _ := Set.mem_univ _
  creator _ := Set.mem_univ _
  founded h opened := h.1 (founded_of_openCreate opened)
  step h _ nested stepped := by
    obtain hran | ⟨hover, i, hi, hwrote⟩ := law.stepped (h.2 _ rfl) nested stepped
    · exact .inl hran
    · refine .inr ⟨?_, law.after hi (law.unpaid hwrote)⟩
      rw [hover.1]
      rfl

theorem Law.abides (room : Nat) : x.Abides (x.Governed C) R room := law.guards.abides law.charter room

theorem Law.next (hnext : x.Next c d) (hc : x.Governed C c) :
    R c.session.journal d.session.journal ∨ d.Lapsed x.database (R c.session.journal) := by
  by_cases hstep : ∃ f, c.activity = .step f
  · obtain ⟨f, hf⟩ := hstep
    cases hnext with
    | @step room f s n running stepped =>
      have nested := fun r m w (asking : Machine.Asking _ ⟨f, s⟩ r m) ran =>
        (law.abides room).nested (t := w) (hc.next (.nest running asking)) ran
      exact (law.stepped (hc.2 f rfl) nested stepped).imp_right
        fun ⟨hover, h⟩ => ⟨⟨n.frame, rfl, hover⟩, h⟩
    | nest running asking => exact .inl (law.deeds (asking_deeds asking x.rules))
    | loadCode | payCall | openCall | payCreate | openCreate => cases hf
  · refine .inl (law.charter.pact.opens hnext (fun f hf => hstep ⟨f, hf⟩) ?_)
    rintro room r s p t rfl opened
    exact hc.1 (founded_of_openCreate opened)

theorem Law.reaches (h : x.Reaches b c) (hC : x.founded b ⊆ C) (hb : b.Ruled x) :
    c.Ruled x ∧ (R b.session.journal c.session.journal ∨
      c.Lapsed x.database (R b.session.journal)) := by
  suffices hreached : x.Governed C c ∧ (R b.session.journal c.session.journal ∨
      c.Lapsed x.database (R b.session.journal)) from ⟨hreached.1.2, hreached.2⟩
  induction h with
  | refl => exact ⟨⟨hC, hb⟩, .inl (law.refl _)⟩
  | @tail c d hbc hnext ih =>
    obtain ⟨hc, hran⟩ := ih
    -- Nothing follows a frame that has ended, so there is no such write before.
    replace hran : R b.session.journal c.session.journal := by
      refine hran.resolve_right ?_
      rintro ⟨⟨f, hf, hover, -⟩, -⟩
      cases hnext with
      | step running stepped | nest running asking =>
        cases hf
        exact Status.noConfusion (running.symm.trans hover)
      | loadCode | payCall | openCall | payCreate | openCreate => cases hf
    refine ⟨hc.next hnext, ?_⟩
    obtain hkept | ⟨hover, j, hj, hwrote⟩ := law.next hnext hc
    · exact .inl (law.trans hran hkept)
    · exact .inr ⟨hover, j, law.trans hran hj, hwrote⟩

/-- What a law promises of a journal that may be undone holds at every point. -/
theorem Law.lapses {j : Journal}
    (h : R j c.session.journal ∨ c.Lapsed x.database (R j)) : L j c.session.journal := by
  obtain h | ⟨-, i, hi, hwrote⟩ := h
  · exact law.weaken h
  · exact law.after hi (law.unpaid hwrote)

theorem Law.runTask {task : Task} {gasLimit : Nat} {e : Ended} (hb : x.Starts task gasLimit b)
    (hC : x.founded b ⊆ C) (h : x.runTask task gasLimit b.session = .ok (e, t)) :
    R b.session.journal t.journal :=
  (law.abides b.room).leaves law.charter.pact ⟨hC, hb.ruled⟩ (hb.leaves h)

end Law

end Executor

end MeteredVM
