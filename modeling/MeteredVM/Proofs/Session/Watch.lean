import MeteredVM.Proofs.Session.Charter
import MeteredVM.Proofs.Session.Deed

namespace MeteredVM

open Journal Relation

namespace Executor

/-- Where `P` holds, each use of the host is as `R` tells, and the transaction goes on to where `P` holds.
Whether it holds after a step may depend on what the step has done. -/
structure Watch (x : Executor) (P : Scene → Prop) (D : Set (Address × Bytes))
    (R : Journal → Journal → Prop) : Prop where
  next {c d : Scene} (h : P c) (hnext : x.Next c d)
    (kept : ∀ f g, c.activity = .step f → d.activity = .step g →
      R c.session.journal d.session.journal) : P d
  deployed {room : Nat} {r : CreateRequest} {s t : Session} {reply : CreateReply} {a : Address}
    (h : P ⟨room, .create r, s⟩) (replied : x.create (x.hostWithin room) r s = .ok (reply, t))
    (kept : reply.status.isOk = true) (created : reply.address = some a) : (a, reply.output) ∈ D
  acts {room : Nat} {f : Frame} {s t : Session} (h : P ⟨room, .step f, s⟩)
    (used : (x.host (x.hostWithin room)).Acts f.invocation s t) : R s.journal t.journal

section Watch

variable {x : Executor} {P : Scene → Prop} {D : Set (Address × Bytes)}
  {R : Journal → Journal → Prop} {b c d : Scene} {t : Session}
  (pact : x.Pact Set.univ Set.univ D R R) (watch : x.Watch P D R)

include pact watch

theorem Watch.wards : x.Wards P Set.univ Set.univ D R R where
  next := watch.next
  payer _ := Set.mem_univ _
  creator _ := Set.mem_univ _
  founded _ _ := Set.mem_univ _
  deployed := watch.deployed
  step h _ nested stepped := by
    obtain ⟨-, used | ⟨r, m, asking, ran⟩⟩ := Machine.step_ran stepped
    · exact .inl (watch.acts h used)
    · exact .inl (pact.trans (watch.acts h asking.used) (nested r m _ asking ran))

theorem Watch.abides (room : Nat) : x.Abides P R room := (watch.wards pact).abides pact room

theorem Watch.advances (hc : P c) (hnext : x.Next c d) : R c.session.journal d.session.journal := by
  by_cases hstep : ∃ f, c.activity = .step f
  · obtain ⟨f, hf⟩ := hstep
    cases hnext with
    | @step room f s n running stepped =>
      exact ((watch.wards pact).stepped (watch.abides pact room) hc running stepped).elim And.right
        And.right
    | nest running asking => exact watch.acts hc asking.used
    | loadCode | payCall | openCall | payCreate | openCreate => cases hf
  · exact pact.opens hnext (fun f hf => hstep ⟨f, hf⟩) fun _ _ _ _ _ _ _ => Set.mem_univ _

theorem Watch.follows (hc : P c) (hnext : x.Next c d) : P d :=
  watch.next hc hnext fun _ _ _ _ => watch.advances pact hc hnext

/-- The guard and the pact hold from a point to every later one. -/
theorem Watch.reaches (hb : P b) (h : x.Reaches b c) :
    P c ∧ R b.session.journal c.session.journal := by
  induction h with
  | refl => exact ⟨hb, pact.refl _⟩
  | tail _ hnext ih =>
    obtain ⟨hc, hran⟩ := ih
    exact ⟨watch.follows pact hc hnext, pact.trans hran (watch.advances pact hc hnext)⟩

theorem Watch.leaves (hc : P c) (left : x.leaves c = .ok t) : R c.session.journal t.journal :=
  (watch.abides pact c.room).leaves pact hc left

end Watch

end Executor

end MeteredVM
