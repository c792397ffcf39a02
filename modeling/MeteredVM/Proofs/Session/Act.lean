import MeteredVM.Proofs.Frame.World
import MeteredVM.Proofs.Journal.View
import MeteredVM.Proofs.Session.Nested

namespace MeteredVM

open Journal Relation

inductive Journal.Alteration (db : Database) (j : Journal) : Journal → Prop
  | change {i k : Journal} (looks : Looks db j i) (change : Change i k) : Alteration db j k
  | log (l : Log) : Alteration db j (j.log l)
  | refund {amount : Int} {k : Journal} (recorded : j.recordRefund amount = .ok k) :
      Alteration db j k

theorem Journal.Alteration.extends {db : Database} {j k : Journal} (h : Alteration db j k) :
    j.Extends k := by
  cases h with
  | change looks change => exact looks.extends.trans change.extends
  | log l => exact log_extends j l
  | refund recorded => exact recordRefund_extends recorded

theorem Session.load_journal {α : Type} (x : Loading α) (s : Session) :
    (leftBy (Session.load x) s).journal = leftBy x s.journal := by
  simp only [leftBy, Session.load]
  cases x s.journal with
  | ok a j => rfl
  | error o j => rfl

namespace Executor

variable {x : Executor} {inner : Option (Host Session)} {i : Invocation} {s t : Session}

inductive Acted (x : Executor) (i : Invocation) (j : Journal) : Journal → Prop
  | looks {k : Journal} (looks : Looks x.database j k) : Acted x i j k
  | destroy (target : Address) (writable : i.isStatic = false) :
      Acted x i j (leftBy (selfDestruct x.database i.address target) j)
  | refund {amount : Int} {k : Journal} (writable : i.isStatic = false)
      (recorded : j.recordRefund amount = .ok k) : Acted x i j k
  | log (l : Log) (writable : i.isStatic = false) : Acted x i j (j.log l)

theorem host_acted {write : Address → Word → Word → Query Session (Loaded SlotChange)}
    (h : ({ x.host inner with writeSlot := write } : Host Session).Act i s t) :
    x.Acted i s.journal t.journal ∨
      i.isStatic = false ∧ ∃ key new, t = leftBy (write i.address key new) s := by
  have looked : ∀ {α : Type} {y : Loading α} {Q : α → Journal → Prop},
      Shows x.database y s.journal Q →
        x.Acted i s.journal (leftBy (Session.load y) s).journal := by
    intro α y Q hy
    rw [Session.load_journal]
    exact .looks hy.looks
  cases h with
  | existence a => exact .inl (looked (loadExistence_shows a _))
  | blockHash number => exact .inl (looked (loadBlockHash_shows number _))
  | balance a =>
    refine .inl (looked (Shows.bind (loadAccount_shows a _) ?_) (Q := fun _ _ => True))
    intro found k _
    exact .pure trivial
  | code a => exact .inl (looked (loadCode_shows a _))
  | codeHash a =>
    refine .inl (looked (Shows.bind (loadAccount_shows a _) ?_) (Q := fun _ _ => True))
    intro found k _
    exact .pure trivial
  | readSlot key => exact .inl (looked (readSlot_shows _ key _))
  | writeSlot key new writable => exact .inr ⟨writable, key, new, rfl⟩
  | selfDestruct target writable =>
    have hleft := Session.load_journal (selfDestruct x.database i.address target) s
    exact .inl (hleft ▸ .destroy target writable)
  | @refund amount _ writable refunded =>
    obtain ⟨k, hk, rfl⟩ := Except.map_eq_ok refunded
    exact .inl (.refund writable hk)
  | log l writable => exact .inl (.log l writable)

/-- One use of the host: it writes a slot of the running account, or does something else. -/
theorem host_wrote (h : (x.host inner).Act i s t) :
    x.Acted i s.journal t.journal ∨ i.isStatic = false ∧
      ∃ key new, t.journal = leftBy (writeSlot x.database i.address key new) s.journal := by
  have hacted : x.Acted i s.journal t.journal ∨ i.isStatic = false ∧ ∃ key new,
      t = leftBy ((x.host inner).writeSlot i.address key new) s := host_acted h
  refine hacted.imp_right ?_
  rintro ⟨writable, key, new, rfl⟩
  exact ⟨writable, key, new, Session.load_journal _ s⟩

theorem host_act (h : (x.host inner).Act i s t) :
    Looks x.database s.journal t.journal ∨
      i.isStatic = false ∧ Alteration x.database s.journal t.journal := by
  have altered : ∀ {α : Type} {y : Loading α}, i.isStatic = false →
      Alters x.database y s.journal →
        Looks x.database s.journal (leftBy y s.journal) ∨
          i.isStatic = false ∧ Alteration x.database s.journal (leftBy y s.journal) := by
    intro α y hw hy
    obtain ⟨k, hk, hy | hy⟩ := hy.left
    · rw [hy]
      exact .inl hk
    · exact .inr ⟨hw, .change hk hy⟩
  obtain hacted | ⟨writable, key, new, hwrote⟩ := host_wrote h
  · generalize t.journal = k at hacted ⊢
    cases hacted with
    | looks looks => exact .inl looks
    | destroy target writable => exact altered writable (selfDestruct_alters _ target _)
    | refund writable recorded => exact .inr ⟨writable, .refund recorded⟩
    | log l writable => exact .inr ⟨writable, .log l⟩
  · rw [hwrote]
    exact altered writable (writeSlot_alters _ key new _)

theorem runCode_yields {h : Host Session} {gasLimit : Nat} {E : Fault → Prop}
    {I : Machine Session → Prop} (hI : Machine.Keeps h i E I) (hh : h.Frugal)
    (hgas : gasLimit ≤ Amount.max) (hs : I ⟨.start i gasLimit, s⟩) :
    Yields (runCode h i gasLimit) s E fun f t => f.Solid ∧ ∃ g, I ⟨g, t⟩ := by
  have hsolid : (Frame.start i gasLimit).Solid := Frame.start_solid i gasLimit
  obtain ⟨hok, herror⟩ := Machine.run_keeps hI hh rfl hsolid hgas hs
  unfold Yields
  split
  · rename_i f t hrun
    obtain ⟨m, hm, hft⟩ := Except.map_eq_ok hrun
    cases hft
    obtain ⟨u, hu, rfl⟩ := hok m hm
    obtain ⟨hfollows, -⟩ := Machine.run_ends hh (fun _ : True => hsolid) hm
    refine ⟨(hfollows.solid trivial).1, u.frame, ?_⟩
    rw [Machine.world_punish]
    exact hu
  · rename_i e hrun
    exact herror e (Except.map_eq_error hrun)

end Executor

end MeteredVM
