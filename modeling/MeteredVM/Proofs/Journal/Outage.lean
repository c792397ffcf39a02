import MeteredVM.Proofs.Journal.Warm

namespace MeteredVM

namespace Database

/-- None of the lookups has failed, each made after those that follow it. -/
def Answers (db : Database) : List Lookup → Prop
  | [] => True
  | l :: older => db.outage older l = none ∧ db.Answers older

def FailsWith (db : Database) (outage : Outage) : List Lookup → Prop
  | [] => False
  | l :: older => db.outage older l = some outage ∧ db.Answers older

end Database

namespace Journal

variable {α β : Type} {db : Database}

def Heeds (db : Database) (y : Loading α) : Prop :=
  ∀ j, db.Answers j.lookups →
    Ends y j (fun outage k => db.FailsWith outage k.lookups) fun _ k => db.Answers k.lookups

namespace Heeds

theorem pure {a : α} : Heeds db (pure a : Loading α) := fun _ hj => .pure hj

theorem bind {y : Loading α} {f : α → Loading β} (hy : Heeds db y) (hf : ∀ a, Heeds db (f a)) :
    Heeds db (y >>= f) :=
  fun j hj => Ends.bind (hy j hj) fun a k hk => hf a k hk

theorem get : Heeds db (get : Loading Journal) := by
  intro j hj
  apply Ends.get.imp
  rintro _ _ ⟨rfl, rfl⟩
  exact hj

theorem modify {f : Journal → Journal} (hf : ∀ j, (f j).lookups = j.lookups) :
    Heeds db (modify f : Loading Unit) := by
  intro j hj
  apply Ends.modify.imp
  rintro _ _ rfl
  rw [hf]
  exact hj

theorem lookup (l : Lookup) : Heeds db (lookup db l) := by
  intro j hj
  refine ((lookup_ends db j l).refused ?_).imp ?_
  · rintro outage k ⟨rfl, failed⟩
    exact ⟨failed, hj⟩
  · rintro _ k ⟨rfl, answered⟩
    exact ⟨answered, hj⟩

theorem asking {c : Prop} [Decidable c] {l : Lookup} {f : Unit → Loading α}
    (hf : ∀ a, Heeds db (f a)) :
    Heeds db (if c then Journal.lookup db l >>= f else f ()) := by
  split
  · exact .bind (.lookup l) hf
  · exact hf ()

theorem loadAccount (a : Address) : Heeds db (loadAccount db a) := by
  refine .bind .get fun j => ?_
  split
  · exact .pure
  · exact .bind (.lookup _) fun _ => .bind (.modify fun _ => rfl) fun _ => .pure

theorem loadExistence (a : Address) : Heeds db (loadExistence db a) := by
  refine .bind (.loadAccount a) fun x => .bind .get fun j => ?_
  split
  · exact .pure
  · exact .pure

theorem loadCode (a : Address) : Heeds db (loadCode db a) := by
  refine .bind (.loadAccount a) fun x => ?_
  split
  · exact .pure
  · exact .asking fun _ => .bind (.modify fun _ => rfl) fun _ => .pure

theorem readSlot (a : Address) (key : Word) : Heeds db (readSlot db a key) := by
  refine .bind (.loadAccount a) fun x => ?_
  split
  · exact .pure
  · exact .asking fun _ => .bind (.modify fun _ => rfl) fun _ => .pure

theorem writeSlot (a : Address) (key new : Word) : Heeds db (writeSlot db a key new) := by
  refine .bind (.readSlot a key) fun present => .bind .get fun j => ?_
  split
  · exact .bind (.modify fun _ => rfl) fun _ => .pure
  · exact .pure

theorem selfDestruct (a target : Address) : Heeds db (selfDestruct db a target) := by
  rw [selfDestruct_eq]
  refine .bind (.loadExistence target) fun found => .bind (.loadAccount a) fun x => ?_
  refine .bind (.modify fun j => ?_) fun _ => .pure
  by_cases hat : a = target
  · subst hat
    rw [destroy_self]
    rfl
  · rw [destroy_of_ne j hat]
    exact touch_lookups (j.emptied a) target

theorem loadBlockHash (number : Nat) : Heeds db (loadBlockHash db number) :=
  .bind (.lookup _) fun _ => .pure

end Heeds

end Journal

end MeteredVM
