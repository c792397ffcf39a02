import Mathlib.Data.List.Basic
import MeteredVM.Schedule

namespace MeteredVM

theorem Activation.reached_mono {a : Activation} {number number' time time' : Nat}
    (hnumber : number ≤ number') (htime : time ≤ time') (h : a.reached number time = true) :
    a.reached number' time' = true := by
  cases a with
  | block n => exact decide_eq_true (Nat.le_trans (of_decide_eq_true h) hnumber)
  | timestamp t => exact decide_eq_true (Nat.le_trans (of_decide_eq_true h) htime)

namespace Schedule

def Ascending (s : Schedule) : Prop := s.entries.Pairwise fun x y => x.1.id ≤ y.1.id

instance (s : Schedule) : Decidable s.Ascending :=
  inferInstanceAs (Decidable (s.entries.Pairwise fun x y => x.1.id ≤ y.1.id))

/-- The hardforks that are active at a block, in the order of the schedule. -/
def active (s : Schedule) (number time : Nat) : List Hardfork :=
  (s.entries.filter fun entry => entry.2.reached number time).map (·.1)

variable {s : Schedule} {number number' time time' : Nat}

theorem hardforkAt_eq (s : Schedule) (number time : Nat) :
    s.hardforkAt number time = (s.active number time).getLastD .frontier := by
  rw [hardforkAt, active, List.getLastD_eq_getLast?, List.getLast?_map, List.getLast?_filter]
  cases s.entries.reverse.find? fun entry => entry.2.reached number time <;> rfl

theorem active_subset (hnumber : number ≤ number') (htime : time ≤ time') :
    s.active number time ⊆ s.active number' time' := by
  apply List.map_subset
  intro entry hentry
  obtain ⟨hmem, hreached⟩ := List.mem_filter.mp hentry
  exact List.mem_filter.mpr ⟨hmem, Activation.reached_mono hnumber htime hreached⟩

theorem active_ascending (hs : s.Ascending) (number time : Nat) :
    (s.active number time).Pairwise fun x y => x.id ≤ y.id :=
  List.Pairwise.map _ (fun _ _ h => h) (List.Pairwise.filter _ hs)

theorem hardforkAt_latest (hs : s.Ascending) (number time : Nat) :
    (s.active number time = [] ∧ s.hardforkAt number time = .frontier ∨
      s.hardforkAt number time ∈ s.active number time) ∧
    ∀ fork ∈ s.active number time, fork.id ≤ (s.hardforkAt number time).id := by
  have hsorted := active_ascending hs number time
  rw [hardforkAt_eq]
  obtain hnone | ⟨older, last, hlist⟩ := (s.active number time).eq_nil_or_concat
  · rw [hnone]
    exact ⟨.inl ⟨rfl, rfl⟩, nofun⟩
  · rw [List.concat_eq_append] at hlist
    rw [hlist] at hsorted
    rw [hlist, List.getLastD_concat]
    refine ⟨.inr List.mem_concat_self, fun fork hfork => ?_⟩
    obtain holder | hlast := List.mem_append.mp hfork
    · exact (List.pairwise_append.mp hsorted).2.2 fork holder last (List.mem_singleton_self last)
    · exact Nat.le_of_eq (congrArg Hardfork.id (List.mem_singleton.mp hlast))

/-- Frontier, which is in force where nothing is active, is the earliest hardfork. -/
theorem hardforkAt_mono (hs : s.Ascending) (hnumber : number ≤ number') (htime : time ≤ time') :
    (s.hardforkAt number time).id ≤ (s.hardforkAt number' time').id := by
  obtain ⟨⟨-, hnone⟩ | hactive, -⟩ := hardforkAt_latest hs number time
  · rw [hnone]
    exact Nat.zero_le _
  · exact (hardforkAt_latest hs number' time').2 _ (active_subset hnumber htime hactive)

/-- A schedule in ascending order, as that of the main chain is, has the latest of its active hardforks in
force, Frontier if none is active. With later blocks, by number and by timestamp, the hardfork does not go
back, so what it has brought stays in force. -/
theorem hardforks_advance :
    mainnet.Ascending ∧
    ∀ s : Schedule, s.Ascending →
      (∀ number time,
        (s.active number time = [] → s.hardforkAt number time = .frontier) ∧
        (s.active number time ≠ [] → s.hardforkAt number time ∈ s.active number time) ∧
        ∀ fork ∈ s.active number time, fork.id ≤ (s.hardforkAt number time).id) ∧
      ∀ number number' time time', number ≤ number' → time ≤ time' →
        (s.hardforkAt number time).id ≤ (s.hardforkAt number' time').id ∧
        ∀ fork, (s.rulesAt number time).since fork = true →
          (s.rulesAt number' time').since fork = true := by
  refine ⟨by decide, fun s hs => ⟨fun number time => ?_, ?_⟩⟩
  · obtain ⟨hfound, hlatest⟩ := hardforkAt_latest hs number time
    obtain ⟨hempty, hfrontier⟩ | hmem := hfound
    · exact ⟨fun _ => hfrontier, fun hne => absurd hempty hne, hlatest⟩
    · exact ⟨fun hempty => absurd hmem (hempty ▸ List.not_mem_nil), fun _ => hmem, hlatest⟩
  · intro number number' time time' hnumber htime
    have hmono := hardforkAt_mono hs hnumber htime
    refine ⟨hmono, fun fork hfork => ?_⟩
    have hle : fork.id ≤ (s.hardforkAt number time).id := of_decide_eq_true hfork
    exact decide_eq_true (Nat.le_trans hle hmono)

/-- A schedule with both clocks, in which Shanghai can be reached before Berlin. -/
def twoClocks : Schedule :=
  ⟨[(.berlin, .timestamp 100), (.london, .block 5), (.shanghai, .timestamp 50)]⟩

theorem hardforks_advance_two_clocks :
    twoClocks.Ascending ∧ twoClocks.active 7 60 = [.london, .shanghai] ∧
      Hardfork.london.id ≤ (twoClocks.hardforkAt 7 60).id ∧ 5 ≤ 7 ∧ 0 ≤ 60 ∧
      (twoClocks.hardforkAt 5 0).id ≤ (twoClocks.hardforkAt 7 60).id := by
  have hs : twoClocks.Ascending := by decide
  obtain ⟨hlatest, hmono⟩ := hardforks_advance.2 twoClocks hs
  have hactive : twoClocks.active 7 60 = [.london, .shanghai] := by decide
  refine ⟨hs, hactive, (hlatest 7 60).2.2 .london ?_, by decide, by decide,
    (hmono 5 7 0 60 (by decide) (by decide)).1⟩
  rw [hactive]
  exact List.mem_cons_self

end Schedule

end MeteredVM
