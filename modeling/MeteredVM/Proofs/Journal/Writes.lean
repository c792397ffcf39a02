import MeteredVM.Proofs.Gas.Storage
import MeteredVM.Proofs.Journal.Ledger

namespace MeteredVM

open Price

namespace Journal

variable {db : Database} {j : Journal} {a : Address} {key initial present : Word}

def writeAll (db : Database) (a : Address) (key : Word) :
    List Word → Loading (List (Loaded SlotChange))
  | [] => pure []
  | new :: rest => do
    let found ← writeSlot db a key new
    let later ← writeAll db a key rest
    return found :: later

variable (db) in
/-- A write to a warm slot finds the value written last, and the initial value. -/
theorem writeSlot_warm (hs : j.slot? a key = some present) (hi : j.initial? a key = some initial)
    (new : Word) :
    ∃ k, writeSlot db a key new j = .ok ⟨⟨initial, present, new⟩, false⟩ k ∧
      k.slot? a key = some new ∧ k.initial? a key = some initial := by
  obtain ⟨x, hx⟩ : ∃ x, j.accounts[a]? = some x := by
    cases hx : j.accounts[a]? with
    | none => simp [slot?, slotIn, Facet.see, hx] at hs
    | some x => exact ⟨x, rfl⟩
  rw [slot?_of_loaded hx] at hs
  have hget : (get : Loading Journal) j = .ok j j := rfl
  have hload : loadAccount db a j = .ok ⟨x, false⟩ j := by
    simp only [loadAccount, bind, EStateM.bind, hget, hx]
    rfl
  have hread : readSlot db a key j = .ok ⟨present, false⟩ j := by
    simp only [readSlot, bind, EStateM.bind, hload, hs]
    rfl
  rw [initial?] at hi
  by_cases hsame : present = new
  · subst hsame
    refine ⟨j, ?_, ?_, hi⟩
    · simp only [writeSlot, bind, EStateM.bind, hread, hget, hi, ne_eq, not_true_eq_false,
        if_false]
      rfl
    · rw [slot?_of_loaded hx, hs]
  · refine ⟨j.written a key present new, ?_, ?_, hi⟩
    · simp only [writeSlot, bind, EStateM.bind, hread, hget, hi, ne_eq, hsame,
        not_false_eq_true, if_true]
      rfl
    · rw [slot?_insert hx rfl, if_pos ⟨rfl, rfl⟩]

theorem writeAll_warm (hs : j.slot? a key = some present) (hi : j.initial? a key = some initial)
    (news : List Word) :
    ∃ k, writeAll db a key news j =
      .ok ((SlotChange.chain initial present news).map fun c => ⟨c, false⟩) k := by
  induction news generalizing j present with
  | nil => exact ⟨j, rfl⟩
  | cons new rest ih =>
    obtain ⟨i, hwrite, hs', hi'⟩ := writeSlot_warm db hs hi new
    obtain ⟨k, hrest⟩ := ih hs' hi'
    refine ⟨k, ?_⟩
    simp only [writeAll, bind, EStateM.bind, hwrite, hrest]
    rfl

end Journal

/-- What writes to a warm slot cost together, with their refunds deducted, depends on the number of
writes, the initial value of the slot and its values before and after, but not on the values between.
Restoring the initial value costs as much as writing it over and over. -/
theorem Price.net_writes_telescope {r : Rules}
    (h : r.has .eip1283 = true ∨ r.has .eip2200 = true ∨ r.has .eip2929 = true) :
    ∃ tier, netTier? r = some tier ∧ ∀ (initial present : Word) (news : List Word),
      net r (SlotChange.chain initial present news) =
          news.length * tier.touch + surplus tier (clearRefund r) initial (news.getLastD present) -
            surplus tier (clearRefund r) initial present ∧
        (∀ others : List Word, others.length = news.length →
          others.getLastD present = news.getLastD present →
            net r (SlotChange.chain initial present others) =
              net r (SlotChange.chain initial present news)) ∧
        (present = initial → news.getLastD present = initial →
          net r (SlotChange.chain initial present news) = news.length * tier.touch ∧
            net r (SlotChange.chain initial present news) =
              net r (SlotChange.chain initial present (List.replicate news.length initial))) ∧
        ∀ (db : Database) (j : Journal) (a : Address) (key : Word),
          j.slot? a key = some present → j.initial? a key = some initial →
            ∃ k, Journal.writeAll db a key news j =
              .ok ((SlotChange.chain initial present news).map fun c => ⟨c, false⟩) k := by
  obtain ⟨tier, htier⟩ := exists_netTier h
  refine ⟨tier, htier, fun initial present news => ⟨net_chain htier _ _ _, ?_, ?_, ?_⟩⟩
  · intro others hlength hlast
    rw [net_chain htier, net_chain htier, hlength, hlast]
  · rintro rfl hlast
    have hnone : surplus tier (clearRefund r) present present = 0 := if_pos rfl
    have hreplicate : (List.replicate news.length present).getLastD present = present := by
      rw [List.getLastD_eq_getLast?, List.getLast?_replicate]
      split <;> rfl
    rw [net_chain htier, net_chain htier, hlast, hreplicate, List.length_replicate, hnone]
    exact ⟨by ring, rfl⟩
  · intro db j a key hs hi
    exact Journal.writeAll_warm hs hi news

/-- Under the rules of Istanbul, a slot that is cleared, set twice and restored: four touches. -/
theorem Price.net_writes_telescope_restored :
    (Rules.ofHardfork .istanbul).has .eip2200 = true ∧
      net (.ofHardfork .istanbul) (SlotChange.chain 1 1 [0, 2, 3, 1]) = 4 * 800 := by
  have hrules : (Rules.ofHardfork .istanbul).has .eip2200 = true := by decide
  refine ⟨hrules, ?_⟩
  obtain ⟨tier, htier, hnet⟩ := net_writes_telescope (.inr (.inl hrules))
  have hknown : netTier? (.ofHardfork .istanbul) = some ⟨800, 5000⟩ := by decide
  rw [hknown] at htier
  cases htier
  exact ((hnet 1 1 [0, 2, 3, 1]).2.2.1 rfl rfl).1

end MeteredVM
