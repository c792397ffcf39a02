import Mathlib.Algebra.Order.BigOperators.Group.Finset
import MeteredVM.Proofs.Journal.Refund
import MeteredVM.Proofs.Journal.Warm

namespace MeteredVM

open Price

namespace Price

def firstRead (r : Rules) : Nat := if r.has .eip2929 then 2100 else 0

def outlay (r : Rules) (tier : NetTier) (initial value : Word) : Int :=
  firstRead r + surplus tier (clearRefund r) initial value + if value = initial then 0 else tier.touch

variable {r : Rules} {tier : NetTier}

@[simp] theorem outlay_self (value : Word) : outlay r tier value value = firstRead r := by
  simp [outlay, surplus]

/-- With the smaller refunds, loading and clearing a slot costs more than is paid back for it. -/
theorem outlay_nonneg (h : netTier? r = some tier) (small : r.has .eip3529 = true)
    (initial value : Word) : 0 ≤ outlay r tier initial value := by
  unfold netTier? at h
  simp only [outlay, firstRead, surplus, clearRefund, small, slotSet, if_true]
  split at h
  · cases h
    grind
  split at h
  · cases h
    grind
  split at h
  · cases h
    grind
  · cases h

/-- A write pays for its refund and for what it adds to the outlay. -/
theorem netRefund_add_outlay_le (r : Rules) (tier : NetTier) (c : SlotChange) :
    netRefund tier (clearRefund r) c + outlay r tier c.initial c.new - outlay r tier c.initial c.present ≤
      netWrite tier c := by
  have hnet := netWrite_sub_netRefund tier (clearRefund r) c
  unfold outlay
  split <;> split <;> omega

theorem firstRead_le_slotRead (r : Rules) (cold : Bool) :
    (if cold then firstRead r else 0) ≤ slotRead r cold := by
  unfold firstRead slotRead
  grind

theorem slotWrite_eq (h : netTier? r = some tier) (c : SlotChange) (cold : Bool) :
    slotWrite r c cold = netWrite tier c + if cold then firstRead r else 0 := by
  simp only [slotWrite, h, firstRead]
  cases cold <;> simp

end Price

def outlays (r : Rules) (tier : NetTier) (db : Database) (s : Address → Option Slots) : Int :=
  ∑ p : Address × Word, (slotIn s p.1 p.2).elim 0 (outlay r tier (db.slot p.1 p.2))

namespace Journal

def worth (r : Rules) (tier : NetTier) (db : Database) (j : Journal) : Int :=
  j.refund + outlays r tier db (Facet.slots.see j.accounts)

/-- The slots that are loaded, their values and the refund counter are the same, and undoing leads back to
these slots. -/
structure Even (j k : Journal) : Prop where
  retains : Facet.slots.Retains j k
  slot (a : Address) (key : Word) : k.slot? a key = j.slot? a key
  refund : k.refund = j.refund

variable {α : Type} {r : Rules} {tier : NetTier} {db : Database} {i j k l : Journal} {a : Address}
  {key : Word} {x : Account}

theorem refund_le_worth (h : netTier? r = some tier) (small : r.has .eip3529 = true) (j : Journal) :
    j.refund ≤ j.worth r tier db := by
  refine Int.le_add_of_nonneg_right (Finset.sum_nonneg fun p _ => ?_)
  cases slotIn (Facet.slots.see j.accounts) p.1 p.2 with
  | none => exact Int.le_refl 0
  | some value => exact outlay_nonneg h small _ _

theorem worth_ofHardfork (fork : Hardfork) : (ofHardfork fork).worth r tier db = 0 := by
  have hnone : outlays r tier db (Facet.slots.see (ofHardfork fork).accounts) = 0 :=
    Finset.sum_eq_zero fun p _ => by rw [Facet.see_ofHardfork]; rfl
  rw [worth, hnone]
  rfl

theorem worth_slot (hothers : ∀ b key', ¬(b = a ∧ key' = key) → k.slot? b key' = j.slot? b key') :
    k.worth r tier db = j.worth r tier db + (k.refund - j.refund) +
      ((k.slot? a key).elim 0 (outlay r tier (db.slot a key)) -
        (j.slot? a key).elim 0 (outlay r tier (db.slot a key))) := by
  have hsum : outlays r tier db (Facet.slots.see k.accounts) =
      outlays r tier db (Facet.slots.see j.accounts) + _ :=
    sum_change (f := fun p : Address × Word =>
      (j.slot? p.1 p.2).elim 0 (outlay r tier (db.slot p.1 p.2)))
      (g := fun p => (k.slot? p.1 p.2).elim 0 (outlay r tier (db.slot p.1 p.2))) (a, key)
      fun p hp => by rw [hothers p.1 p.2 fun hsame => hp (Prod.ext hsame.1 hsame.2)]
  rw [worth, worth, hsum]
  ring

namespace Even

theorem of_rests (h : Facet.slots.Rests j k) (hrefund : k.refund = j.refund) : j.Even k :=
  ⟨h.retains, slot?_of_rests h, hrefund⟩

theorem refl (j : Journal) : j.Even j := .of_rests (.refl j) rfl

theorem of_calm (h : j.Calm k) : j.Even k := .of_rests h.slots h.refund

theorem trans (h : i.Even j) (h' : j.Even k) : i.Even k :=
  ⟨h.retains.trans h'.retains, fun a key => (h'.slot a key).trans (h.slot a key),
    h'.refund.trans h.refund⟩

theorem worth (h : j.Even k) : k.worth r tier db = j.worth r tier db := by
  have hsum : outlays r tier db (Facet.slots.see k.accounts) =
      outlays r tier db (Facet.slots.see j.accounts) :=
    Finset.sum_congr rfl fun p _ =>
      congrArg (Option.elim · 0 (outlay r tier (db.slot p.1 p.2))) (h.slot p.1 p.2)
  rw [Journal.worth, Journal.worth, hsum, h.refund]

end Even

/-- Going back to a checkpoint restores the slots and the counter there. -/
theorem even_revert (h : Facet.slots.Retains j.deeper k) (reverted : k.revert j.mark = .ok l) :
    j.Even l := by
  obtain ⟨hslots, hentries⟩ := h.revert reverted
  obtain ⟨-, -, -, -, hrefund, -⟩ := revert_eq_ok reverted
  exact .of_rests ⟨⟨[], hentries, nofun⟩, hslots⟩ hrefund

theorem even_opened (j : Journal) (a : Address) : j.deeper.Even (j.opened a) := by
  refine .of_rests (.of_deeper (.opened rfl (fun _ _ _ => rfl) j)) ?_
  rw [opened, touch_refund]
  rfl

/-- A look keeps the values of loaded slots, and loads others with the values of the database. -/
theorem Look.slot?_eq (h : Look db j k) (a : Address) (key : Word) :
    k.slot? a key = j.slot? a key ∨
      j.slot? a key = none ∧ (j.Faithful db → k.slot? a key = some (db.slot a key)) := by
  cases h with
  | ask lookup => exact .inl rfl
  | code loaded unfetched =>
    refine .inl (slot?_of_rests ?_ a key)
    exact .update j _ fun _ => rfl
  | account absent =>
    left
    rw [slot?_load absent rfl]
  | @slot b x key' loaded absent =>
    rw [slot?_insert loaded rfl]
    split
    · rename_i hslot
      obtain ⟨rfl, rfl⟩ := hslot
      refine .inr ⟨(slot?_of_loaded loaded key').trans absent, fun hj => ?_⟩
      rw [hj.unloaded_eq loaded]
    · exact .inl rfl

theorem Looks.slot?_eq (h : Looks db j k) (a : Address) (key : Word) :
    k.slot? a key = j.slot? a key ∨
      j.slot? a key = none ∧ (j.Faithful db → k.slot? a key = some (db.slot a key)) := by
  induction h with
  | refl => exact .inl rfl
  | tail hlooks hlook ih =>
    obtain hlast | ⟨hnone, hloaded⟩ := hlook.slot?_eq a key
    · rw [hlast]
      exact ih
    · obtain hsame | ⟨hnone', -⟩ := ih
      · exact .inr ⟨hsame.symm.trans hnone, fun hj => hloaded (hj.looks hlooks)⟩
      · exact .inr ⟨hnone', fun hj => hloaded (hj.looks hlooks)⟩

theorem Even.of_looks (h : Looks db j k)
    (cold : ∀ a key, (k.slot? a key).isSome → (j.slot? a key).isSome) : j.Even k := by
  refine ⟨.of_extends h.extends, fun a key => ?_, h.others.2.2⟩
  obtain hsame | ⟨hnone, -⟩ := Looks.slot?_eq h a key
  · exact hsame
  · have hloaded := cold a key
    rw [hnone] at hloaded ⊢
    simpa using hloaded

theorem Even.of_warms {keys : List AccessKey} (h : Looks db j k) (hk : Warms keys j k)
    (hkeys : ∀ b key, .slot b key ∉ keys) : j.Even k :=
  .of_looks h fun b key hb => ((hk.warm (.slot b key)).mp hb).resolve_left (hkeys b key)

theorem mem_of_mem_reached {keys : List AccessKey} {key : AccessKey} (h : key ∈ reached keys k) :
    key ∈ keys :=
  (List.takeWhile_prefix _).subset h

/-- Wherever an access to an account ends, no slot is loaded. -/
theorem Even.load {y : Loading α} {Q : α → Journal → Prop} {cold : α → Bool}
    (shows : Shows db y j Q) (accesses : Accesses y [.account a] (.account a) cold j) :
    Ends y j (fun _ k => j.Even k) fun _ k => j.Even k := by
  have hkeys : ∀ b key, AccessKey.slot b key ∉ [AccessKey.account a] := by simp
  refine Ends.iff.mpr ⟨fun v k hk => ?_, fun e k hk => ?_⟩
  · exact .of_warms (shows.ok hk).1 (accesses.ok hk).1 hkeys
  · refine .of_warms (shows.error hk) (accesses.error hk) fun b key hmem => ?_
    exact hkeys b key (mem_of_mem_reached hmem)

theorem loadBlockHash_even (number : Nat) :
    Ends (loadBlockHash db number) j (fun _ k => j.Even k) fun _ k => j.Even k := by
  have hrests := loadBlockHash_rests db j number
  have hshows : Shows db (loadBlockHash db number) j _ := loadBlockHash_shows number j
  refine Ends.iff.mpr ⟨fun v k hk => ?_, fun e k hk => ?_⟩
  · exact .of_rests (hrests.ok hk) (hshows.ok hk).1.others.2.2
  · exact .of_rests (hrests.error hk) (hshows.error hk).others.2.2

/-- Wherever the marking of an account for destruction ends, no slot is loaded. -/
theorem selfDestruct_even (target : Address) :
    Ends (selfDestruct db a target) j (fun _ k => j.Even k) fun _ k => j.Even k := by
  have hkeys : ∀ b key, AccessKey.slot b key ∉ [AccessKey.account target, .account a] := by simp
  have haccesses := selfDestruct_accesses db a j target
  refine Ends.iff.mpr ⟨fun found k hk => ?_, fun e k hk => ?_⟩
  · have hwarms := (haccesses.ok hk).1
    obtain ⟨l, y, hlooks, hy, -, -, rfl⟩ := selfDestruct_eq_ok hk
    have hmarks : l.Even (l.destroy a target y) :=
      .of_rests (.destroy rfl (fun _ _ _ => rfl) l) (destroy_refund l a target y)
    refine (Even.of_looks hlooks fun b key hb => ?_).trans hmarks
    have hwarm : (l.destroy a target y).isWarm (.slot b key) = true := by
      rw [isWarm, hmarks.slot]
      exact hb
    exact ((hwarms.warm _).mp hwarm).resolve_left (hkeys b key)
  · obtain ⟨l, hlooks, hl⟩ : Alters db (selfDestruct db a target) j := selfDestruct_alters a target j
    rw [hk] at hl
    subst hl
    refine .of_warms hlooks (haccesses.error hk) fun b key hmem => ?_
    exact hkeys b key (mem_of_mem_reached hmem)

theorem looks_worth {cold : Bool} (h : Looks db j k) (hj : j.Faithful db)
    (hothers : ∀ b key', ¬(b = a ∧ key' = key) → (k.slot? b key').isSome → (j.slot? b key').isSome)
    (hloaded : (k.slot? a key).isSome) (hcold : cold = !(j.slot? a key).isSome) :
    k.worth r tier db = j.worth r tier db + if cold then firstRead r else 0 := by
  have hsame : ∀ b key', ¬(b = a ∧ key' = key) → k.slot? b key' = j.slot? b key' := by
    intro b key' hne
    obtain hsame | ⟨hnone, -⟩ := Looks.slot?_eq h b key'
    · exact hsame
    · have hb := hothers b key' hne
      rw [hnone] at hb ⊢
      simpa using hb
  rw [worth_slot hsame, h.others.2.2, hcold]
  obtain hkept | ⟨hnone, hnew⟩ := Looks.slot?_eq h a key
  · rw [hkept] at hloaded ⊢
    simp [hloaded]
  · rw [hnone, hnew hj]
    simp

/-- A read raises refund counter and outlays by its price at most. -/
theorem readSlot_worth {found : Loaded Word} (h : readSlot db a key j = .ok found k)
    (hj : j.Faithful db) :
    Facet.slots.Retains j k ∧ k.worth r tier db ≤ j.worth r tier db + slotRead r found.cold := by
  obtain ⟨hwarms, hcold⟩ := (readSlot_accesses db a j key).ok h
  have hshows : Shows db (readSlot db a key) j _ := readSlot_shows a key j
  simp only [Shows, h] at hshows
  have hwarm : ∀ b key', ¬(b = a ∧ key' = key) →
      (k.slot? b key').isSome → (j.slot? b key').isSome := by
    intro b key' hne hb
    simpa [isWarm, hne] using (hwarms.warm (.slot b key')).mp hb
  have hloaded : (k.slot? a key).isSome := (hwarms.warm (.slot a key)).mpr (.inl (by simp))
  have hworth : k.worth r tier db = _ := looks_worth hshows.1 hj hwarm hloaded hcold
  have hprice := firstRead_le_slotRead r found.cold
  refine ⟨hwarms.retains, ?_⟩
  rw [hworth]
  split <;> simp_all

theorem writeSlot_worth {new : Word} {found : Loaded SlotChange} (metered : netTier? r = some tier)
    (h : writeSlot db a key new j = .ok found k) (hj : j.Faithful db)
    (recorded : k.recordRefund (slotRefund r found.value) = .ok l) :
    l.worth r tier db ≤ j.worth r tier db + slotWrite r found.value found.cold := by
  obtain ⟨hwarms, hcold⟩ := (writeSlot_accesses db a j key new).ok h
  obtain ⟨i, x, hlooks, hx, hs, -, -, hk⟩ := writeSlot_eq_ok h
  have hchange := hj.change_eq h
  have hpresent : i.slot? a key = some found.value.present := (slot?_of_loaded hx key).trans hs
  have hwritten : ∀ b key', k.slot? b key' =
      if a = b ∧ key = key' then some new else i.slot? b key' := by
    intro b key'
    rw [hk]
    split
    · rename_i hsame
      split
      · rename_i hslot
        obtain ⟨rfl, rfl⟩ := hslot
        rw [hpresent, hsame]
      · rfl
    · exact slot?_insert hx rfl b key'
  have hothers : ∀ b key', ¬(b = a ∧ key' = key) → k.slot? b key' = i.slot? b key' := by
    intro b key' hne
    rw [hwritten, if_neg fun hsame => hne ⟨hsame.1.symm, hsame.2.symm⟩]
  have hloads : i.worth r tier db = j.worth r tier db + if found.cold then firstRead r else 0 := by
    refine looks_worth hlooks hj (fun b key' hne hb => ?_) (Option.isSome_of_eq_some hpresent) hcold
    rw [← hothers b key' hne] at hb
    simpa [isWarm, hne] using (hwarms.warm (.slot b key')).mp hb
  have hslots : Facet.slots.Rests k l := .recordRefund recorded
  have hrefund : l.refund = i.refund + slotRefund r found.value := by
    rw [recordRefund_eq_ok recorded, hk]
    split <;> rfl
  have hsame : ∀ b key', ¬(b = a ∧ key' = key) → l.slot? b key' = i.slot? b key' := by
    intro b key' hne
    rw [slot?_of_rests hslots, hothers b key' hne]
  have hnew : l.slot? a key = some new := by
    rw [slot?_of_rests hslots, hwritten, if_pos ⟨rfl, rfl⟩]
  have hprice := netRefund_add_outlay_le r tier found.value
  rw [slotRefund_eq metered] at hrefund
  rw [slotWrite_eq metered, worth_slot hsame, hloads, hrefund, hnew, hpresent]
  rw [hchange] at hprice ⊢
  simp only [Option.elim_some] at hprice ⊢
  push_cast
  omega

end Journal

end MeteredVM
