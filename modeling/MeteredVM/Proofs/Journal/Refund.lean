import Mathlib.Algebra.BigOperators.Group.Finset.Piecewise
import Mathlib.Data.FinEnum
import Mathlib.Data.Fintype.Prod
import Mathlib.Tactic.Ring
import MeteredVM.Gas.Price
import MeteredVM.Proofs.Gas.Storage
import MeteredVM.Proofs.Journal.Ledger

namespace MeteredVM

open Price

namespace Price

def markRefund (r : Rules) : Int := if r.has .eip3529 then 0 else selfDestructRefund

theorem markRefund_nonneg (r : Rules) : 0 ≤ markRefund r := by
  unfold markRefund
  split <;> decide

end Price

theorem sum_change {ι : Type} [Fintype ι] [DecidableEq ι] {f g : ι → Int} (i : ι)
    (h : ∀ k, k ≠ i → g k = f k) : ∑ k, g k = ∑ k, f k + (g i - f i) := by
  have hothers : ∑ k ∈ Finset.univ.erase i, g k = ∑ k ∈ Finset.univ.erase i, f k :=
    Finset.sum_congr rfl fun k hk => h k (Finset.ne_of_mem_erase hk)
  rw [← Finset.add_sum_erase _ _ (Finset.mem_univ i), ← Finset.add_sum_erase _ f (Finset.mem_univ i),
    hothers]
  ring

theorem sum_indicator {ι : Type} [Fintype ι] (P : ι → Prop) [DecidablePred P] (c : Int) :
    (∑ i, if P i then c else 0) = c * (Finset.univ.filter P).card := by
  rw [← Finset.sum_filter, Finset.sum_const, nsmul_eq_mul, mul_comm]

def held (clear : Int) (db : Database) (s : Address → Option Slots) : Int :=
  ∑ p : Address × Word, (slotIn s p.1 p.2).elim 0 (Price.held clear (db.slot p.1 p.2))

def granted (grant : Int) (s : Address → Option Bool) : Int :=
  ∑ a : Address, if s a = some true then grant else 0

def JournalEntry.restoration (tier : NetTier) (db : Database) (s : Address → Option Slots) :
    JournalEntry → Int
  | .slotChanged a key (some before) =>
    Price.restoration tier ⟨db.slot a key, before, (slotIn s a key).getD before⟩
  | _ => 0

def restored (tier : NetTier) (db : Database) (s : Address → Option Slots) :
    List JournalEntry → Int
  | [] => 0
  | e :: older => e.restoration tier db s + restored tier db (Facet.slots.unwind s e) older

section Restored

variable {tier : NetTier} {db : Database} {s : Address → Option Slots} {e : JournalEntry}
  {newer older : List JournalEntry}

theorem JournalEntry.restoration_of_ignores (h : Facet.slots.ignores e = true) :
    e.restoration tier db s = 0 := by
  cases e with
  | slotChanged a key before => cases h
  | _ => rfl

theorem restored_of_ignores (h : ∀ e ∈ newer, Facet.slots.ignores e = true) :
    restored tier db s (newer ++ older) = restored tier db s older := by
  induction newer with
  | nil => rfl
  | cons e newer ih =>
    have he := h e List.mem_cons_self
    rw [List.cons_append, restored, JournalEntry.restoration_of_ignores he,
      Facet.slots.unwind_of_ignores he, Int.zero_add]
    exact ih fun e' he' => h e' (List.mem_cons_of_mem e he')

theorem restored_nonneg {r : Rules} (h : netTier? r = some tier) (s : Address → Option Slots)
    (entries : List JournalEntry) : 0 ≤ restored tier db s entries := by
  induction entries generalizing s with
  | nil => exact Int.le_refl 0
  | cons e older ih =>
    have he : 0 ≤ e.restoration tier db s := by
      unfold JournalEntry.restoration
      split
      · exact restoration_nonneg h _
      · exact Int.le_refl 0
    exact Int.add_nonneg he (ih _)

end Restored

namespace Journal

def cleared (j : Journal) : Finset (Address × Word) :=
  {p | j.slot? p.1 p.2 = some 0 ∧ (j.initial? p.1 p.2).any (· != 0)}

def marked (j : Journal) : Finset Address := {a | Facet.destroyed.see j.accounts a = some true}

def restorations (tier : NetTier) (db : Database) (j : Journal) : Int :=
  restored tier db (Facet.slots.see j.accounts) j.entries

def owed (r : Rules) (tier : NetTier) (db : Database) (j : Journal) : Int :=
  held (clearRefund r) db (Facet.slots.see j.accounts) +
    granted (markRefund r) (Facet.destroyed.see j.accounts) + j.restorations tier db

/-- All initial values are those of the database, because no account with storage there has been
created. -/
structure Faithful (db : Database) (j : Journal) : Prop where
  recorded : j.Recorded
  value {a : Address} {key v : Word} (h : j.initial? a key = some v) : v = db.slot a key
  blank {a : Address} (h : Facet.created.see j.accounts a = some true) (key : Word) :
    db.slot a key = 0

variable {r : Rules} {tier : NetTier} {db : Database} {i j k l : Journal} {a target : Address}
  {x : Account} {key present new : Word}

theorem see_iff {F : Facet Bool} {mark : AccountView → Bool}
    (hview : ∀ x, mark (x.view db a) = F.of x) (hfresh : F.of (fresh db a) = false) :
    F.see j.accounts a = some true ↔ mark (j.view db a) = true := by
  rw [Facet.see]
  cases hx : j.accounts[a]? with
  | none =>
    rw [view_of_absent hx, hview, hfresh]
    exact iff_of_false (Option.some_ne_none true).symm Bool.false_ne_true
  | some x =>
    rw [view_of_loaded hx, hview]
    exact Option.some_inj

variable (db) in
theorem see_created_iff :
    Facet.created.see j.accounts a = some true ↔ (j.view db a).created = true :=
  see_iff (fun _ => rfl) (fresh_created db a)

variable (db) in
theorem see_destroyed_iff :
    Facet.destroyed.see j.accounts a = some true ↔ (j.view db a).destroyed = true :=
  see_iff (fun _ => rfl) (fresh_destroyed db a)

theorem created_of_unwindAll {s : Address → Option Bool} {es : List JournalEntry}
    (h : Facet.created.unwindAll s es a = some true) : s a = some true := by
  induction es generalizing s with
  | nil => exact h
  | cons e es ih =>
    have hs := ih h
    simp only [Facet.unwind] at hs
    split at hs
    · cases hs
    · obtain ⟨v, hv, hback⟩ := Option.map_eq_some_iff.mp hs
      rw [hv]
      cases e with
      | created b =>
        simp only [Facet.created] at hback
        split at hback
        · cases hback
        · rw [hback]
      | _ => exact congrArg some hback

theorem Faithful.records (h : j.Faithful db) (hk : Records db j k)
    (hcreated : ∀ a, Facet.created.see k.accounts a = some true →
      Facet.created.see j.accounts a = some true ∨ ∀ key, db.slot a key = 0) :
    k.Faithful db := by
  refine ⟨hk.recorded h.recorded, fun {a key v} hv => ?_, fun {a} ha key => ?_⟩
  · obtain hv | hv | ⟨hv, ha⟩ := hk.added hv
    · exact h.value hv
    · exact hv
    · rw [hv, h.blank ((see_created_iff db).mpr ha)]
  · obtain ha | ha := hcreated a ha
    · exact h.blank ha key
    · exact ha key

theorem Faithful.rests (h : j.Faithful db) (hk : Records db j k)
    (hcreated : Facet.created.Rests j k) : k.Faithful db :=
  h.records hk fun a ha => .inl (by rwa [hcreated.see] at ha)

theorem Faithful.revert {mark : Checkpoint} (h : k.Faithful db) (hl : k.revert mark = .ok l) :
    l.Faithful db := by
  obtain ⟨undone, -, -, hundo, -, hledger⟩ := revert_eq_ok hl
  refine ⟨h.recorded.revert hl, fun {a key v} hv => h.value ?_, fun {a} ha => h.blank ?_⟩
  · rwa [initial?, hledger] at hv
  · rw [Facet.created.see_undoAll hundo] at ha
    exact created_of_unwindAll ha

theorem ofHardfork_faithful (db : Database) (fork : Hardfork) : (ofHardfork fork).Faithful db := by
  refine ⟨Operation.ofHardfork_recorded fork, fun {a key v} hv => ?_, fun {a} ha => ?_⟩
  · cases (Ledger.initial?_empty ⟨a, key⟩).symm.trans hv
  · rw [Facet.see_ofHardfork] at ha
    cases ha

theorem owed_ofHardfork (r : Rules) (tier : NetTier) (db : Database) (fork : Hardfork) :
    (ofHardfork fork).owed r tier db = 0 := by
  have hheld : held (clearRefund r) db (Facet.slots.see (ofHardfork fork).accounts) = 0 :=
    Finset.sum_eq_zero fun p _ => by rw [Facet.see_ofHardfork]; rfl
  have hgranted : granted (markRefund r) (Facet.destroyed.see (ofHardfork fork).accounts) = 0 :=
    Finset.sum_eq_zero fun a _ => by rw [Facet.see_ofHardfork]; rfl
  rw [owed, hheld, hgranted]
  rfl

/-- What the counter stands for is what it holds of slots and accounts, each once. -/
theorem Faithful.owed_eq (h : j.Faithful db) (r : Rules) (tier : NetTier) :
    j.owed r tier db = clearRefund r * j.cleared.card + markRefund r * j.marked.card +
      j.restorations tier db := by
  have hslot : ∀ p : Address × Word,
      (j.slot? p.1 p.2).elim 0 (Price.held (clearRefund r) (db.slot p.1 p.2)) =
        if j.slot? p.1 p.2 = some 0 ∧ (j.initial? p.1 p.2).any (· != 0) = true
          then clearRefund r else 0 := by
    intro p
    cases hp : j.slot? p.1 p.2 with
    | none => rfl
    | some v =>
      have hloaded : (j.slot? p.1 p.2).isSome := Option.isSome_of_eq_some hp
      obtain ⟨w, hw⟩ := Option.isSome_iff_exists.mp (h.recorded.loaded hloaded)
      rw [hw, ← h.value hw, Option.elim_some, Price.held]
      simp only [Option.some.injEq, Option.any_some, bne_iff_ne, and_comm]
  have hheld : held (clearRefund r) db (Facet.slots.see j.accounts) =
      clearRefund r * j.cleared.card :=
    (Finset.sum_congr rfl fun p _ => hslot p).trans (sum_indicator _ _)
  have hgranted : granted (markRefund r) (Facet.destroyed.see j.accounts) =
      markRefund r * j.marked.card := sum_indicator _ _
  rw [owed, hheld, hgranted]

/-- Neither slots nor marks change, so the counter stands for the same. -/
theorem owed_of_rests (hslots : Facet.slots.Rests j k) (hdestroyed : Facet.destroyed.Rests j k) :
    k.owed r tier db = j.owed r tier db := by
  obtain ⟨newer, he, hignores⟩ := hslots.entries
  rw [owed, owed, restorations, restorations, hslots.see, hdestroyed.see, he,
    restored_of_ignores hignores]

theorem restorations_cons {e : JournalEntry} (he : k.entries = e :: j.entries)
    (hk : Facet.slots.Retains j k) :
    k.restorations tier db =
      e.restoration tier db (Facet.slots.see k.accounts) + j.restorations tier db := by
  rw [restorations, he, restored, hk.unwind (.refl j) he, restorations]

theorem owed_congr
    (hheld : ∀ a key, (k.slot? a key).elim 0 (Price.held (clearRefund r) (db.slot a key)) =
      (j.slot? a key).elim 0 (Price.held (clearRefund r) (db.slot a key)))
    (hmarked : ∀ a, (k.view db a).destroyed = (j.view db a).destroyed)
    (hrestored : k.restorations tier db = j.restorations tier db) :
    k.owed r tier db = j.owed r tier db := by
  have hslots : held (clearRefund r) db (Facet.slots.see k.accounts) =
      held (clearRefund r) db (Facet.slots.see j.accounts) :=
    Finset.sum_congr rfl fun p _ => hheld p.1 p.2
  have hmarks : granted (markRefund r) (Facet.destroyed.see k.accounts) =
      granted (markRefund r) (Facet.destroyed.see j.accounts) :=
    Finset.sum_congr rfl fun a _ => by simp only [see_destroyed_iff db, hmarked]
  rw [owed, owed, hslots, hmarks, hrestored]

/-- A slot is loaded with the value of the database, for which it holds no refund. -/
theorem Faithful.unloaded_eq (h : j.Faithful db) (hx : j.accounts[a]? = some x) (key : Word) :
    unloaded db a x key = db.slot a key := by
  unfold unloaded
  split
  · rename_i hcreated
    refine (h.blank ?_ key).symm
    rw [Facet.see, hx]
    exact congrArg some hcreated
  · rfl

theorem Look.owed_eq (h : Look db j k) (hj : j.Faithful db) :
    k.owed r tier db = j.owed r tier db := by
  have hretains : Facet.slots.Retains j k := .of_extends h.extends
  have hmarked : ∀ a, (k.view db a).destroyed = (j.view db a).destroyed := fun a => by rw [h.view]
  cases h with
  | ask lookup => exact owed_of_rests (.of_eq rfl rfl) (.of_eq rfl rfl)
  | code loaded unfetched =>
    exact owed_of_rests (.update j _ fun _ => rfl) (.update j _ fun _ => rfl)
  | @account b absent =>
    refine owed_congr (fun a key => ?_) hmarked ?_
    · rw [slot?_load absent rfl]
    · rw [restorations_cons rfl hretains]
      exact Int.zero_add _
  | @slot b x key loaded absent =>
    refine owed_congr (fun a key' => ?_) hmarked ?_
    · rw [slot?_insert loaded rfl]
      split
      · rename_i hslot
        obtain ⟨rfl, rfl⟩ := hslot
        rw [slot?_of_loaded loaded, absent, hj.unloaded_eq loaded]
        exact held_self _ _
      · rfl
    · rw [restorations_cons rfl hretains]
      exact Int.zero_add _

theorem Faithful.looks (hj : j.Faithful db) (h : Looks db j k) : k.Faithful db :=
  hj.records h.records fun a ha => by
    rw [see_created_iff db, Looks.view h, ← see_created_iff] at ha
    exact .inl ha

theorem Looks.owed_eq (h : Looks db j k) (hj : j.Faithful db) :
    k.owed r tier db = j.owed r tier db := by
  induction h with
  | refl => rfl
  | tail hlooks hlook ih => exact (hlook.owed_eq (hj.looks hlooks)).trans ih

/-- A write finds the value of the database as the initial value. -/
theorem Faithful.change_eq {found : Loaded SlotChange} (hj : j.Faithful db)
    (h : writeSlot db a key new j = .ok found k) :
    found.value = ⟨db.slot a key, found.value.present, new⟩ := by
  obtain ⟨i, x, hlooks, hx, hs, hinitial, hnew, -⟩ := writeSlot_eq_ok h
  have hi := hj.looks hlooks
  have hloaded : (i.slot? a key).isSome := by
    rw [slot?_of_loaded hx, hs]
    rfl
  obtain ⟨v, hv⟩ := Option.isSome_iff_exists.mp (hi.recorded.loaded hloaded)
  rw [hv, Option.getD_some, hi.value hv] at hinitial
  rw [← hinitial, ← hnew]

/-- A write changes what its slot holds, and pays back for a restoration. -/
theorem owed_written (hx : j.accounts[a]? = some x) (hs : x.slots[key]? = some present)
    (new : Word) :
    (j.written a key present new).owed r tier db =
      j.owed r tier db + Price.held (clearRefund r) (db.slot a key) new -
        Price.held (clearRefund r) (db.slot a key) present +
          Price.restoration tier ⟨db.slot a key, present, new⟩ := by
  have hretains : Facet.slots.Retains j (j.written a key present new) :=
    .of_extends (Change.slot hx hs new).extends
  have hupdate : Facet.destroyed.Rests j
      (j.update a fun y => { y with slots := y.slots.insert key new }) := .update j a fun _ => rfl
  have hmarks : Facet.destroyed.Rests j (j.written a key present new) :=
    hupdate.trans (.note _ rfl)
  have hslot : ∀ b key', (j.written a key present new).slot? b key' =
      if a = b ∧ key = key' then some new else j.slot? b key' := slot?_insert hx rfl
  have hself : (j.written a key present new).slot? a key = some new := by
    rw [hslot, if_pos ⟨rfl, rfl⟩]
  have hheld : held (clearRefund r) db (Facet.slots.see (j.written a key present new).accounts) =
      held (clearRefund r) db (Facet.slots.see j.accounts) +
        (Price.held (clearRefund r) (db.slot a key) new -
          Price.held (clearRefund r) (db.slot a key) present) := by
    refine (sum_change (f := fun p : Address × Word =>
      (j.slot? p.1 p.2).elim 0 (Price.held (clearRefund r) (db.slot p.1 p.2)))
      (g := fun p => ((j.written a key present new).slot? p.1 p.2).elim 0
        (Price.held (clearRefund r) (db.slot p.1 p.2))) (a, key) fun p hp => ?_).trans ?_
    · rw [hslot, if_neg fun hsame => hp (Prod.ext hsame.1.symm hsame.2.symm)]
    · rw [hself, slot?_of_loaded hx, hs]
      rfl
  have hentry : JournalEntry.restoration tier db
      (Facet.slots.see (j.written a key present new).accounts) (.slotChanged a key (some present)) =
        Price.restoration tier ⟨db.slot a key, present, new⟩ := by
    rw [JournalEntry.restoration, ← slot?, hself, Option.getD_some]
  rw [owed, owed, restorations_cons rfl hretains, hentry, hheld, hmarks.see]
  ring

theorem see_destroy (hx : j.accounts[a]? = some x) (target b : Address) :
    Facet.destroyed.see (j.destroy a target x).accounts b =
      if a = b then some true else Facet.destroyed.see j.accounts b := by
  have hemptied : Facet.destroyed.see (j.emptied a).accounts b =
      if a = b then some true else Facet.destroyed.see j.accounts b := by
    rw [emptied, update, Facet.see, Accounts.getElem?_modify]
    split
    · rw [hx]
      rfl
    · rfl
  by_cases hat : a = target
  · subst hat
    rw [destroy_self]
    exact hemptied
  · have hrest : Facet.destroyed.Rests (j.emptied a)
        (((j.emptied a).touch target).rebalance target (· + x.info.balance)) :=
      (Facet.Rests.touch _ target).trans (.update _ target fun _ => rfl)
    rw [destroy_of_ne j hat]
    exact (congrFun hrest.see b).trans hemptied

/-- Marking an account makes it hold a refund, unless it is marked already. -/
theorem owed_destroy (hx : j.accounts[a]? = some x) (target : Address) :
    (j.destroy a target x).owed r tier db =
      j.owed r tier db + if x.flags.destroyed = true then 0 else markRefund r := by
  have hslots : Facet.slots.Rests j (j.destroy a target x) := .destroy rfl (fun _ _ _ => rfl) j
  obtain ⟨newer, he, hignores⟩ := hslots.entries
  have hrestored : (j.destroy a target x).restorations tier db = j.restorations tier db := by
    rw [restorations, hslots.see, he, restored_of_ignores hignores, restorations]
  have hmarks : granted (markRefund r) (Facet.destroyed.see (j.destroy a target x).accounts) =
      granted (markRefund r) (Facet.destroyed.see j.accounts) +
        if x.flags.destroyed = true then 0 else markRefund r := by
    refine (sum_change (f := fun b =>
      if Facet.destroyed.see j.accounts b = some true then markRefund r else 0) a
        fun b hb => ?_).trans ?_
    · simp only [see_destroy hx, if_neg hb.symm]
    · have hself : Facet.destroyed.see j.accounts a = some x.flags.destroyed := by
        rw [Facet.see, hx]
        rfl
      simp only [see_destroy hx, if_true, hself, Option.some.injEq]
      cases x.flags.destroyed with
      | true => simp [granted]
      | false => simp [granted]
  rw [owed, owed, hslots.see, hrestored, hmarks]
  ring

end Journal

end MeteredVM
