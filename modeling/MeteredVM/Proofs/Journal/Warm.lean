import Mathlib.Data.Finset.Insert
import MeteredVM.Proofs.Journal.Ledger

namespace MeteredVM

inductive AccessKey where
  | account (address : Address)
  | slot (address : Address) (key : Word)
  deriving DecidableEq, Repr

def AccessKey.lookup : AccessKey → Lookup
  | account a => .account a
  | slot a key => .slot a key

namespace Journal

def isWarm (j : Journal) : AccessKey → Bool
  | .account a => (j.accounts[a]?).isSome
  | .slot a key => (j.slot? a key).isSome

def reached (keys : List AccessKey) (k : Journal) : List AccessKey :=
  keys.takeWhile fun key => k.lookups.head? ≠ some key.lookup

variable {db : Database} {i j k : Journal} {keys keys' : List AccessKey}

theorem isWarm_of_see (h : Facet.slots.see k.accounts = Facet.slots.see j.accounts) :
    k.isWarm = j.isWarm := by
  funext key
  cases key with
  | account a =>
    have ha := congrArg Option.isSome (congrFun h a)
    simp only [Facet.see, Option.isSome_map] at ha
    exact ha
  | slot a key => simp only [isWarm, slot?, h]

/-- The change makes the keys warm and nothing else, and it can be undone as far as slots go. -/
structure Warms (keys : List AccessKey) (j k : Journal) : Prop where
  warm (key : AccessKey) : k.isWarm key = true ↔ key ∈ keys ∨ j.isWarm key = true
  retains : Facet.slots.Retains j k

theorem Warms.of_rests (h : Facet.slots.Rests j k) : Warms [] j k where
  warm key := by simp [isWarm_of_see h.see]
  retains := h.retains

theorem Warms.refl (j : Journal) : Warms [] j j := .of_rests (.refl j)

theorem Warms.trans (h : Warms keys i j) (h' : Warms keys' j k) : Warms (keys ++ keys') i k where
  warm key := by
    rw [h'.warm, h.warm, List.mem_append]
    tauto
  retains := h.retains.trans h'.retains

theorem Warms.rests (h : Warms keys i j) (h' : Facet.slots.Rests j k) : Warms keys i k := by
  have hboth := h.trans (.of_rests h')
  rwa [List.append_nil] at hboth

theorem Warms.of_mem (h : Warms keys j k) (hkeys : ∀ key, key ∈ keys ↔ key ∈ keys') :
    Warms keys' j k where
  warm key := by rw [h.warm, hkeys]
  retains := h.retains

theorem Warms.add (h : Warms keys j k) {key : AccessKey} (hkey : k.isWarm key = true) :
    Warms (keys ++ [key]) j k where
  warm key' := by
    rw [h.warm, List.mem_append, List.mem_singleton]
    refine ⟨fun hw => ?_, ?_⟩
    · tauto
    · rintro ((hk | rfl) | hj)
      · exact .inl hk
      · exact (h.warm _).mp hkey
      · exact .inr hj
  retains := h.retains

/-- An access that reaches keys, one after the other, and tells whether one of them was cold. -/
def Accesses {α : Type} (x : Loading α) (keys : List AccessKey) (key : AccessKey) (cold : α → Bool)
    (j : Journal) : Prop :=
  Ends x j (fun _ k => Warms (reached keys k) j k) fun a k =>
    Warms keys j k ∧ cold a = !j.isWarm key

theorem Warms.account {a : Address} (absent : j.accounts[a]? = none)
    (hk : k.accounts = j.accounts.insert a (fresh db a)) (hretains : Facet.slots.Retains j k) :
    Warms [.account a] j k where
  warm key := by
    cases key with
    | account b =>
      simp only [isWarm, hk, Std.ExtTreeMap.getElem?_insert, Std.LawfulEqCmp.compare_eq_iff_eq,
        List.mem_singleton, AccessKey.account.injEq]
      by_cases hab : a = b
      · simp [hab]
      · simp [hab, Ne.symm hab]
    | slot b key =>
      simp only [isWarm, slot?_load absent hk, List.mem_singleton, reduceCtorEq, false_or]
  retains := hretains

theorem Warms.slot {a : Address} {x : Account} (loaded : j.accounts[a]? = some x) {key v : Word}
    (hk : k.accounts = j.accounts.modify a fun y => { y with slots := y.slots.insert key v })
    (hretains : Facet.slots.Retains j k) : Warms [.slot a key] j k where
  warm key' := by
    cases key' with
    | account b =>
      simp only [isWarm, hk, loaded_modify, List.mem_singleton, reduceCtorEq, false_or]
    | slot b key' =>
      simp only [isWarm, slot?_insert loaded hk, List.mem_singleton, AccessKey.slot.injEq]
      by_cases hab : a = b ∧ key = key'
      · simp [hab]
      · have hba : ¬(b = a ∧ key' = key) := fun h => hab ⟨h.1.symm, h.2.symm⟩
        simp [hab, hba]
  retains := hretains

section Loads

variable (db : Database) (a : Address) (j : Journal)

theorem lookup_ends (l : Lookup) :
    Ends (lookup db l) j
      (fun outage k =>
        k = { j with lookups := l :: j.lookups } ∧ db.outage j.lookups l = some outage)
      fun _ k => k = { j with lookups := l :: j.lookups } ∧ db.outage j.lookups l = none := by
  simp only [Ends, lookup]
  cases db.outage j.lookups l with
  | some outage => exact ⟨rfl, rfl⟩
  | none => exact ⟨rfl, rfl⟩

theorem asked_rests (l : Lookup) : Facet.slots.Rests j { j with lookups := l :: j.lookups } :=
  .of_eq rfl rfl

theorem loadAccount_warms :
    Ends (loadAccount db a) j
      (fun _ k =>
        k.lookups.head? = some (.account a) ∧ j.isWarm (.account a) = false ∧ Warms [] j k)
      fun x k =>
      Warms [.account a] j k ∧ x.cold = !j.isWarm (.account a) ∧ k.accounts[a]? = some x.value := by
  apply Ends.bind .get
  rintro _ i ⟨rfl, rfl⟩
  split
  · rename_i x hx
    have hwarm : i.isWarm (.account a) = true := Option.isSome_of_eq_some hx
    refine .pure ⟨(Warms.refl i).add hwarm, ?_, hx⟩
    rw [hwarm]
    rfl
  · rename_i hx
    have hcold : i.isWarm (.account a) = false := by simp only [isWarm, hx, Option.isSome_none]
    refine Ends.bind ((lookup_ends db _ _).refused ?_) ?_
    · rintro _ k ⟨rfl, -⟩
      exact ⟨rfl, hcold, .of_rests (asked_rests _ _)⟩
    rintro - l ⟨hl, -⟩
    have hasked : Facet.slots.Rests i l := hl ▸ asked_rests i _
    have hx' : l.accounts[a]? = none := by rwa [hl]
    apply Ends.bind .modify
    rintro - k hk
    have hlook : Look db l k := hk ▸ .account hx'
    have hloaded : Warms [.account a] l k :=
      .account hx' (congrArg Journal.accounts hk) (.of_extends hlook.extends)
    refine .pure ⟨(Warms.of_rests hasked).trans hloaded, ?_, ?_⟩
    · rw [hcold]
      rfl
    · rw [hk]
      simp [note]

theorem reached_of_failed {key : AccessKey} (h : k.lookups.head? = some key.lookup) :
    reached (key :: keys) k = [] := by
  simp [reached, h]

theorem loadAccount_accesses :
    Accesses (loadAccount db a) [.account a] (.account a) Loaded.cold j := by
  refine ((loadAccount_warms db a j).refused ?_).imp ?_
  · rintro _ k ⟨hfailed, -, hk⟩
    rwa [reached_of_failed hfailed]
  · rintro x k ⟨hk, hcold, -⟩
    exact ⟨hk, hcold⟩

theorem loadExistence_warms :
    Ends (loadExistence db a) j
      (fun _ k =>
        k.lookups.head? = some (.account a) ∧ j.isWarm (.account a) = false ∧ Warms [] j k)
      fun found k => Warms [.account a] j k ∧ found.cold = !j.isWarm (.account a) := by
  apply Ends.bind (loadAccount_warms db a j)
  rintro x k ⟨hk, hcold, -⟩
  apply Ends.bind .get
  rintro _ _ ⟨rfl, rfl⟩
  split
  · exact .pure ⟨hk, hcold⟩
  · exact .pure ⟨hk, hcold⟩

theorem loadExistence_accesses :
    Accesses (loadExistence db a) [.account a] (.account a) Existence.cold j := by
  refine (loadExistence_warms db a j).refused ?_
  rintro _ k ⟨hfailed, -, hk⟩
  rwa [reached_of_failed hfailed]

theorem fetchCode_accesses (hk : Warms [.account a] j k) (code : Bytes) :
    Ends (fetchCode a code !j.isWarm (.account a)) k
      (fun _ l => Warms (reached [.account a] l) j l) fun found l =>
      Warms [.account a] j l ∧ found.cold = !j.isWarm (.account a) := by
  apply Ends.bind .modify
  rintro - _ rfl
  exact .pure ⟨hk.rests (.update k a fun _ => rfl), rfl⟩

theorem loadCode_accesses :
    Accesses (loadCode db a) [.account a] (.account a) Loaded.cold j := by
  refine Ends.bind ((loadAccount_warms db a j).refused ?_) ?_
  · rintro _ k ⟨hfailed, -, hk⟩
    rwa [reached_of_failed hfailed]
  rintro x k ⟨hk, hcold, -⟩
  split
  · exact .pure ⟨hk, hcold⟩
  rw [hcold]
  by_cases hempty : x.value.info.codeHash = emptyCodeHash
  · simp only [hempty, ne_eq, not_true_eq_false, if_false, if_true]
    exact fetchCode_accesses _ _ hk _
  · simp only [hempty, ne_eq, not_false_eq_true, if_false, if_true]
    refine Ends.bind ((lookup_ends db _ _).refused ?_) ?_
    · -- The account is loaded even if its code is not.
      rintro _ _ ⟨rfl, -⟩
      exact hk.rests (asked_rests k _)
    · rintro - _ ⟨rfl, -⟩
      exact fetchCode_accesses _ _ (hk.rests (asked_rests k _)) _

variable (key : Word)

theorem fetchSlot_accesses {x : Account} {v : Word} (hk : Warms [.account a] j k)
    (hx : k.accounts[a]? = some x) (absent : x.slots[key]? = none) (hv : v = unloaded db a x key)
    (hcold : j.isWarm (.slot a key) = false) :
    Ends (fetchSlot a key v) k (fun _ l => Warms (reached [.account a, .slot a key] l) j l)
      fun found l =>
      Warms [.account a, .slot a key] j l ∧ found.cold = !j.isWarm (.slot a key) := by
  subst hv
  apply Ends.bind .modify
  rintro - l hl
  have hlook : Look db k l := hl ▸ .slot hx absent
  have hloaded : Warms [.slot a key] k l :=
    .slot hx (congrArg Journal.accounts hl) (.of_extends hlook.extends)
  refine .pure ⟨hk.trans hloaded, ?_⟩
  rw [hcold]
  rfl

theorem readSlot_accesses :
    Accesses (readSlot db a key) [.account a, .slot a key] (.slot a key) Loaded.cold j := by
  refine Ends.bind ((loadAccount_warms db a j).refused ?_) ?_
  · rintro _ k ⟨hfailed, -, hk⟩
    rwa [reached_of_failed hfailed]
  rintro x k ⟨hk, -, hx⟩
  -- Loading the account loads none of its slots.
  have hsame : k.isWarm (.slot a key) = j.isWarm (.slot a key) := by
    rw [Bool.eq_iff_iff, hk.warm]
    simp
  have hslot : k.slot? a key = x.value.slots[key]? := slot?_of_loaded hx key
  split
  · rename_i v hv
    have hwarm : k.isWarm (.slot a key) = true := by
      rw [isWarm, hslot, hv]
      rfl
    refine .pure ⟨hk.add hwarm, ?_⟩
    rw [← hsame, hwarm]
    rfl
  rename_i hv
  have hcold : j.isWarm (.slot a key) = false := by
    rw [← hsame, isWarm, hslot, hv]
    rfl
  by_cases hcreated : x.value.flags.created = true
  · simp only [hcreated, Bool.not_true, Bool.false_eq_true, if_false, if_true]
    exact fetchSlot_accesses db a j key hk hx hv (by rw [unloaded, if_pos hcreated]) hcold
  · simp only [hcreated, Bool.not_false, if_true, Bool.false_eq_true, if_false]
    refine Ends.bind ((lookup_ends db _ _).refused ?_) ?_
    · rintro _ l ⟨rfl, -⟩
      have hreached : reached [.account a, .slot a key]
          { k with lookups := .slot a key :: k.lookups } = [.account a] := by
        simp [reached, AccessKey.lookup]
      rw [hreached]
      exact hk.rests (asked_rests k _)
    · rintro - l ⟨rfl, -⟩
      have hasked := hk.rests (asked_rests k (.slot a key))
      exact fetchSlot_accesses db a j key hasked hx hv (by rw [unloaded, if_neg hcreated]) hcold

theorem writeSlot_accesses (new : Word) :
    Accesses (writeSlot db a key new) [.account a, .slot a key] (.slot a key) Loaded.cold j := by
  apply Ends.bind (readSlot_accesses db a j key).known
  rintro present k ⟨hread, hk, hcold⟩
  have hshows : Shows db (readSlot db a key) j _ := readSlot_shows a key j
  obtain ⟨-, x, hx, hv⟩ := hshows.ok hread
  apply Ends.bind .get
  rintro _ i ⟨rfl, rfl⟩
  dsimp only
  split
  · apply Ends.bind .modify
    rintro - m hm
    have hchange : Change i m := by
      rw [hm]
      exact .slot hx hv new
    have hwritten : Warms [.slot a key] i m :=
      .slot hx (congrArg Journal.accounts hm) (.of_extends hchange.extends)
    exact .pure ⟨(hk.trans hwritten).of_mem fun key' => by simp, hcold⟩
  · exact .pure ⟨hk, hcold⟩

theorem selfDestruct_accesses (target : Address) :
    Accesses (selfDestruct db a target) [.account target, .account a] (.account target) Loaded.cold
      j := by
  rw [selfDestruct_eq]
  refine Ends.bind ((loadExistence_warms db target j).refused ?_) ?_
  · rintro _ k ⟨hfailed, -, hk⟩
    rwa [reached_of_failed hfailed]
  rintro found k ⟨hk, hcold⟩
  refine Ends.bind ((loadAccount_warms db a k).refused ?_) ?_
  · rintro _ l ⟨hfailed, hcold, hl⟩
    have hne : target ≠ a := by
      rintro rfl
      rw [(hk.warm _).mpr (.inl List.mem_cons_self)] at hcold
      cases hcold
    have hreached : reached [.account target, .account a] l = [.account target] := by
      simp [reached, hfailed, AccessKey.lookup, Ne.symm hne]
    rw [hreached]
    exact hk.trans hl
  rintro x l ⟨hl, -⟩
  apply Ends.bind .modify
  rintro - _ rfl
  exact .pure ⟨(hk.trans hl).rests (.destroy rfl (fun _ _ _ => rfl) l), hcold⟩

theorem loadBlockHash_rests (number : Nat) :
    Ends (loadBlockHash db number) j (fun _ k => Facet.slots.Rests j k) fun _ k =>
      Facet.slots.Rests j k := by
  refine Ends.bind ((lookup_ends db j (.blockHash number)).refused ?_) ?_
  · rintro _ k ⟨rfl, -⟩
    exact asked_rests j _
  · rintro - k ⟨rfl, -⟩
    exact .pure (asked_rests j _)

end Loads

end Journal

end MeteredVM
