import MeteredVM.Proofs.Journal.Lockstep
import MeteredVM.Sandbox

namespace MeteredVM

/-- What code does to the storage of its account and to the refund counter. -/
inductive SlotAccess where
  | read (key : Word)
  | write (key new : Word)
  | refund (amount : Int)
  deriving DecidableEq, Repr

inductive SlotAnswer where
  | value (found : Loaded Word)
  | change (found : Loaded SlotChange)
  | counted
  deriving DecidableEq, Repr

def SlotAccess.counted (total : Int) : SlotAccess → Except Fault Int
  | read _ => .ok total
  | write _ _ => .ok total
  | refund amount => Counter.add total amount

/-- The storage of one account and the refund counter, as they are kept in a state `σ`. -/
structure Storage (ε σ : Type) where
  read : Word → EStateM ε σ (Loaded Word)
  write : Word → Word → EStateM ε σ (Loaded SlotChange)
  refund : Int → σ → Except Fault σ

namespace Storage

variable {ε σ : Type} (x : Storage ε σ)

def readSlot (key : Word) : EStateM Ending σ (Loaded Word) :=
  (x.read key).adaptExcept fun _ => .status .hostFailure

def writeSlot (key new : Word) : EStateM Ending σ (Loaded SlotChange) :=
  (x.write key new).adaptExcept fun _ => .status .hostFailure

def count (amount : Int) : EStateM Ending σ Unit := fun s =>
  match x.refund amount s with
  | .ok t => .ok () t
  | .error e => .error (.fault e) s

def access : SlotAccess → EStateM Ending σ SlotAnswer
  | .read key => return .value (← x.readSlot key)
  | .write key new => return .change (← x.writeSlot key new)
  | .refund amount => do
    x.count amount
    return .counted

/-- An access as instructions make it: a write has its refund counted. It comes with its price. -/
def metered (r : Rules) : SlotAccess → EStateM Ending σ Nat
  | .read key => return Price.slotRead r (← x.readSlot key).cold
  | .write key new => do
    let found ← x.writeSlot key new
    x.count (Price.slotRefund r found.value)
    return Price.slotWrite r found.value found.cold
  | .refund amount => do
    x.count amount
    return 0

end Storage

def Host.storage {σ : Type} (h : Host σ) (a : Address) : Storage Unavailable σ :=
  ⟨h.readSlot a, h.writeSlot a, h.refund⟩

def Journal.storage (db : Database) (a : Address) : Storage Outage Journal :=
  ⟨readSlot db a, writeSlot db a, fun amount j => j.recordRefund amount⟩

theorem Database.empty_steady : Database.empty.Steady := fun _ _ => rfl

section Runs

variable {ε σ τ α β : Type}

/-- Steps are made one after the other. What is known may depend on the steps that are still to come. -/
theorem Ends.mapM {f : β → EStateM ε σ α} {E : ε → σ → Prop} {I : List β → σ → Prop}
    (h : ∀ b rest s, I (b :: rest) s → Ends (f b) s E fun _ t => I rest t) (l : List β) {s : σ}
    (hs : I l s) : Ends (l.mapM f) s E fun _ t => I [] t := by
  induction l generalizing s with
  | nil => exact .pure hs
  | cons b rest ih =>
    rw [List.mapM_cons]
    exact .bind (h b rest s hs) fun _ _ ht => .bind (ih ht) fun _ _ hu => .pure hu

theorem Lockstep.mapM {S : σ → τ → Prop} {f : β → EStateM ε σ α} {g : β → EStateM ε τ α}
    (h : ∀ b, Lockstep S Eq (f b) (g b)) (l : List β) : Lockstep S Eq (l.mapM f) (l.mapM g) := by
  induction l with
  | nil => exact .pure rfl
  | cons b rest ih =>
    rw [List.mapM_cons, List.mapM_cons]
    refine .bind (h b) ?_
    rintro a _ rfl
    refine .bind ih ?_
    rintro later _ rfl
    exact .pure rfl

theorem Abreast.ok_or_error {S : σ → τ → Prop} {x : EStateM.Result ε σ α} {y : EStateM.Result ε τ α}
    (h : Abreast S Eq x y) : (∃ a s t, x = .ok a s ∧ y = .ok a t ∧ S s t) ∨
      ∃ e s t, x = .error e s ∧ y = .error e t := by
  cases h with
  | @ok a b s t related states => exact .inl ⟨a, s, t, rfl, related ▸ rfl, states⟩
  | @error e s t states => exact .inr ⟨e, s, t, rfl, rfl⟩

end Runs

namespace Journal

variable {a : Address} {key v : Word} {j k : Journal}

theorem eq_ite_of_eq {f : Word → Option Word} {o : Option Word} (h : f key = o) (key' : Word) :
    f key' = if key = key' then o else f key' := by
  split
  · rename_i hkey
    rw [← hkey, h]
  · rfl

def Predates (a : Address) (j : Journal) : Prop :=
  ∀ x, j.accounts[a]? = some x → x.flags.created = false

/-- A slot of the account has this value, and zero as its initial value. The other slots and the refund
counter are as before. -/
structure Stored (a : Address) (key v : Word) (j k : Journal) : Prop where
  slot (key' : Word) : k.slot? a key' = if key = key' then some v else j.slot? a key'
  initial (key' : Word) : k.initial? a key' = if key = key' then some 0 else j.initial? a key'
  loaded : ∃ x, k.accounts[a]? = some x ∧ x.flags.created = false
  refund : k.refund = j.refund

theorem Stored.predates (h : Stored a key v j k) : Predates a k := by
  intro y hy
  obtain ⟨x, hx, hcreated⟩ := h.loaded
  rw [hx] at hy
  cases hy
  exact hcreated

theorem loadAccount_empty (h : Predates a j) :
    Ends (loadAccount .empty a) j (fun _ _ => False) fun found k =>
      k.accounts[a]? = some found.value ∧ found.value.flags.created = false ∧
        (∀ key, k.slot? a key = j.slot? a key) ∧ k.ledger = j.ledger ∧ k.refund = j.refund := by
  apply Ends.bind .get
  rintro _ _ ⟨rfl, rfl⟩
  split
  · rename_i x hx
    exact .pure ⟨hx, h x hx, fun _ => rfl, rfl, rfl⟩
  · rename_i absent
    refine Ends.bind (lookup_steady Database.empty_steady _ _) fun _ k hk => Ends.bind .modify ?_
    rintro - _ rfl
    subst hk
    refine .pure ⟨Std.ExtTreeMap.getElem?_insert_self, fresh_created _ _, fun key => ?_, rfl, rfl⟩
    exact slot?_load absent rfl a key

/-- A slot that is not loaded is read as zero, and zero is recorded for it. -/
theorem readSlot_empty (h : Predates a j)
    (hinitial : j.initial? a key = (j.slot? a key).map fun _ => 0) :
    Ends (readSlot .empty a key) j (fun _ _ => False) fun found k =>
      found = ⟨(j.slot? a key).getD 0, (j.slot? a key).isNone⟩ ∧ Stored a key found.value j k := by
  apply Ends.bind (loadAccount_empty h)
  rintro ⟨x, cold⟩ k ⟨hx, hcreated, hslot, hledger, hrefund⟩
  dsimp only at hx hcreated ⊢
  rw [← slot?_of_loaded hx, hslot]
  cases hv : j.slot? a key with
  | some v =>
    rw [hv, Option.map_some] at hinitial
    refine .pure ⟨rfl, fun key' => ?_, fun key' => ?_, ⟨x, hx, hcreated⟩, hrefund⟩
    · rw [hslot]
      exact eq_ite_of_eq hv key'
    · rw [initial?, hledger]
      exact eq_ite_of_eq hinitial key'
  | none =>
    rw [hv, Option.map_none] at hinitial
    simp only [hcreated, Bool.not_false, if_true, Bool.false_eq_true, if_false]
    refine Ends.bind (lookup_steady Database.empty_steady _ _) fun _ l hl => Ends.bind .modify ?_
    rintro - m hm
    subst hl
    have haccounts : m.accounts = k.accounts.modify a fun y =>
        { y with slots := y.slots.insert key 0 } := congrArg Journal.accounts hm
    have hrecord : m.ledger = k.ledger.record ⟨a, key⟩ 0 := congrArg Journal.ledger hm
    refine .pure ⟨rfl, fun key' => ?_, fun key' => ?_, ?_, ?_⟩
    · rw [slot?_insert hx haccounts, hslot]
      simp only [true_and]
      rfl
    · rw [initial?, hrecord, hledger, Ledger.initial?_record]
      simp only [SlotId.mk.injEq, true_and]
      split
      · rw [← initial?, hinitial, Option.getD_none]
      · rfl
    · rw [haccounts, Accounts.getElem?_modify, if_pos rfl, hx]
      exact ⟨_, rfl, hcreated⟩
    · exact (congrArg Journal.refund hm).trans hrefund

/-- Overwriting a loaded slot is as if the new value had been loaded. -/
theorem Stored.written (h : Stored a key v j k) (new : Word) :
    Stored a key new j (k.written a key v new) := by
  obtain ⟨x, hx, hcreated⟩ := h.loaded
  refine ⟨fun key' => ?_, h.initial, ?_, h.refund⟩
  · rw [slot?_insert (k := k.written a key v new) hx rfl, h.slot]
    simp only [true_and]
    split
    · rfl
    · rfl
  · have hwritten : (k.written a key v new).accounts[a]? =
        some { x with slots := x.slots.insert key new } := by
      rw [Journal.written, note, update, Accounts.getElem?_modify, if_pos rfl, hx]
      rfl
    exact ⟨_, hwritten, hcreated⟩

theorem writeSlot_empty (h : Predates a j)
    (hinitial : j.initial? a key = (j.slot? a key).map fun _ => 0) (new : Word) :
    Ends (writeSlot .empty a key new) j (fun _ _ => False) fun found k =>
      found = ⟨⟨0, (j.slot? a key).getD 0, new⟩, (j.slot? a key).isNone⟩ ∧ Stored a key new j k := by
  apply Ends.bind (readSlot_empty h hinitial)
  rintro _ k ⟨rfl, hstored⟩
  apply Ends.bind .get
  rintro _ k ⟨rfl, rfl⟩
  have hzero : k.ledger.initial? ⟨a, key⟩ = some 0 := (hstored.initial key).trans (if_pos rfl)
  rw [hzero, Option.getD_some]
  split
  · apply Ends.bind .modify
    rintro - _ rfl
    exact .pure ⟨rfl, hstored.written new⟩
  · rename_i hsame
    rw [not_not.mp hsame] at hstored
    exact .pure ⟨rfl, hstored⟩

end Journal

namespace Sandbox

variable {a : Address} {s : Sandbox} {j k : Journal} {key v : Word}

section Equations

variable (environment : Environment) (a : Address) (s : Sandbox) (key new : Word)

theorem storage_readSlot : ((host environment).storage a).readSlot key s =
    .ok ⟨s.slots[key]?.getD 0, s.slots[key]?.isNone⟩
      { s with slots := s.slots.insert key (s.slots[key]?.getD 0) } := by
  simp only [Storage.readSlot, Host.storage, host, EStateM.adaptExcept, readSlot]
  cases hv : s.slots[key]? with
  | some v =>
    have hsame : s.slots.insert key v = s.slots := by
      apply Std.ExtTreeMap.ext_getElem?
      intro key'
      rw [Std.ExtTreeMap.getElem?_insert]
      split
      · rename_i hkey
        rw [← Std.LawfulEqCmp.compare_eq_iff_eq.mp hkey, hv]
      · rfl
    rw [Option.getD_some, hsame]
    rfl
  | none => rfl

theorem storage_writeSlot : ((host environment).storage a).writeSlot key new s =
    .ok ⟨⟨s.initials[key]?.getD (s.slots[key]?.getD 0), s.slots[key]?.getD 0, new⟩,
        s.slots[key]?.isNone⟩
      { s with
        slots := s.slots.insert key new
        initials := s.initials.insertIfNew key (s.slots[key]?.getD 0) } := by
  simp only [Storage.writeSlot, Host.storage, host, EStateM.adaptExcept, writeSlot,
    Std.ExtTreeMap.getD_eq_getD_getElem?, Std.ExtTreeMap.contains_eq_isSome_getElem?,
    Option.not_isSome]

theorem storage_count (amount : Int) :
    Ends (((host environment).storage a).count amount) s
      (fun e _ => e = .fault .overflow ∧ Counter.add s.refund amount = .error .overflow)
      fun _ t => Counter.add s.refund amount = .ok t.refund := by
  simp only [Ends, Storage.count, Host.storage, host, Counter.add]
  by_cases hin : Int64.minValue.toInt ≤ s.refund + amount ∧ s.refund + amount ≤ Int64.maxValue.toInt
  · rw [if_pos hin]
    rfl
  · rw [if_neg hin]
    exact ⟨rfl, rfl⟩

end Equations

def Zeroed (initials slots : Slots) : Prop :=
  ∀ key : Word, initials[key]?.getD (slots[key]?.getD 0) = 0

theorem Zeroed.read {initials slots : Slots} (h : Zeroed initials slots) (key : Word) :
    Zeroed initials (slots.insert key (slots[key]?.getD 0)) := by
  intro key'
  rw [Std.ExtTreeMap.getElem?_insert]
  split
  · rename_i hkey
    rw [← Std.LawfulEqCmp.compare_eq_iff_eq.mp hkey, Option.getD_some]
    exact h key
  · exact h key'

/-- The first write settles the initial value, later ones find it. -/
theorem Zeroed.write {initials slots : Slots} (h : Zeroed initials slots) (key new : Word) :
    Zeroed (initials.insertIfNew key (slots[key]?.getD 0)) (slots.insert key new) := by
  intro key'
  rw [Std.ExtTreeMap.getElem?_insertIfNew, Std.ExtTreeMap.getElem?_insert]
  by_cases hkey : key = key'
  · subst hkey
    have hzero := h key
    cases hinitial : initials[key]? with
    | some v =>
      rw [hinitial] at hzero
      have hmem : key ∈ initials := Std.ExtTreeMap.mem_iff_isSome_getElem?.mpr (by rw [hinitial]; rfl)
      rw [if_neg fun hnew => hnew.2 hmem]
      exact hzero
    | none =>
      rw [hinitial] at hzero
      have hmem : key ∉ initials := by
        rw [Std.ExtTreeMap.mem_iff_isSome_getElem?, hinitial]
        nofun
      rw [if_pos ⟨Std.LawfulEqCmp.compare_eq_iff_eq.mpr rfl, hmem⟩]
      exact hzero
  · have hne : compare key key' ≠ .eq := mt Std.LawfulEqCmp.compare_eq_iff_eq.mp hkey
    rw [if_neg fun hnew => hne hnew.1, if_neg hne]
    exact h key'

/-- The account has the storage of the sandbox, and both have started from zeros. Their records of initial
values differ: the sandbox has none for a slot that was only read. -/
structure Matches (a : Address) (s : Sandbox) (j : Journal) : Prop where
  slots (key : Word) : s.slots[key]? = j.slot? a key
  initials (key : Word) : j.initial? a key = (j.slot? a key).map fun _ => 0
  zeroed : Zeroed s.initials s.slots
  predates : Journal.Predates a j
  refund : s.refund = j.refund

theorem Matches.fresh (a : Address) (fork : Hardfork) : Matches a {} (.ofHardfork fork) := by
  have hnone : ∀ key, (Journal.ofHardfork fork).slot? a key = none := by
    intro key
    simp [Journal.slot?, slotIn, Facet.see_ofHardfork]
  refine ⟨fun key => ?_, fun key => ?_, fun key => ?_, ?_, rfl⟩
  · rw [hnone]
    exact Std.ExtTreeMap.getElem?_empty
  · rw [hnone]
    exact Ledger.initial?_empty _
  · rw [Std.ExtTreeMap.getElem?_empty]
    rfl
  · intro x hx
    cases hx

/-- Both go on to match when a slot is stored, with an initial value that is still zero. -/
theorem Matches.stored (h : Matches a s j) (hk : Journal.Stored a key v j k) {initials : Slots}
    (zeroed : Zeroed initials (s.slots.insert key v)) :
    Matches a { s with slots := s.slots.insert key v, initials := initials } k := by
  refine ⟨fun key' => ?_, fun key' => ?_, zeroed, hk.predates, h.refund.trans hk.refund.symm⟩
  · rw [hk.slot, ← h.slots, Std.ExtTreeMap.getElem?_insert]
    simp only [Std.LawfulEqCmp.compare_eq_iff_eq]
  · rw [hk.initial, hk.slot, h.initials]
    split
    · rfl
    · rfl

section Lockstep

variable (environment : Environment) (a : Address)

theorem readSlot_lockstep (key : Word) :
    Lockstep (Matches a) Eq (((host environment).storage a).readSlot key)
      ((Journal.storage .empty a).readSlot key) := by
  intro s j h
  obtain ⟨_, k, hread, rfl, hstored⟩ := (Journal.readSlot_empty h.predates (h.initials key)).exists_ok
  have hzeroed := h.zeroed.read key
  rw [storage_readSlot]
  simp only [Storage.readSlot, Journal.storage, EStateM.adaptExcept, hread]
  rw [h.slots] at hzeroed ⊢
  exact .ok rfl (h.stored hstored hzeroed)

theorem writeSlot_lockstep (key new : Word) :
    Lockstep (Matches a) Eq (((host environment).storage a).writeSlot key new)
      ((Journal.storage .empty a).writeSlot key new) := by
  intro s j h
  obtain ⟨_, k, hwrite, rfl, hstored⟩ :=
    (Journal.writeSlot_empty h.predates (h.initials key) new).exists_ok
  have hzeroed := h.zeroed.write key new
  rw [storage_writeSlot]
  simp only [Storage.writeSlot, Journal.storage, EStateM.adaptExcept, hwrite]
  rw [h.zeroed key, h.slots]
  rw [h.slots] at hzeroed
  exact .ok rfl (h.stored hstored hzeroed)

theorem count_lockstep (amount : Int) :
    Lockstep (Matches a) Eq (((host environment).storage a).count amount)
      ((Journal.storage .empty a).count amount) := by
  intro s j h
  simp only [Storage.count, Host.storage, Journal.storage, host, Journal.recordRefund, h.refund]
  cases Counter.add j.refund amount with
  | ok total => exact .ok rfl { h with refund := rfl }
  | error e => exact .error _ h

theorem access_lockstep (c : SlotAccess) :
    Lockstep (Matches a) Eq (((host environment).storage a).access c)
      ((Journal.storage .empty a).access c) := by
  cases c with
  | read key =>
    refine .bind (readSlot_lockstep environment a key) ?_
    rintro found _ rfl
    exact .pure rfl
  | write key new =>
    refine .bind (writeSlot_lockstep environment a key new) ?_
    rintro found _ rfl
    exact .pure rfl
  | refund amount => exact .bind (count_lockstep environment a amount) fun _ _ _ => .pure rfl

theorem metered_lockstep (r : Rules) (c : SlotAccess) :
    Lockstep (Matches a) Eq (((host environment).storage a).metered r c)
      ((Journal.storage .empty a).metered r c) := by
  cases c with
  | read key =>
    refine .bind (readSlot_lockstep environment a key) ?_
    rintro found _ rfl
    exact .pure rfl
  | write key new =>
    refine .bind (writeSlot_lockstep environment a key new) ?_
    rintro found _ rfl
    exact .bind (count_lockstep environment a _) fun _ _ _ => .pure rfl
  | refund amount => exact .bind (count_lockstep environment a amount) fun _ _ _ => .pure rfl

end Lockstep

section Counted

variable (environment : Environment) (a : Address)

theorem access_counts (c : SlotAccess) (s : Sandbox) :
    Ends (((host environment).storage a).access c) s
      (fun e _ => e = .fault .overflow ∧ c.counted s.refund = .error .overflow)
      fun _ t => c.counted s.refund = .ok t.refund := by
  cases c with
  | read key => exact Ends.bind_of_ok (storage_readSlot environment a s key) (.pure rfl)
  | write key new => exact Ends.bind_of_ok (storage_writeSlot environment a s key new) (.pure rfl)
  | refund amount => exact Ends.bind (storage_count environment a s amount) fun _ _ h => .pure h

theorem accesses_count (accesses : List SlotAccess) :
    Ends (accesses.mapM ((host environment).storage a).access) {}
      (fun e _ => e = .fault .overflow ∧ accesses.foldlM SlotAccess.counted 0 = .error .overflow)
      fun _ t => accesses.foldlM SlotAccess.counted 0 = .ok t.refund := by
  refine Ends.mapM (I := fun rest (t : Sandbox) =>
    accesses.foldlM SlotAccess.counted 0 = rest.foldlM SlotAccess.counted t.refund) ?_ accesses rfl
  intro c rest s hs
  rw [List.foldlM_cons] at hs
  refine ((access_counts environment a c s).refused ?_).imp ?_
  · rintro _ _ ⟨rfl, hf⟩
    rw [hf] at hs
    exact ⟨rfl, hs⟩
  · intro _ t ht
    rw [ht] at hs
    exact hs

theorem metered_ends (r : Rules) (accesses : List SlotAccess) (s : Sandbox) :
    Ends (accesses.mapM (((host environment).storage a).metered r)) s
      (fun e _ => e = .fault .overflow) fun _ _ => True := by
  have hcount : ∀ amount (s : Sandbox), Ends (((host environment).storage a).count amount) s
      (fun e _ => e = .fault .overflow) fun _ _ => True := fun amount s =>
    ((storage_count environment a s amount).refused fun _ _ h => h.1).imp fun _ _ _ => trivial
  refine Ends.mapM (I := fun _ _ => True) (fun c _ s _ => ?_) accesses trivial
  cases c with
  | read key => exact Ends.bind_of_ok (storage_readSlot environment a s key) (.pure trivial)
  | write key new =>
    exact Ends.bind_of_ok (storage_writeSlot environment a s key new)
      (.bind (hcount _ _) fun _ _ _ => .pure trivial)
  | refund amount => exact Ends.bind (hcount amount s) fun _ _ _ => .pure trivial

end Counted

/-- Whatever is done to the storage of one account, a new sandbox and a new transaction over the empty database
give the same answers, which tell the initial, present and new values and what was cold, and count the same
refund. Only an overflow of the refund counter ends either, and then it ends both. The same holds if every write
has its refund counted, under any rules, and then all prices are the same. -/
theorem meters_as_journal (environment : Environment) (fork : Hardfork) (a : Address)
    (accesses : List SlotAccess) :
    (∀ total, accesses.foldlM SlotAccess.counted 0 = .ok total →
      ∃ answers s j,
        accesses.mapM ((host environment).storage a).access {} = .ok answers s ∧
        accesses.mapM (Journal.storage .empty a).access (.ofHardfork fork) = .ok answers j ∧
        s.refund = total ∧ j.refund = total) ∧
    (∀ e, accesses.foldlM SlotAccess.counted 0 = .error e →
      ∃ s j,
        accesses.mapM ((host environment).storage a).access {} = .error (.fault e) s ∧
        accesses.mapM (Journal.storage .empty a).access (.ofHardfork fork) = .error (.fault e) j) ∧
    ∀ r : Rules,
      (∃ prices s j,
        accesses.mapM (((host environment).storage a).metered r) {} = .ok prices s ∧
        accesses.mapM ((Journal.storage .empty a).metered r) (.ofHardfork fork) = .ok prices j ∧
        s.refund = j.refund) ∨
      ∃ s j,
        accesses.mapM (((host environment).storage a).metered r) {} = .error (.fault .overflow) s ∧
        accesses.mapM ((Journal.storage .empty a).metered r) (.ofHardfork fork) =
          .error (.fault .overflow) j := by
  have hfresh := Matches.fresh a fork
  have hboth := (Lockstep.mapM (access_lockstep environment a) accesses _ _ hfresh).ok_or_error
  have hcount := accesses_count environment a accesses
  refine ⟨fun total htotal => ?_, fun e he => ?_, fun r => ?_⟩
  · obtain ⟨answers, s, j, hs, hj, hmatch⟩ | ⟨e, s, j, hs, -⟩ := hboth
    · have hrefund := hcount.ok hs
      rw [htotal] at hrefund
      cases hrefund
      exact ⟨answers, s, j, hs, hj, rfl, hmatch.refund.symm⟩
    · have herror := (hcount.error hs).2
      rw [htotal] at herror
      cases herror
  · obtain ⟨answers, s, j, hs, -⟩ | ⟨e', s, j, hs, hj⟩ := hboth
    · have hrefund := hcount.ok hs
      rw [he] at hrefund
      cases hrefund
    · obtain ⟨rfl, herror⟩ := hcount.error hs
      rw [he] at herror
      cases herror
      exact ⟨s, j, hs, hj⟩
  · have hmetered := Lockstep.mapM (metered_lockstep environment a r) accesses _ _ hfresh
    obtain ⟨prices, s, j, hs, hj, hmatch⟩ | ⟨e, s, j, hs, hj⟩ := hmetered.ok_or_error
    · exact .inl ⟨prices, s, j, hs, hj, hmatch.refund⟩
    · cases (metered_ends environment a r accesses {}).error hs
      exact .inr ⟨s, j, hs, hj⟩

/-- A slot is set and read, something is paid back, and the slot is restored. -/
def restoring : List SlotAccess := [.write 1 5, .read 1, .refund 100, .write 1 0]

theorem meters_as_journal_restoring :
    restoring.foldlM SlotAccess.counted 0 = .ok 100 ∧
      (∃ answers s j,
        restoring.mapM ((host {}).storage 0x0a).access {} = .ok answers s ∧
        restoring.mapM (Journal.storage .empty 0x0a).access (.ofHardfork .istanbul) = .ok answers j ∧
        s.refund = 100 ∧ j.refund = 100) ∧
      ∃ j, restoring.mapM ((Journal.storage .empty 0x0a).metered (.ofHardfork .istanbul))
        (.ofHardfork .istanbul) = .ok [20000, 800, 0, 800] j := by
  have htotal : restoring.foldlM SlotAccess.counted 0 = .ok 100 := by decide
  obtain ⟨hgoes, -, hmetered⟩ := meters_as_journal {} .istanbul 0x0a restoring
  have hprices : (restoring.mapM (((host {}).storage 0x0a).metered (.ofHardfork .istanbul))).run' {} =
      some [20000, 800, 0, 800] := by
    decide +kernel
  refine ⟨htotal, hgoes 100 htotal, ?_⟩
  obtain ⟨prices, s, j, hs, hj, -⟩ | ⟨s, j, hs, -⟩ := hmetered (.ofHardfork .istanbul)
  · delta EStateM.run' EStateM.run at hprices
    rw [hs] at hprices
    cases hprices
    exact ⟨j, hj⟩
  · delta EStateM.run' EStateM.run at hprices
    rw [hs] at hprices
    cases hprices

end Sandbox

end MeteredVM
