import MeteredVM.Proofs.Journal.Kempt
import MeteredVM.Proofs.Store.Built

namespace MeteredVM

open Journal

theorem Journal.fresh_info (db : Database) (a : Address) :
    (fresh db a).info = (db.account a).getD {} := by
  unfold fresh
  cases db.account a <;> rfl

namespace Store

def codesWith (d : Store) (D : Set (Address × Bytes)) : Set Bytes :=
  { code | (∃ hash : Hash, d.codes[hash]? = some code) ∨ (∃ a, (a, code) ∈ D) ∨ code = ByteArray.empty }

/-- Hashes tell these codes apart, and no code is deployed whose hash is zero, as with this hash an account
is taken to have no code. -/
structure Apart (d : Store) (D : Set (Address × Bytes)) : Prop where
  injective : (d.codesWith D).InjOn MeteredVM.codeHash
  nonzero {a : Address} {code : Bytes} (deployed : (a, code) ∈ D) : MeteredVM.codeHash code ≠ 0

variable {d : Store} {D : Set (Address × Bytes)} {changes : Accounts} {a : Address} {x : Account}
  {code : Bytes}

theorem stored_of_codeOf {hash : Hash} (h : d.toDatabase.codeOf hash = code)
    (hsize : code.size ≠ 0) : d.codes[hash]? = some code := by
  subst h
  unfold Database.codeOf at hsize ⊢
  split at hsize
  · exact absurd rfl hsize
  · rename_i hne
    rw [if_neg hne]
    have hcode : d.toDatabase.code hash = d.codes[hash]?.getD ByteArray.empty :=
      Std.ExtTreeMap.getD_eq_getD_getElem?
    rw [hcode] at hsize ⊢
    cases hstored : d.codes[hash]? with
    | none =>
      rw [hstored] at hsize
      exact absurd rfl hsize
    | some code => rfl

/-- Code that is at hand is stored or deployed, and the account has its hash. -/
theorem Proper.hand (hd : d.Proper) (hx : x.Coded d.toDatabase D a) (hand : x.info.code = some code)
    (hsize : code.size ≠ 0) :
    MeteredVM.codeHash code = x.info.codeHash ∧
      (d.codes[x.info.codeHash]? = some code ∨ (a, code) ∈ D) := by
  obtain ⟨hfetched, -⟩ | ⟨code', deployed, hand', hhash⟩ := hx
  · have hstored := stored_of_codeOf (hfetched code hand).symm hsize
    exact ⟨(hd.keyed hstored).2, .inl hstored⟩
  · cases hand.symm.trans hand'
    exact ⟨hhash.symm, .inr deployed⟩

theorem Proper.filing (hd : d.Proper) (hx : x.Coded d.toDatabase D a) (h : code ∈ x.filing) :
    d.codes[MeteredVM.codeHash code]? = some code ∨ (a, code) ∈ D := by
  have hsize := Account.size_of_mem_filing h
  unfold Account.filing at h
  split at h
  · obtain ⟨hhash, hknown⟩ := hd.hand hx (Option.filter_eq_some_iff.mp h).1 hsize
    rw [hhash]
    exact hknown
  · cases h

theorem Proper.codeHash_ne_zero (hd : d.Proper)
    (nonzero : ∀ {b : Address} {code : Bytes}, (b, code) ∈ D → MeteredVM.codeHash code ≠ 0)
    (hx : x.Coded d.toDatabase D a) : x.info.codeHash ≠ 0 := by
  obtain ⟨-, hsame | hnone⟩ | ⟨code, deployed, -, hhash⟩ := hx
  · rw [hsame, fresh_toDatabase]
    exact (hd.accountD a).hash
  · rw [hnone]
    exact emptyCodeHash_ne_zero
  · rw [hhash]
    exact nonzero deployed

theorem Proper.filed_same (hd : d.Proper)
    (nonzero : ∀ {b : Address} {code : Bytes}, (b, code) ∈ D → MeteredVM.codeHash code ≠ 0)
    (hx : x.Coded d.toDatabase D a) : (Store.filed x.info).Same x.info := by
  refine ⟨rfl, rfl, codeHash_filed (hd.codeHash_ne_zero nonzero hx) fun code hand hsize => ?_⟩
  exact (hd.hand hx hand hsize).1

/-- What a store reads like after the commit of accounts, where codes were deployed. -/
structure Reflects (d e : Store) (changes : Accounts) (deployed : Set (Address × Bytes)) : Prop where
  gone {a : Address} {x : Account} (loaded : changes[a]? = some x) (destroyed : x.flags.destroyed = true) :
    e.toDatabase.account a = some {} ∧ ∀ key, e.toDatabase.slot a key = 0
  info {a : Address} {x : Account} (loaded : changes[a]? = some x)
    (kept : x.flags.destroyed = false) : ((e.toDatabase.account a).getD {}).Same x.info
  slot {a : Address} {x : Account} (loaded : changes[a]? = some x) (kept : x.flags.destroyed = false)
    (key : Word) : e.toDatabase.slot a key =
      x.slots[key]?.getD (if x.flags.created then 0 else d.toDatabase.slot a key)
  /-- The code of an account is another one only where one is deployed. -/
  origin {a : Address} {x : Account} (loaded : changes[a]? = some x)
    (kept : x.flags.destroyed = false) :
    x.info.codeHash = ((d.toDatabase.account a).getD {}).codeHash ∨
      ∃ code, (a, code) ∈ deployed ∧ x.info.codeHash = codeHash code
  /-- A code that is deployed and not undone is found. -/
  code {a : Address} {x : Account} (loaded : changes[a]? = some x) (kept : x.flags.destroyed = false)
    {code : Bytes} (new : (a, code) ∈ deployed) (hash : x.info.codeHash = codeHash code) :
    e.toDatabase.code x.info.codeHash = code
  others {a : Address} (absent : changes[a]? = none) :
    e.toDatabase.account a = d.toDatabase.account a ∧
      ∀ key, e.toDatabase.slot a key = d.toDatabase.slot a key
  /-- No code is lost, and none is found that was not there before or has been deployed. -/
  codes (hash : Hash) : e.toDatabase.code hash = d.toDatabase.code hash ∨
    d.toDatabase.code hash = ByteArray.empty ∧
      ∃ a code, (a, code) ∈ deployed ∧ codeHash code = hash ∧ e.toDatabase.code hash = code
  blockHash : e.toDatabase.blockHash = d.toDatabase.blockHash
  touched {a : Address} {x : Account} (loaded : changes[a]? = some x)
    (differs : ¬x.Pristine d.toDatabase a) : x.flags.touched = true

theorem toDatabase_account (d : Store) (a : Address) :
    d.toDatabase.account a = d.accounts[a]?.map (·.info) := rfl

theorem toDatabase_slot (d : Store) (a : Address) (key : Word) :
    d.toDatabase.slot a key = (d.accounts[a]?.getD {}).slots[key]?.getD 0 := by
  rw [← accountD_eq, ← Std.ExtTreeMap.getD_eq_getD_getElem?]
  rfl

theorem toDatabase_code (d : Store) (hash : Hash) :
    d.toDatabase.code hash = d.codes[hash]?.getD ByteArray.empty :=
  Std.ExtTreeMap.getD_eq_getD_getElem?

theorem toDatabase_blockHash_commit (d : Store) (changes : Accounts) :
    (d.commit changes).toDatabase.blockHash = d.toDatabase.blockHash := by
  funext number
  change (d.commit changes).blockHashes.getD number _ = d.blockHashes.getD number _
  rw [blockHashes_commit]

section Reflects

variable (hd : d.Proper) (apart : d.Apart D)
  (regular : ∀ (a : Address) (x : Account), changes[a]? = some x → x.Regular d.toDatabase D a)

include regular

theorem committed_slot (loaded : changes[a]? = some x) (kept : x.flags.destroyed = false)
    (key : Word) : (d.commit changes).toDatabase.slot a key =
      x.slots[key]?.getD (if x.flags.created then 0 else d.toDatabase.slot a key) := by
  have hx := regular a x loaded
  rw [toDatabase_slot, getElem?_commit, loaded, Option.elim_some]
  split
  · simp only [settled, kept, Bool.false_eq_true, if_false, Option.getD_some, getElem?_mergeSlots]
    rw [toDatabase_slot, accountD_eq]
    cases x.slots[key]? with
    | some value => rfl
    | none =>
      cases x.flags.created with
      | true =>
        simp only [if_true, Option.none_or, Std.ExtTreeMap.getElem?_empty, Option.getD_none]
      | false => rfl
  · rename_i huntouched
    obtain ⟨-, hslots, hcreated, -⟩ := hx.pristine (Bool.not_eq_true _ |>.mp huntouched)
    rw [← toDatabase_slot, hcreated]
    cases hkey : x.slots[key]? with
    | some value => exact (hslots hkey).symm
    | none => rfl

include hd

/-- Code that is filed is one of those that hashes tell apart. -/
theorem filing_mem (loaded : changes[a]? = some x) (h : code ∈ x.filing) : code ∈ d.codesWith D := by
  obtain hstored | deployed := hd.filing (regular a x loaded).coded h
  · exact .inl ⟨_, hstored⟩
  · exact .inr (.inl ⟨a, deployed⟩)

theorem committed_info
    (nonzero : ∀ {b : Address} {code : Bytes}, (b, code) ∈ D → MeteredVM.codeHash code ≠ 0)
    (loaded : changes[a]? = some x) (kept : x.flags.destroyed = false) :
    (((d.commit changes).toDatabase.account a).getD {}).Same x.info := by
  have hx := regular a x loaded
  rw [toDatabase_account, getElem?_commit, loaded, Option.elim_some]
  split
  · have hsame := hd.filed_same nonzero hx.coded
    simp only [settled, kept, Bool.false_eq_true, if_false, Option.map_some, Option.getD_some]
    exact hsame
  · rename_i huntouched
    obtain ⟨hbalance, hnonce, hhash⟩ := (hx.pristine (Bool.not_eq_true _ |>.mp huntouched)).info
    rw [← toDatabase_account, ← fresh_info]
    exact ⟨hbalance.symm, hnonce.symm, hhash.symm⟩

include apart

/-- What is under a hash after a commit was there before, or it is a new code. -/
theorem committed_codes (hash : Hash) : (d.commit changes).codes[hash]? = d.codes[hash]? ∨
    d.codes[hash]? = none ∧ ∃ a code, (a, code) ∈ D ∧ MeteredVM.codeHash code = hash ∧
      (d.commit changes).codes[hash]? = some code := by
  have hfold := codes_foldl d changes.toList hash
  rw [← Std.ExtTreeMap.foldl_eq_foldl_toList, ← Store.commit] at hfold
  obtain hsame | ⟨p, hp, code, hcode, rfl, hfound⟩ := hfold
  · exact .inl hsame
  have hloaded := Std.ExtTreeMap.mem_toList_iff_getElem?_eq_some.mp hp
  obtain hstored | deployed := hd.filing (regular _ _ hloaded).coded hcode
  · exact .inl (hfound.trans hstored.symm)
  · cases hold : d.codes[MeteredVM.codeHash code]? with
    | none => exact .inr ⟨rfl, p.1, code, deployed, rfl, hfound⟩
    | some old =>
      have hknown : old = code :=
        apart.injective (.inl ⟨_, hold⟩) (.inr (.inl ⟨_, deployed⟩)) (hd.keyed hold).2
      rw [hfound, hknown]
      exact .inl rfl

/-- Codes that are stored after a commit are told apart by their hashes as well. -/
theorem committed_code_mem {hash : Hash} (stored : (d.commit changes).codes[hash]? = some code) :
    code ∈ d.codesWith D ∧ MeteredVM.codeHash code = hash := by
  obtain hsame | ⟨-, b, code', deployed, hhash, hfound⟩ := committed_codes hd apart regular hash
  · rw [hsame] at stored
    exact ⟨.inl ⟨hash, stored⟩, (hd.keyed stored).2⟩
  · cases stored.symm.trans hfound
    exact ⟨.inr (.inl ⟨b, deployed⟩), hhash⟩

section Deployed

variable (loaded : changes[a]? = some x) (kept : x.flags.destroyed = false) (new : (a, code) ∈ D)
  (hash : x.info.codeHash = MeteredVM.codeHash code)
  (hnone : (fresh d.toDatabase a).info.codeHash = emptyCodeHash)

include loaded kept new hash hnone

omit hd in
/-- Code that is deployed at an account that had none is at hand, and is filed unless it is empty. -/
theorem filing_of_deployed (hne : code ≠ ByteArray.empty) : code ∈ x.filing := by
  have hmem : code ∈ d.codesWith D := .inr (.inl ⟨a, new⟩)
  have hempty : ByteArray.empty ∈ d.codesWith D := .inr (.inr rfl)
  have hx := regular a x loaded
  have hlike : x.info.codeHash ≠ emptyCodeHash := fun h =>
    hne (apart.injective hmem hempty (hash.symm.trans h))
  have htouched : x.flags.touched = true := by
    by_contra huntouched
    have hinfo := (hx.pristine (Bool.not_eq_true _ |>.mp huntouched)).info
    exact hlike (hinfo.2.2.trans hnone)
  have hhand : x.info.code = some code := by
    obtain ⟨-, hsame | hsame⟩ | ⟨code', deployed, hand, hhash⟩ := hx.coded
    · exact absurd (hsame.trans hnone) hlike
    · exact absurd hsame hlike
    · rw [hand, apart.injective (.inr (.inl ⟨a, deployed⟩)) hmem (hhash.symm.trans hash)]
  rw [Account.filing, htouched, kept, hhand]
  change code ∈ (some code).filter (·.size ≠ 0)
  have hsize : code.size ≠ 0 := fun hsize => hne (ByteArray.size_eq_zero_iff.mp hsize)
  exact Option.filter_eq_some_iff.mpr ⟨rfl, decide_eq_true hsize⟩

theorem committed_code : (d.commit changes).toDatabase.code x.info.codeHash = code := by
  have hmem : code ∈ d.codesWith D := .inr (.inl ⟨a, new⟩)
  rw [toDatabase_code]
  cases hstored : (d.commit changes).codes[x.info.codeHash]? with
  | none =>
    symm
    by_contra hne
    have hfiled := codes_foldl_of_mem (d := d) apart.injective
      (fun p hp code h => filing_mem hd regular
        (Std.ExtTreeMap.mem_toList_iff_getElem?_eq_some.mp hp) h)
      (Std.ExtTreeMap.mem_toList_iff_getElem?_eq_some.mpr loaded)
      (filing_of_deployed apart regular loaded kept new hash hnone hne)
    rw [← Std.ExtTreeMap.foldl_eq_foldl_toList, ← Store.commit, ← hash, hstored] at hfiled
    cases hfiled
  | some found =>
    obtain ⟨hfoundmem, hhash⟩ := committed_code_mem hd apart regular hstored
    exact apart.injective hfoundmem hmem (hhash.trans hash)

end Deployed

theorem reflects
    (hnew : ∀ a code, (a, code) ∈ D → (fresh d.toDatabase a).info.codeHash = emptyCodeHash) :
    d.Reflects (d.commit changes) changes D where
  gone {a x} loaded destroyed := by
    have htouched : x.flags.touched = true := by
      by_contra huntouched
      have hpristine := (regular a x loaded).pristine (Bool.not_eq_true _ |>.mp huntouched)
      exact Bool.noConfusion (hpristine.destroyed.symm.trans destroyed)
    have haccount : (d.commit changes).accounts[a]? = some {} := by
      rw [getElem?_commit, loaded, Option.elim_some, if_pos htouched, settled, if_pos destroyed]
    refine ⟨?_, fun key => ?_⟩
    · rw [toDatabase_account, haccount]
      rfl
    · rw [toDatabase_slot, haccount]
      exact congrArg (Option.getD · 0) Std.ExtTreeMap.getElem?_empty
  info := committed_info hd regular apart.nonzero
  slot := committed_slot regular
  origin {a x} loaded _ := by
    have hx := regular a x loaded
    rw [← fresh_info]
    obtain ⟨-, hsame | hnone⟩ | ⟨code, deployed, -, hhash⟩ := hx.coded
    · exact .inl hsame
    · by_cases known : (fresh d.toDatabase a).info.codeHash = emptyCodeHash
      · exact .inl (hnone.trans known.symm)
      · exact .inl (hx.rooted known)
    · exact .inr ⟨code, deployed, hhash⟩
  code {a x} loaded kept {code} new hash :=
    committed_code hd apart regular loaded kept new hash (hnew a code new)
  others {a} absent := by
    have haccount : (d.commit changes).accounts[a]? = d.accounts[a]? := by
      rw [getElem?_commit, absent, Option.elim_none]
    refine ⟨?_, fun key => ?_⟩
    · rw [toDatabase_account, toDatabase_account, haccount]
    · rw [toDatabase_slot, toDatabase_slot, haccount]
  codes hash := by
    rw [toDatabase_code, toDatabase_code]
    obtain hsame | ⟨hnone, b, code, deployed, hhash, hfound⟩ :=
      committed_codes hd apart regular hash
    · exact .inl (by rw [hsame])
    · refine .inr ⟨by rw [hnone]; rfl, b, code, deployed, hhash, ?_⟩
      rw [hfound]
      rfl
  blockHash := toDatabase_blockHash_commit d changes
  touched {a x} loaded differs := by
    by_contra huntouched
    exact differs ((regular a x loaded).pristine (Bool.not_eq_true _ |>.mp huntouched))

end Reflects

end Store

end MeteredVM
