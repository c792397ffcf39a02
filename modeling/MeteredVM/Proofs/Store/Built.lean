import MeteredVM.Proofs.Journal.Trait
import MeteredVM.Proofs.Store.Commit

namespace MeteredVM

/-- Account information as it is stored: its hash is that of some code, and there is no code with it but
the empty one. -/
structure AccountInfo.Filed (i : AccountInfo) : Prop where
  hash : i.codeHash ≠ 0
  code {code : Bytes} (hand : i.code = some code) :
    code = ByteArray.empty ∧ i.codeHash = emptyCodeHash

theorem size_of_mem_filter {code : Bytes} {o : Option Bytes} (h : code ∈ o.filter (·.size ≠ 0)) :
    code.size ≠ 0 :=
  of_decide_eq_true (Option.filter_eq_some_iff.mp h).2

theorem Account.size_of_mem_filing {x : Account} {code : Bytes} (h : code ∈ x.filing) :
    code.size ≠ 0 := by
  unfold Account.filing at h
  split at h
  · exact size_of_mem_filter h
  · cases h

namespace Store

/-- Stores that are made by the operations. The accounts that are committed may be any. -/
inductive Built : Store → Prop
  | empty : Built empty
  | insertInfo {d : Store} (h : Built d) (a : Address) (i : AccountInfo) : Built (d.insertInfo a i)
  | insertCode {d : Store} (h : Built d) (a : Address) (code : Bytes) : Built (d.insertCode a code)
  | insertSlot {d : Store} (h : Built d) (a : Address) (key value : Word) :
      Built (d.insertSlot a key value)
  | insertBlockHash {d : Store} (h : Built d) (number : Nat) (hash : Hash) :
      Built (d.insertBlockHash number hash)
  | commit {d : Store} (h : Built d) (changes : Accounts) : Built (d.commit changes)

/-- Accounts are stored without their codes, and each code is under its own hash. -/
structure Proper (d : Store) : Prop where
  filed {a : Address} {x : StoredAccount} (stored : d.accounts[a]? = some x) : x.info.Filed
  keyed {hash : Hash} {code : Bytes} (stored : d.codes[hash]? = some code) :
    code.size ≠ 0 ∧ MeteredVM.codeHash code = hash

variable {d : Store} {a : Address}

theorem emptyCodeHash_ne_zero : emptyCodeHash ≠ 0 := by decide

theorem filed_default : ({} : AccountInfo).Filed := by
  refine ⟨emptyCodeHash_ne_zero, ?_⟩
  rintro _ ⟨⟩
  exact ⟨rfl, rfl⟩

theorem filed_filed (i : AccountInfo) : (filed i).Filed := by
  have hnonzero (hash : Hash) : (if hash = 0 then emptyCodeHash else hash) ≠ 0 := by
    split
    · exact emptyCodeHash_ne_zero
    · assumption
  refine ⟨hnonzero _, ?_⟩
  rintro _ ⟨⟩

theorem Proper.store (h : d.Proper) {x : StoredAccount} (hx : x.info.Filed) {filing : Option Bytes}
    (hfiling : ∀ code ∈ filing, code.size ≠ 0) (a : Address) (blockHashes) :
    (Store.mk (d.accounts.insert a x) (fileInto d.codes filing) blockHashes).Proper where
  filed {b y} stored := by
    rw [Std.ExtTreeMap.getElem?_insert] at stored
    split at stored
    · cases stored
      exact hx
    · exact h.filed stored
  keyed {hash code} stored := by
    rw [getElem?_fileInto] at stored
    obtain hnew | ⟨-, hold⟩ := Option.or_eq_some_iff.mp stored
    · obtain ⟨hcode, hhash⟩ := Option.filter_eq_some_iff.mp hnew
      exact ⟨hfiling code hcode, of_decide_eq_true hhash⟩
    · exact h.keyed hold

theorem Proper.insertInfo (h : d.Proper) (a : Address) (i : AccountInfo) :
    (d.insertInfo a i).Proper := by
  rw [Store.insertInfo, fileCode_eq]
  exact h.store (filed_filed i) (fun _ => size_of_mem_filter) a d.blockHashes

theorem Proper.accountD (h : d.Proper) (a : Address) : (d.accountD a).info.Filed := by
  rw [accountD_eq]
  cases hx : d.accounts[a]? with
  | none => exact filed_default
  | some x => exact h.filed hx

theorem Proper.commitAccount (h : d.Proper) (a : Address) (x : Account) :
    (d.commitAccount a x).Proper := by
  rw [commitAccount_eq]
  split
  · refine h.store ?_ (fun _ => Account.size_of_mem_filing) a d.blockHashes
    unfold settled
    split
    · exact filed_default
    · exact filed_filed x.info
  · rename_i huntouched
    have hnone : x.filing = none := by
      rw [Account.filing, Bool.not_eq_true _ |>.mp huntouched]
      rfl
    rw [hnone]
    exact h

theorem Built.proper (h : d.Built) : d.Proper := by
  induction h with
  | empty =>
    refine ⟨fun {a x} stored => ?_, fun {hash code} stored => ?_⟩
    · change (∅ : Std.ExtTreeMap Address StoredAccount)[a]? = some x at stored
      rw [Std.ExtTreeMap.getElem?_empty] at stored
      cases stored
    · change (∅ : Std.ExtTreeMap Hash Bytes)[hash]? = some code at stored
      rw [Std.ExtTreeMap.getElem?_empty] at stored
      cases stored
  | insertInfo _ a i ih => exact ih.insertInfo a i
  | insertCode _ a code ih => exact ih.insertInfo a _
  | @insertSlot d _ a key value ih =>
    let x : StoredAccount := { d.accountD a with slots := (d.accountD a).slots.insert key value }
    have hx : x.info.Filed := ih.accountD a
    have hnone : ∀ code ∈ (none : Option Bytes), code.size ≠ 0 := by
      rintro _ ⟨⟩
    exact ih.store hx hnone a d.blockHashes
  | insertBlockHash _ number hash ih => exact ⟨ih.filed, ih.keyed⟩
  | @commit d built changes ih =>
    clear built
    rw [Store.commit, Std.ExtTreeMap.foldl_eq_foldl_toList]
    generalize changes.toList = l
    induction l generalizing d with
    | nil => exact ih
    | cons p l ihl => exact ihl (ih.commitAccount p.1 p.2)

theorem fresh_toDatabase (d : Store) (a : Address) :
    (Journal.fresh d.toDatabase a).info = (d.accountD a).info := by
  rw [accountD_eq, Journal.fresh]
  have haccount : d.toDatabase.account a = d.accounts[a]?.map (·.info) := rfl
  rw [haccount]
  cases d.accounts[a]? with
  | none => rfl
  | some x => rfl

theorem Proper.candid (h : d.Proper) : d.toDatabase.Candid := by
  intro a code hand
  rw [fresh_toDatabase] at hand ⊢
  obtain ⟨rfl, hhash⟩ := (h.accountD a).code hand
  rw [Database.codeOf, if_pos hhash]

end Store

end MeteredVM
