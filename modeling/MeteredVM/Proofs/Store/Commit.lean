import MeteredVM.Store
import Mathlib.Data.List.Perm.Basic
import Mathlib.Data.Set.Function

namespace MeteredVM

section Fold

variable {α β γ σ : Type} {f : σ → α → β → σ} {r : σ → γ} {w : β → γ → γ} {k : α}
  (others : ∀ s b v, b ≠ k → r (f s b v) = r s)

include others

theorem foldl_read_of_absent {l : List (α × β)} (absent : ∀ p ∈ l, p.1 ≠ k) (s : σ) :
    r (l.foldl (fun s p => f s p.1 p.2) s) = r s := by
  induction l generalizing s with
  | nil => rfl
  | cons p l ih =>
    obtain ⟨hp, hl⟩ := List.forall_mem_cons.mp absent
    rw [List.foldl_cons, ih hl, others s p.1 p.2 hp]

theorem foldl_read_of_mem (here : ∀ s v, r (f s k v) = w v (r s)) {v : β}
    {l : List (α × β)} (distinct : l.Pairwise fun p q => p.1 ≠ q.1) (mem : (k, v) ∈ l) (s : σ) :
    r (l.foldl (fun s p => f s p.1 p.2) s) = w v (r s) := by
  induction l generalizing s with
  | nil => cases mem
  | cons p l ih =>
    obtain ⟨hp, hl⟩ := List.pairwise_cons.mp distinct
    obtain rfl | hmem := List.mem_cons.mp mem
    · rw [List.foldl_cons, foldl_read_of_absent others (fun q hq => (hp q hq).symm), here]
    · rw [List.foldl_cons, ih hl hmem, others s p.1 p.2 (hp _ hmem)]

variable [Ord α] [Std.TransOrd α] [Std.LawfulEqOrd α]

omit others in
theorem distinct_toList (m : Std.ExtTreeMap α β) : m.toList.Pairwise fun p q => p.1 ≠ q.1 :=
  Std.ExtTreeMap.distinct_keys_toList.imp fun hne heq =>
    hne (Std.LawfulEqCmp.compare_eq_iff_eq.mpr heq)

/-- Writing the entries of a map one after the other by `f`: what `r` reads is written by the entry of a
key alone, as `w` tells. -/
theorem foldl_read (here : ∀ s v, r (f s k v) = w v (r s)) (m : Std.ExtTreeMap α β)
    (s : σ) : r (m.foldl f s) = m[k]?.elim (r s) fun v => w v (r s) := by
  rw [Std.ExtTreeMap.foldl_eq_foldl_toList]
  cases hk : m[k]? with
  | none =>
    refine foldl_read_of_absent others (fun p hp hpk => ?_) s
    have hp := Std.ExtTreeMap.mem_toList_iff_getElem?_eq_some.mp hp
    rw [hpk, hk] at hp
    cases hp
  | some v =>
    exact foldl_read_of_mem others here (distinct_toList m)
      (Std.ExtTreeMap.mem_toList_iff_getElem?_eq_some.mpr hk) s

end Fold

def Account.filing (x : Account) : Option Bytes :=
  if x.flags.touched && !x.flags.destroyed then x.info.code.filter (·.size ≠ 0) else none

attribute [ext] Store

namespace Store

theorem getElem?_mergeSlots (old changes : Slots) (key : Word) :
    (mergeSlots old changes)[key]? = changes[key]?.or old[key]? := by
  have hfold := foldl_read (f := fun acc k v => acc.insert k v)
    (r := fun acc : Slots => acc[key]?) (w := fun v _ => some v)
    (fun acc b v hb => by
      rw [Std.ExtTreeMap.getElem?_insert, if_neg (Std.LawfulEqCmp.compare_eq_iff_eq.not.mpr hb)])
    (fun acc v => by rw [Std.ExtTreeMap.getElem?_insert, if_pos (Std.ReflCmp.compare_self)])
    changes old
  rw [mergeSlots]
  refine hfold.trans ?_
  cases changes[key]? <;> rfl

theorem codeHash_filed {i : AccountInfo} (hne : i.codeHash ≠ 0)
    (hcode : ∀ code, i.code = some code → code.size ≠ 0 → MeteredVM.codeHash code = i.codeHash) :
    (filed i).codeHash = i.codeHash := by
  unfold filed
  cases hi : i.code with
  | none => exact if_neg hne
  | some code =>
    by_cases hsize : code.size = 0
    · simp only [hsize, if_true, if_neg hne]
    · simp only [hsize, if_false, hcode code hi hsize, if_neg hne]

def settled (old : StoredAccount) (x : Account) : StoredAccount :=
  if x.flags.destroyed then {}
  else ⟨filed x.info, mergeSlots (if x.flags.created then ∅ else old.slots) x.slots⟩

def fileInto (codes : Std.ExtTreeMap Hash Bytes) : Option Bytes → Std.ExtTreeMap Hash Bytes
  | some code => codes.insert (MeteredVM.codeHash code) code
  | none => codes

theorem fileCode_eq (d : Store) (i : AccountInfo) :
    d.fileCode i = { d with codes := fileInto d.codes (i.code.filter (·.size ≠ 0)) } := by
  unfold fileCode
  cases i.code with
  | none => rfl
  | some code =>
    by_cases h : code.size = 0
    · simp only [h, if_true, Option.filter_some, ne_eq, not_true_eq_false, decide_false,
        Bool.false_eq_true, if_false, fileInto]
    · simp only [h, if_false, Option.filter_some, ne_eq, not_false_eq_true, decide_true, if_true,
        fileInto]

theorem commitAccount_eq (d : Store) (a : Address) (x : Account) :
    d.commitAccount a x =
      { accounts := if x.flags.touched then d.accounts.insert a (settled (d.accountD a) x) else d.accounts
        codes := fileInto d.codes x.filing
        blockHashes := d.blockHashes } := by
  unfold commitAccount settled Account.filing
  cases x.flags.touched with
  | false => rfl
  | true =>
    cases x.flags.destroyed with
    | true => rfl
    | false =>
      rw [fileCode_eq]
      rfl

theorem accountD_eq (d : Store) (a : Address) : d.accountD a = d.accounts[a]?.getD {} :=
  Std.ExtTreeMap.getD_eq_getD_getElem?

theorem getElem?_commitAccount (d : Store) (a b : Address) (x : Account) :
    (d.commitAccount a x).accounts[b]? =
      if a = b ∧ x.flags.touched = true then some (settled (d.accountD a) x)
      else d.accounts[b]? := by
  rw [commitAccount_eq]
  cases x.flags.touched with
  | false => simp only [Bool.false_eq_true, and_false, if_false]
  | true =>
    simp only [if_true, Std.ExtTreeMap.getElem?_insert, Std.LawfulEqCmp.compare_eq_iff_eq, and_true]

theorem getElem?_commit (d : Store) (changes : Accounts) (a : Address) :
    (d.commit changes).accounts[a]? = changes[a]?.elim d.accounts[a]? fun x =>
      if x.flags.touched then some (settled (d.accountD a) x) else d.accounts[a]? := by
  have hfold := foldl_read (f := commitAccount) (r := fun d : Store => d.accounts[a]?)
    (w := fun x old => if x.flags.touched then some (settled (old.getD {}) x) else old)
    (fun d b x hb => by rw [getElem?_commitAccount, if_neg fun h => hb h.1])
    (fun d x => by simp only [getElem?_commitAccount, true_and, accountD_eq]) changes d
  rw [accountD_eq]
  exact hfold

theorem blockHashes_commit (d : Store) (changes : Accounts) :
    (d.commit changes).blockHashes = d.blockHashes := by
  rw [commit, Std.ExtTreeMap.foldl_eq_foldl_toList]
  generalize changes.toList = l
  induction l generalizing d with
  | nil => rfl
  | cons p l ih => rw [List.foldl_cons, ih, commitAccount_eq]

section Codes

variable {S : Set Bytes} {d : Store} {l : List (Address × Account)} {a b : Address} {x y : Account}
  {code : Bytes}

theorem getElem?_fileInto (codes : Std.ExtTreeMap Hash Bytes) (filing : Option Bytes) (hash : Hash) :
    (fileInto codes filing)[hash]? =
      (filing.filter (MeteredVM.codeHash · = hash)).or codes[hash]? := by
  cases filing with
  | none => rfl
  | some code =>
    rw [fileInto, Std.ExtTreeMap.getElem?_insert, Option.filter_some]
    by_cases h : MeteredVM.codeHash code = hash
    · rw [if_pos (Std.LawfulEqCmp.compare_eq_iff_eq.mpr h), if_pos (decide_eq_true h), Option.some_or]
    · rw [if_neg (Std.LawfulEqCmp.compare_eq_iff_eq.not.mpr h), if_neg (by simpa using h),
        Option.none_or]

/-- Code that is found under a hash after a commit was there before, or is filed in it. -/
theorem codes_foldl (d : Store) (l : List (Address × Account)) (hash : Hash) :
    (l.foldl (fun d p => d.commitAccount p.1 p.2) d).codes[hash]? = d.codes[hash]? ∨
      ∃ p ∈ l, ∃ code ∈ p.2.filing, MeteredVM.codeHash code = hash ∧
        (l.foldl (fun d p => d.commitAccount p.1 p.2) d).codes[hash]? = some code := by
  induction l generalizing d with
  | nil => exact .inl rfl
  | cons p l ih =>
    rw [List.foldl_cons]
    obtain hsame | ⟨q, hq, code, hcode, hhash, hfound⟩ := ih (d.commitAccount p.1 p.2)
    · rw [hsame, commitAccount_eq]
      dsimp only
      rw [getElem?_fileInto]
      cases hfiling : p.2.filing.filter (MeteredVM.codeHash · = hash) with
      | none => exact .inl (Option.none_or)
      | some code =>
        obtain ⟨hcode, hhash⟩ := Option.filter_eq_some_iff.mp hfiling
        exact .inr ⟨p, List.mem_cons_self, code, hcode, of_decide_eq_true hhash, rfl⟩
    · exact .inr ⟨q, List.mem_cons_of_mem _ hq, code, hcode, hhash, hfound⟩

variable (apart : S.InjOn MeteredVM.codeHash)

include apart

theorem codes_foldl_of_mem (files : ∀ p ∈ l, ∀ code ∈ p.2.filing, code ∈ S)
    {p : Address × Account} (mem : p ∈ l) (filed : code ∈ p.2.filing) :
    (l.foldl (fun d p => d.commitAccount p.1 p.2) d).codes[MeteredVM.codeHash code]? = some code := by
  induction l generalizing d with
  | nil => cases mem
  | cons q l ih =>
    obtain ⟨hq, hl⟩ := List.forall_mem_cons.mp files
    rw [List.foldl_cons]
    obtain rfl | hmem := List.mem_cons.mp mem
    · obtain hsame | ⟨r, hr, code', hcode', hhash, hfound⟩ :=
        codes_foldl (d.commitAccount p.1 p.2) l (MeteredVM.codeHash code)
      · rw [hsame, commitAccount_eq]
        dsimp only
        rw [getElem?_fileInto, Option.mem_def.mp filed, Option.filter_some, if_pos (decide_eq_true rfl),
          Option.some_or]
      · rw [hfound, apart (hl r hr code' hcode') (hq code filed) hhash]
    · exact ih hl hmem

omit apart in
theorem commitAccount_accounts_comm (hab : a ≠ b) (d : Store) :
    ((d.commitAccount a x).commitAccount b y).accounts =
      ((d.commitAccount b y).commitAccount a x).accounts := by
  apply Std.ExtTreeMap.ext_getElem?
  intro c
  have hsettled {a b : Address} (hab : a ≠ b) (x : Account) :
      (d.commitAccount a x).accountD b = d.accountD b := by
    rw [accountD_eq, accountD_eq, getElem?_commitAccount, if_neg fun h => hab h.1]
  simp only [getElem?_commitAccount, hsettled hab, hsettled hab.symm]
  by_cases hac : a = c
  · subst hac
    simp only [hab.symm, false_and, if_false]
  · simp only [hac, false_and, if_false]

theorem commitAccount_codes_comm (hx : ∀ code ∈ x.filing, code ∈ S)
    (hy : ∀ code ∈ y.filing, code ∈ S) (d : Store) :
    ((d.commitAccount a x).commitAccount b y).codes =
      ((d.commitAccount b y).commitAccount a x).codes := by
  apply Std.ExtTreeMap.ext_getElem?
  intro hash
  simp only [commitAccount_eq, getElem?_fileInto]
  cases hfx : x.filing.filter (MeteredVM.codeHash · = hash) with
  | none => simp only [Option.none_or]
  | some code =>
    cases hfy : y.filing.filter (MeteredVM.codeHash · = hash) with
    | none => simp only [Option.none_or]
    | some code' =>
      obtain ⟨hcode, hhash⟩ := Option.filter_eq_some_iff.mp hfx
      obtain ⟨hcode', hhash'⟩ := Option.filter_eq_some_iff.mp hfy
      have hsame : MeteredVM.codeHash code = MeteredVM.codeHash code' :=
        (of_decide_eq_true hhash).trans (of_decide_eq_true hhash').symm
      simp only [Option.some_or, apart (hx code hcode) (hy code' hcode') hsame]

theorem commitAccount_comm (hab : a ≠ b) (hx : ∀ code ∈ x.filing, code ∈ S)
    (hy : ∀ code ∈ y.filing, code ∈ S) (d : Store) :
    (d.commitAccount a x).commitAccount b y = (d.commitAccount b y).commitAccount a x := by
  have hblocks : ((d.commitAccount a x).commitAccount b y).blockHashes =
      ((d.commitAccount b y).commitAccount a x).blockHashes := by
    simp only [commitAccount_eq]
  exact Store.ext (commitAccount_accounts_comm hab d) (commitAccount_codes_comm apart hx hy d) hblocks

/-- The order in which accounts are written does not matter. -/
theorem foldl_eq_commit {changes : Accounts}
    (files : ∀ (a : Address) (x : Account), changes[a]? = some x → ∀ code ∈ x.filing, code ∈ S)
    (perm : l.Perm changes.toList) (d : Store) :
    l.foldl (fun d p => d.commitAccount p.1 p.2) d = d.commit changes := by
  have hmem : ∀ p ∈ l, changes[p.1]? = some p.2 := fun p hp =>
    Std.ExtTreeMap.mem_toList_iff_getElem?_eq_some.mp (perm.mem_iff.mp hp)
  rw [commit, Std.ExtTreeMap.foldl_eq_foldl_toList]
  refine perm.foldl_eq' (fun p hp q hq d => ?_) d
  by_cases hpq : p.1 = q.1
  · have hsame : p.2 = q.2 := by
      have hp := hmem p hp
      rw [hpq, hmem q hq] at hp
      exact (Option.some.inj hp).symm
    rw [hpq, hsame]
  · exact commitAccount_comm apart hpq (files _ _ (hmem p hp)) (files _ _ (hmem q hq)) d

end Codes

end Store

end MeteredVM
