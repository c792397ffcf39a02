import MeteredVM.Proofs.Session.Lockstep
import MeteredVM.Proofs.Session.Remains
import MeteredVM.Proofs.Session.Warmth

namespace MeteredVM

open Journal

namespace Store

variable {d : Store} {m n : Accounts} {x y : Account} {code : Bytes} {hash : Hash}

theorem filing_ready_of_some (db : Database) (hand : x.info.code = some code) :
    (x.ready db).filing = x.filing := by
  have hready : x.ready db = x := by
    simp only [Account.ready, Account.program, hand, Option.getD_some]
    rw [← hand]
  rw [hready]

theorem mem_filing_ready (db : Database) (h : code ∈ x.filing) : code ∈ (x.ready db).filing := by
  cases hand : x.info.code with
  | some _ =>
    rw [filing_ready_of_some db hand]
    exact h
  | none =>
    unfold Account.filing at h
    rw [hand] at h
    split at h <;> cases h

/-- Once all codes are fetched, no more are filed than before but what the store has anyway. -/
theorem Proper.stored_of_filing_ready (hd : d.Proper) (h : code ∈ (x.ready d.toDatabase).filing) :
    code ∈ x.filing ∨ d.codes[MeteredVM.codeHash code]? = some code := by
  cases hand : x.info.code with
  | some _ =>
    rw [filing_ready_of_some _ hand] at h
    exact .inl h
  | none =>
    right
    have hsize := Account.size_of_mem_filing h
    unfold Account.filing at h
    split at h
    · have hprogram := (Option.filter_eq_some_iff.mp h).1
      replace hprogram : x.program d.toDatabase = code := Option.some.inj hprogram
      rw [Account.program, hand, Option.getD_none] at hprogram
      have hstored := stored_of_codeOf hprogram hsize
      rwa [(hd.keyed hstored).2]
    · cases h

/-- No code is filed that has the hash of another one in the store. -/
def Distinguishes (d : Store) (m : Accounts) : Prop :=
  ∀ (a : Address) (x : Account), m[a]? = some x → ∀ code ∈ x.filing,
    ∀ stored ∈ d.codes[MeteredVM.codeHash code]?, stored = code

theorem Proper.distinguishes_ready (hd : d.Proper) (h : d.Distinguishes m) :
    d.Distinguishes (m.map fun _ x => x.ready d.toDatabase) := by
  intro a x hx code hcode stored hstored
  rw [Std.ExtTreeMap.getElem?_map] at hx
  obtain ⟨y, hy, rfl⟩ := Option.map_eq_some_iff.mp hx
  obtain hfiled | hsame := hd.stored_of_filing_ready hcode
  · exact h a y hy code hfiled stored hstored
  · exact Option.some.inj (hstored.symm.trans hsame)

/-- Code under a hash that is taken already stays what it is. -/
theorem code_of_distinguishes (h : d.Distinguishes m) {stored : Bytes}
    (taken : d.codes[hash]? = some stored) : (d.commit m).codes[hash]? = some stored := by
  rw [commit, Std.ExtTreeMap.foldl_eq_foldl_toList]
  obtain hsame | ⟨p, hp, code, hcode, rfl, hfound⟩ := codes_foldl d m.toList hash
  · rw [hsame, taken]
  · have hloaded := Std.ExtTreeMap.mem_toList_iff_getElem?_eq_some.mp hp
    rw [hfound, h p.1 p.2 hloaded code hcode stored taken]

/-- Under a hash that is not taken yet is the last code that is filed under it. -/
theorem codes_foldl_ready {d' e : Store} (hd : d.Proper) (free : d.codes[hash]? = none)
    (l : List (Address × Account)) (h : d'.codes[hash]? = e.codes[hash]?) :
    (l.foldl (fun d p => d.commitAccount p.1 p.2) d').codes[hash]? =
      ((l.map fun p => (p.1, p.2.ready d.toDatabase)).foldl
        (fun d p => d.commitAccount p.1 p.2) e).codes[hash]? := by
  induction l generalizing d' e with
  | nil => exact h
  | cons p l ih =>
    rw [List.foldl_cons, List.map_cons, List.foldl_cons]
    apply ih
    simp only [commitAccount_eq, getElem?_fileInto, h]
    congr 1
    apply Option.ext
    intro code
    simp only [Option.filter_eq_some_iff]
    constructor
    · rintro ⟨hcode, hhash⟩
      exact ⟨mem_filing_ready _ hcode, hhash⟩
    · rintro ⟨hcode, hhash⟩
      obtain hfiled | hstored := hd.stored_of_filing_ready hcode
      · exact ⟨hfiled, hhash⟩
      · rw [of_decide_eq_true hhash, free] at hstored
        cases hstored

theorem Proper.codes_commit_ready (hd : d.Proper) (h : d.Distinguishes m) (hash : Hash) :
    (d.commit m).codes[hash]? =
      (d.commit (m.map fun _ x => x.ready d.toDatabase)).codes[hash]? := by
  cases hstored : d.codes[hash]? with
  | some stored =>
    rw [code_of_distinguishes h hstored, code_of_distinguishes (hd.distinguishes_ready h) hstored]
  | none =>
    simp only [commit, Std.ExtTreeMap.foldl_eq_foldl_toList, Std.ExtTreeMap.toList_map]
    exact codes_foldl_ready hd hstored m.toList rfl

theorem settled_level {db : Database} (old : StoredAccount) (h : x.Level db y) (hx : x.Labelled)
    (hy : y.Labelled) : settled old x = settled old y := by
  unfold settled
  rw [h.flags, h.slots, filed_of_labelled hx, filed_of_labelled hy, h.balance, h.nonce, h.codeHash]

/-- Committed to the store, the accounts leave stores that answer every lookup alike. For lookups of codes
this is so if no code is filed that has the hash of another one in the store. -/
structure Interchanges (d : Store) (m n : Accounts) : Prop where
  account (a : Address) : (d.commit m).toDatabase.account a = (d.commit n).toDatabase.account a
  slot (a : Address) (key : Word) :
    (d.commit m).toDatabase.slot a key = (d.commit n).toDatabase.slot a key
  blockHash (number : Nat) :
    (d.commit m).toDatabase.blockHash number = (d.commit n).toDatabase.blockHash number
  code (apart : d.Distinguishes m) (hash : Hash) :
    (d.commit m).toDatabase.code hash = (d.commit n).toDatabase.code hash

theorem accounts_commit_level {db : Database} (h : Accounts.Level db m n)
    (hm : ∀ (a : Address) (x : Account), m[a]? = some x → x.Labelled)
    (hn : ∀ (a : Address) (x : Account), n[a]? = some x → x.Labelled) :
    (d.commit m).accounts = (d.commit n).accounts := by
  apply Std.ExtTreeMap.ext_getElem?
  intro a
  have ha := h a
  rw [getElem?_commit, getElem?_commit]
  cases hx : m[a]? with
  | none =>
    rw [hx] at ha
    cases hy : n[a]? with
    | none => rfl
    | some y =>
      rw [hy] at ha
      cases ha
  | some x =>
    rw [hx] at ha
    cases hy : n[a]? with
    | none =>
      rw [hy] at ha
      cases ha
    | some y =>
      rw [hy] at ha
      cases ha with
      | some hxy =>
        rw [Option.elim_some, Option.elim_some, hxy.flags,
          settled_level _ hxy (hm a x hx) (hn a y hy)]

theorem Proper.codes_commit_level (hd : d.Proper) (h : Accounts.Level d.toDatabase m n)
    (apart : d.Distinguishes m) (hash : Hash) :
    (d.commit m).codes[hash]? = (d.commit n).codes[hash]? := by
  have hready : m.map (fun _ x => x.ready d.toDatabase) = n.map fun _ x => x.ready d.toDatabase := by
    apply Std.ExtTreeMap.ext_getElem?
    intro a
    have ha := h a
    rw [Std.ExtTreeMap.getElem?_map, Std.ExtTreeMap.getElem?_map]
    generalize m[a]? = x?, n[a]? = y? at ha ⊢
    cases ha with
    | none => rfl
    | some hxy => exact congrArg some hxy
  have apart' : d.Distinguishes n := by
    intro a y hy code hcode
    have hloaded : (n.map fun _ x => x.ready d.toDatabase)[a]? = some (y.ready d.toDatabase) := by
      rw [Std.ExtTreeMap.getElem?_map, hy, Option.map_some]
    exact (hready ▸ hd.distinguishes_ready apart) a _ hloaded code (mem_filing_ready _ hcode)
  rw [hd.codes_commit_ready apart, hd.codes_commit_ready apart', hready]

theorem Proper.interchanges (hd : d.Proper) (h : Accounts.Level d.toDatabase m n)
    (hm : ∀ (a : Address) (x : Account), m[a]? = some x → x.Labelled)
    (hn : ∀ (a : Address) (x : Account), n[a]? = some x → x.Labelled) : d.Interchanges m n := by
  have haccounts : (d.commit m).accounts = (d.commit n).accounts := accounts_commit_level h hm hn
  have hblocks : (d.commit m).blockHashes = (d.commit n).blockHashes := by
    rw [blockHashes_commit, blockHashes_commit]
  refine ⟨fun a => ?_, fun a key => ?_, fun number => ?_, fun apart hash => ?_⟩
  · rw [toDatabase_account, toDatabase_account, haccounts]
  · rw [toDatabase_slot, toDatabase_slot, haccounts]
  · simp only [toDatabase, blockHash, hblocks]
  · have hcodes := hd.codes_commit_level h apart hash
    simp only [toDatabase, Store.code, Std.ExtTreeMap.getD_eq_getD_getElem?, hcodes]

end Store

/-- The transactions had the same events, and they came to the same report and, once all codes are fetched,
to the same accounts, or were aborted for the same reason. -/
structure Transacted.Level (db : Database) (T U : Transacted) : Prop where
  events : T.events = U.events
  result : Except.Rel (fun p q => p.1 = q.1 ∧ Accounts.Level db p.2 q.2) T.result U.result

namespace Executor

open Session

variable {x : Executor} {s t : Session}

theorem loadAll_steady {db : Database} (hdb : db.Steady) (accounts : List Address) (j : Journal) :
    Ends (loadAll db accounts) j (fun _ _ => False) fun _ _ => True := by
  induction accounts generalizing j with
  | nil => exact .pure trivial
  | cons a rest ih =>
    apply Ends.bind (loadAccount_steady hdb a j)
    intro _ k _
    exact ih k

/-- An account that is loaded is called as its code would be. -/
theorem call_level (hp : x.transfers.Sound) (hdb : x.database.Steady) (room : Nat) {r : CallRequest}
    (loaded : (s.journal.accounts[r.codeAddress]?).isSome) :
    Agree (fun p q => p.1 = q.1 ∧ Session.Level x.database p.2 q.2) (x.call (x.hostWithin room) r s)
      (x.callCode (x.hostWithin room) r (s.journal.program x.database r.codeAddress) s) := by
  obtain ⟨l, hl, hlevel⟩ := loadCode_of_loaded hdb loaded
  have hcall : x.call (x.hostWithin room) r s = x.callCode (x.hostWithin room) r
      (s.journal.program x.database r.codeAddress) { s with journal := l } := by
    simp only [call, attempt, load, hl, Bind.bind, StateT.bind, Except.bind]
  rw [hcall]
  exact callCode_lockstep hp hdb (hostWithin_even hp hdb room) _ _ _ ((Session.Level.refl s).goes hlevel)

theorem runTask_level (hp : x.transfers.Sound) (hdb : x.database.Steady) (input : Bytes)
    (gasLimit : Nat) (loaded : (s.journal.accounts[x.environment.tx.target]?).isSome) :
    Agree (fun p q => p.1 = q.1 ∧ Session.Level x.database p.2 q.2)
      (x.runTask (.call x.environment.tx.target input) gasLimit s)
      (x.runTask (.code (s.journal.program x.database x.environment.tx.target) input) gasLimit s) := by
  have hcall := call_level (r := x.outerCall x.environment.tx.target input gasLimit) hp hdb maxFrames
    loaded
  simp only [runTask, Bind.bind, StateT.bind, Except.bind]
  change Agree _ _ (x.callCode _ _ (s.journal.program x.database x.environment.tx.target) s) at hcall
  generalize x.call _ _ s = r, x.callCode _ _ _ s = r' at hcall ⊢
  cases hcall with
  | @ok p q related =>
    obtain ⟨reply, u⟩ := p
    obtain ⟨_, v⟩ := q
    obtain ⟨rfl, hlevel⟩ := related
    exact .ok ⟨rfl, hlevel⟩
  | error fault => exact .error fault

theorem conclude_level (e : Ended) (h : s.Level x.database t) :
    Agree (Transacted.Level x.database) (x.conclude e s) (x.conclude e t) := by
  have hjournal := h.journal
  simp only [conclude, finalize, h.failure, h.events, hjournal.refund, hjournal.logs]
  split
  · exact .ok ⟨rfl, .error _⟩
  split
  · exact .ok ⟨rfl, .error _⟩
  cases x.report e _ t.journal.refund t.journal.logs.reverse with
  | ok report => exact .ok ⟨rfl, .ok ⟨rfl, hjournal.accounts⟩⟩
  | error fault => exact .error fault

theorem transact_level (hp : x.transfers.Sound) (hdb : x.database.Steady) (input : Bytes)
    (gasLimit : Nat) :
    Agree (Transacted.Level x.database)
      (x.transact (.call x.environment.tx.target input) gasLimit)
      (x.transact (.code ((fresh x.database x.environment.tx.target).program x.database) input)
        gasLimit) := by
  simp only [transact, targetOf]
  have hloads := loadAll_steady hdb (x.warm (some x.environment.tx.target))
    (.ofHardfork x.rules.hardfork)
  have hshows := loadAll_shows x.database (x.warm (some x.environment.tx.target))
    (.ofHardfork x.rules.hardfork)
  simp only [Ends, Shows] at hloads hshows
  cases hload : loadAll x.database (x.warm (some x.environment.tx.target))
      (.ofHardfork x.rules.hardfork) with
  | error outage j =>
    rw [hload] at hloads
    exact hloads.elim
  | ok _ j =>
    rw [hload] at hshows
    have hwarms := (Tracked.loadAll_warms x.database _ _).ok hload
    have hloaded : (j.accounts[x.environment.tx.target]?).isSome := by
      apply (hwarms.warm (.account x.environment.tx.target)).mpr
      simp [warm]
    have hprogram : j.program x.database x.environment.tx.target =
        (fresh x.database x.environment.tx.target).program x.database := by
      rw [hshows.1.program, Journal.program, ofHardfork, Std.ExtTreeMap.getElem?_empty,
        Option.getD_none]
    have hruns := runTask_level (s := { journal := j }) hp hdb input gasLimit hloaded
    rw [← hprogram]
    dsimp only
    simp only [Bind.bind, Except.bind]
    dsimp only at hruns
    generalize x.runTask (.call _ _) _ _ = r, x.runTask (.code _ _) _ _ = r' at hruns ⊢
    cases hruns with
    | @ok p q related =>
      obtain ⟨e, u⟩ := p
      obtain ⟨_, v⟩ := q
      obtain ⟨rfl, hlevel⟩ := related
      exact conclude_level e hlevel
    | error fault => exact .error fault

/-- A transaction over a store calls an account, or runs the code that is deployed there as if it were given.
Either way the same happens, and it comes to the same report and, fetched code aside, to the same accounts,
or it is aborted for the same reason. Whichever accounts are committed, the store answers alike afterwards. -/
theorem deployed_code_interchanges {d : Store} (hp : x.transfers.Sound) (built : d.Built)
    (database : x.database = d.toDatabase) (input : Bytes) (gasLimit : Nat) :
    ∃ found j, loadCode x.database x.environment.tx.target (.ofHardfork x.rules.hardfork) = .ok found j ∧
      Agree (fun T U => T.events = U.events ∧
          Except.Rel (fun p q => p.1 = q.1 ∧ Accounts.Alike p.2 q.2 ∧ d.Interchanges p.2 q.2)
            T.result U.result)
        (x.transact (.call x.environment.tx.target input) gasLimit)
        (x.transact (.code found.value input) gasLimit) := by
  have hdb : x.database.Steady := by
    rw [database]
    exact fun _ _ => rfl
  have hlabels : x.database.Labels := database ▸ built.proper.labels
  have hload := loadCode_steady hdb x.environment.tx.target (.ofHardfork x.rules.hardfork)
  simp only [Ends] at hload
  cases hcode : loadCode x.database x.environment.tx.target (.ofHardfork x.rules.hardfork) with
  | error outage j =>
    rw [hcode] at hload
    exact hload.elim
  | ok found j =>
    rw [hcode] at hload
    have hfound : found.value = (fresh x.database x.environment.tx.target).program x.database := by
      rw [hload.1, Journal.program, ofHardfork, Std.ExtTreeMap.getElem?_empty, Option.getD_none]
    refine ⟨found, j, rfl, ?_⟩
    have hsame := transact_level hp hdb input gasLimit
    rw [← hfound] at hsame
    generalize hcall : x.transact (.call _ _) _ = r at hsame ⊢
    generalize hgiven : x.transact (.code _ _) _ = r' at hsame ⊢
    cases hsame with
    | error fault => exact .error fault
    | @ok T U related =>
      obtain ⟨hevents, hresult⟩ := related
      refine .ok ⟨hevents, ?_⟩
      generalize hT : T.result = result at hresult ⊢
      generalize hU : U.result = result' at hresult ⊢
      cases hresult with
      | error why => exact .error why
      | @ok p q related =>
        obtain ⟨hreport, hlevel⟩ := related
        have hp' : ∀ (a : Address) (y : Account), p.2[a]? = some y → y.Labelled := fun a y hy =>
          accounts_labelled hp hlabels hcall hT hy
        have hq' : ∀ (a : Address) (y : Account), q.2[a]? = some y → y.Labelled := fun a y hy =>
          accounts_labelled hp hlabels hgiven hU hy
        exact .ok ⟨hreport, hlevel.alike, built.proper.interchanges (database ▸ hlevel) hp' hq'⟩

def recursing : Store := Store.empty.insertCode 0x0a visiting

/-- The code of an account calls the account again, which loads its code while it runs. -/
theorem deployed_code_interchanges_recursing :
    (early recursing 0x0a).transfers.Sound ∧ recursing.Built ∧
      ∃ T U report accounts accounts',
        (early recursing 0x0a).transact (.call 0x0a ByteArray.empty) 100 = .ok T ∧
        (early recursing 0x0a).transact (.code visiting ByteArray.empty) 100 = .ok U ∧
        T.result = .ok (report, accounts) ∧ U.result = .ok (report, accounts') ∧
        report.outcome = .success .stop ∧ recursing.Distinguishes accounts ∧
        ∀ hash, (recursing.commit accounts).toDatabase.code hash =
          (recursing.commit accounts').toDatabase.code hash := by
  have hbuilt : recursing.Built := .insertCode .empty 0x0a visiting
  have hresult : ((early recursing 0x0a).transact (.call 0x0a ByteArray.empty) 100).map
      (·.result.toOption.map fun p => (p.1.outcome, p.2.toList.all fun q => q.2.filing.toList.all
        fun code => (recursing.codes[codeHash code]?).all fun stored => decide (stored = code))) =
      .ok (some (.success .stop, true)) := by
    decide +kernel
  obtain ⟨T, report, accounts, ran, result, hfound⟩ := exists_report hresult
  obtain ⟨houtcome, hfiled⟩ := Prod.mk.inj hfound
  have apart : recursing.Distinguishes accounts := by
    intro a y hy code hcode stored hstored
    have hmem := Std.ExtTreeMap.mem_toList_iff_getElem?_eq_some.mpr hy
    have hsame := List.all_eq_true.mp (List.all_eq_true.mp hfiled _ hmem) code
      (Option.mem_toList.mpr hcode)
    rw [Option.mem_def.mp hstored] at hsame
    exact of_decide_eq_true hsame
  obtain ⟨found, j, hcode, hboth⟩ :=
    deployed_code_interchanges (x := early recursing 0x0a) (.inl rfl) hbuilt rfl ByteArray.empty 100
  have hvisiting : found.value = visiting := by
    have hload := (loadCode_steady (fun _ _ => rfl) _ _).ok hcode
    rw [hload.1]
    decide +kernel
  rw [hvisiting] at hboth
  generalize hcall : (early recursing 0x0a).transact (.call _ _) _ = r at hboth
  generalize (early recursing 0x0a).transact (.code _ _) _ = r' at hboth ⊢
  cases hcall.symm.trans ran
  cases hboth with
  | @ok _ U related =>
    obtain ⟨-, hreports⟩ := related
    rw [result] at hreports
    generalize hU : U.result = result' at hreports
    cases hreports with
    | @ok _ q related =>
      obtain ⟨report', accounts'⟩ := q
      obtain ⟨hreport, -, hinterchanges⟩ := related
      dsimp only at hreport
      subst hreport
      exact ⟨.inl rfl, hbuilt, T, U, report, accounts, accounts', ran, rfl, result, hU, houtcome,
        apart, hinterchanges.code apart⟩

end Executor

end MeteredVM
