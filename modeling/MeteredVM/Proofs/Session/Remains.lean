import MeteredVM.Proofs.Session.Label
import MeteredVM.Proofs.Session.Settlement

namespace MeteredVM

open Journal

namespace Store

variable {d e : Store} {changes : Accounts} {a : Address} {y : Account}

theorem getElem?_commit_of_touched (loaded : changes[a]? = some y) (touched : y.flags.touched = true) :
    (d.commit changes).accounts[a]? = some (settled (d.accountD a) y) := by
  rw [getElem?_commit, loaded, Option.elim_some, if_pos touched]

theorem toDatabase_slot_of_emptied (h : d.accounts[a]? = some {}) (key : Word) :
    d.toDatabase.slot a key = 0 := by
  rw [toDatabase_slot, h]
  exact congrArg (Option.getD · 0) Std.ExtTreeMap.getElem?_empty

/-- Code at hand leaves no trace in what is filed but the hash that it has. -/
theorem filed_of_labelled (h : y.Labelled) :
    filed y.info = ⟨y.info.balance, y.info.nonce,
      if y.info.codeHash = 0 then emptyCodeHash else y.info.codeHash, none⟩ := by
  unfold filed
  cases hcode : y.info.code with
  | none => rfl
  | some code =>
    by_cases hsize : code.size = 0
    · simp only [hsize, if_true]
    · simp only [hsize, if_false, h code hcode hsize]

theorem filed_isEmpty (labelled : y.Labelled) (h : y.info.isEmpty = true) :
    (filed y.info).isEmpty = true := by
  simp only [AccountInfo.isEmpty, AccountInfo.lacksCode, Bool.and_eq_true, Bool.or_eq_true,
    beq_iff_eq] at h
  obtain ⟨⟨hhash, hbalance⟩, hnonce⟩ := h
  have hfiled : (if y.info.codeHash = 0 then emptyCodeHash else y.info.codeHash) = emptyCodeHash := by
    split
    · rfl
    · rename_i hne
      exact hhash.resolve_right hne
  rw [filed_of_labelled labelled, hfiled, hbalance, hnonce]
  rfl

/-- Asked by a transaction that has not yet seen the account, the store tells whether a call would bring it
into existence. -/
def Tells (e : Store) (a : Address) (r : Rules) (absent : Bool) : Prop :=
  ∀ (z : Executor) (inner : Option (Host Session)) (s : Session), z.database = e.toDatabase →
    s.journal.hardfork = r.hardfork → s.journal.accounts[a]? = none →
      ∃ t, (z.host inner).existence a s = .ok ⟨true, absent⟩ t

end Store

namespace Journal

variable {db : Database} {j : Journal} {a : Address}

def seeing (db : Database) (j : Journal) (a : Address) : Journal :=
  { j with
    lookups := .account a :: j.lookups
    accounts := j.accounts.insert a (fresh db a) }.note (.loaded a)

theorem loadAccount_of_unseen (unseen : j.accounts[a]? = none)
    (answered : db.outage j.lookups (.account a) = none) :
    loadAccount db a j = .ok ⟨fresh db a, true⟩ (j.seeing db a) := by
  change (loadAccount db a).run j = _
  simp only [loadAccount, EStateM.run_bind, EStateM.run_get, unseen]
  simp only [lookup, EStateM.run, answered]
  rfl

/-- At first sight an account is absent if it is empty or, before that counted, if the database does not have
it. -/
theorem loadExistence_of_unseen (unseen : j.accounts[a]? = none)
    (answered : db.outage j.lookups (.account a) = none) :
    loadExistence db a j = .ok ⟨true, if j.clearsEmpty then (fresh db a).info.isEmpty
      else (db.account a).isNone⟩ (j.seeing db a) := by
  have hfresh : ((fresh db a).flags.absent && !(fresh db a).flags.touched) =
      (db.account a).isNone := by
    unfold fresh
    cases db.account a <;> rfl
  have hseen : (j.seeing db a).clearsEmpty = j.clearsEmpty := rfl
  have hload : (loadAccount db a).run j = .ok ⟨fresh db a, true⟩ (j.seeing db a) :=
    loadAccount_of_unseen unseen answered
  change (loadExistence db a).run j = _
  rw [loadExistence, EStateM.run_bind, hload]
  simp only [EStateM.run_bind, EStateM.run_get, hseen]
  split
  · rfl
  · rw [hfresh]
    rfl

end Journal

namespace Store

variable {d e : Store} {changes : Accounts} {a : Address} {y : Account}

/-- The rules tell when emptiness counts, else it is whether the account is stored. -/
theorem tells (e : Store) (a : Address) (r : Rules) :
    e.Tells a r (if r.since .spuriousDragon then (e.accountD a).info.isEmpty
      else e.accounts[a]?.isNone) := by
  intro z inner s database hardfork unseen
  have hclears : s.journal.clearsEmpty = r.since .spuriousDragon := by
    rw [clearsEmpty, hardfork]
    rfl
  have hexists : loadExistence e.toDatabase a s.journal = .ok _ _ := loadExistence_of_unseen unseen rfl
  rw [hclears, fresh_toDatabase, toDatabase_account, Option.isNone_map] at hexists
  refine ⟨{ s with journal := s.journal.seeing e.toDatabase a }, ?_⟩
  simp only [Executor.host, Session.load, database, hexists]

end Store

namespace Executor

variable {x : Executor} {d : Store} {task : Task} {gasLimit : Nat} {T : Transacted} {report : Report}
  {accounts : Accounts} {a : Address} {y : Account}

theorem accounts_labelled (hp : x.transfers.Sound) (hdb : x.database.Labels)
    (ran : x.transact task gasLimit = .ok T) (result : T.result = .ok (report, accounts))
    (loaded : accounts[a]? = some y) : y.Labelled := by
  obtain ⟨b, e, s, starts, hrun, -, -, rfl⟩ := transact_reports ran result
  exact labels_kept hp hdb (starts.leaves hrun) (starts.labelled hdb) a y loaded

/-- A transaction over a store is committed to it. What it has destroyed is stored with nothing in it: no
balance, nonce or code, and no slot. What it has touched and left empty is empty, if it is stored at all. So
a later transaction takes both for absent since Spurious Dragon; before, what was destroyed exists. -/
theorem dead_accounts_remain_empty (hp : x.transfers.Sound) (built : d.Built)
    (database : x.database = d.toDatabase) (ran : x.transact task gasLimit = .ok T)
    (result : T.result = .ok (report, accounts)) (loaded : accounts[a]? = some y)
    (touched : y.flags.touched = true) :
    (y.flags.destroyed = true →
      (d.commit accounts).toDatabase.account a = some {} ∧
        (∀ key, (d.commit accounts).toDatabase.slot a key = 0) ∧
          ∀ r : Rules, (d.commit accounts).Tells a r (r.since .spuriousDragon)) ∧
    (y.flags.destroyed = false → y.info.isEmpty = true →
      (∀ info ∈ (d.commit accounts).toDatabase.account a, info.isEmpty = true) ∧
        ∀ r : Rules, r.since .spuriousDragon = true → (d.commit accounts).Tells a r true) := by
  have hstored := Store.getElem?_commit_of_touched (d := d) loaded touched
  refine ⟨fun destroyed => ?_, fun kept empty => ?_⟩
  · rw [Store.settled, if_pos destroyed] at hstored
    refine ⟨?_, Store.toDatabase_slot_of_emptied hstored, fun r => ?_⟩
    · rw [Store.toDatabase_account, hstored]
      rfl
    · have htells := (d.commit accounts).tells a r
      rw [Store.accountD_eq, hstored] at htells
      cases hr : r.since .spuriousDragon with
      | true =>
        rw [hr] at htells
        exact htells
      | false =>
        rw [hr] at htells
        exact htells
  · have hlabelled : y.Labelled :=
      accounts_labelled hp (database ▸ built.proper.labels) ran result loaded
    have hempty := Store.filed_isEmpty hlabelled empty
    rw [Store.settled, kept, if_neg Bool.false_ne_true] at hstored
    refine ⟨fun info hinfo => ?_, fun r hr => ?_⟩
    · rw [Store.toDatabase_account, hstored] at hinfo
      cases hinfo
      exact hempty
    · have htells := (d.commit accounts).tells a r
      simp only [hr, if_true, Store.accountD_eq, hstored, Option.getD_some, hempty] at htells
      exact htells

/-- Code that destroys its account in favour of another one. -/
def destroying : Bytes := ⟨#[0x60, 0xbb, 0xff]⟩

/-- The account of the code is destroyed, and the other one is touched and empty. -/
theorem dead_accounts_remain_empty_destroying :
    ∃ T report accounts y z, vacant.transact (.code destroying ByteArray.empty) 50000 = .ok T ∧
      T.result = .ok (report, accounts) ∧
      (accounts[(0x0a : Address)]? = some y ∧ y.flags.touched = true ∧ y.flags.destroyed = true ∧
        (Store.empty.commit accounts).toDatabase.account 0x0a = some {}) ∧
      accounts[(0xbb : Address)]? = some z ∧ z.flags.touched = true ∧ z.flags.destroyed = false ∧
        (Store.empty.commit accounts).Tells 0xbb (.ofHardfork .london) true := by
  have hresult : (vacant.transact (.code destroying ByteArray.empty) 50000).map
      (·.result.toOption.map fun p =>
        ((p.2[(0x0a : Address)]?).map (·.flags), (p.2[(0xbb : Address)]?).map fun y => (y.flags, y.info.isEmpty))) =
      .ok (some (some ⟨false, true, true, true⟩, some (⟨false, false, true, true⟩, true))) := by
    decide +kernel
  obtain ⟨T, report, accounts, ran, result, hfound⟩ := exists_report hresult
  obtain ⟨hdestroyed, hempty⟩ := Prod.mk.inj hfound
  obtain ⟨y, hy, hflags⟩ := Option.map_eq_some_iff.mp hdestroyed
  obtain ⟨z, hz, hinfo⟩ := Option.map_eq_some_iff.mp hempty
  obtain ⟨hzflags, hzempty⟩ := Prod.mk.inj hinfo
  have hytouched : y.flags.touched = true := congrArg (·.touched) hflags
  have hztouched : z.flags.touched = true := congrArg (·.touched) hzflags
  have hydestroyed : y.flags.destroyed = true := congrArg (·.destroyed) hflags
  have hzkept : z.flags.destroyed = false := congrArg (·.destroyed) hzflags
  obtain ⟨hgone, -⟩ :=
    dead_accounts_remain_empty (.inl rfl) .empty rfl ran result hy hytouched
  obtain ⟨-, hfound⟩ :=
    dead_accounts_remain_empty (.inl rfl) .empty rfl ran result hz hztouched
  exact ⟨T, report, accounts, y, z, ran, result, ⟨hy, hytouched, hydestroyed, (hgone hydestroyed).1⟩,
    hz, hztouched, hzkept, (hfound hzkept hzempty).2 _ rfl⟩

/-- Calls the account with neither value nor gas. -/
def visiting : Bytes :=
  ⟨#[0x60, 0, 0x60, 0, 0x60, 0, 0x60, 0, 0x60, 0, 0x60, 0x0a, 0x60, 0, 0xf1]⟩

def early (d : Store) (target : Address) : Executor where
  environment := { tx := { target := target } }
  rules := .ofHardfork .homestead
  database := d.toDatabase

/-- What a transaction leaves in the store of accounts that are dead. An account that it destroys stays
there, so that the next transaction, which calls it, does not pay for bringing it into existence; and since
Spurious Dragon one that it touches and that is empty is brought in. -/
theorem destroyed_account_exists :
    (∃ T report accounts, (early .empty 0x0a).transact (.code destroying ByteArray.empty) 100 = .ok T ∧
      T.result = .ok (report, accounts) ∧
      ((accounts[(0x0a : Address)]?).map fun y => (y.flags.touched, y.flags.destroyed)) =
        some (true, true) ∧
      (Store.empty.commit accounts).toDatabase.account 0x0a ≠ none ∧
      ∃ U report' accounts', (early (Store.empty.commit accounts) 0xcc).transact
          (.code visiting ByteArray.empty) 100 = .ok U ∧ U.result = .ok (report', accounts') ∧
        report'.outcome = .success .stop ∧ report'.gasUsed = 61) ∧
    ∃ T report accounts, vacant.transact (.code ⟨#[0]⟩ ByteArray.empty) 100 = .ok T ∧
      T.result = .ok (report, accounts) ∧
      ((accounts[(0x0a : Address)]?).map fun y =>
        (y.flags.touched, y.flags.destroyed, y.info.isEmpty)) = some (true, false, true) ∧
      (Store.empty.commit accounts).toDatabase.account 0x0a ≠ none := by
  have hdestroyed : ((early .empty 0x0a).transact (.code destroying ByteArray.empty) 100).map
      (·.result.toOption.map fun p =>
        ((p.2[(0x0a : Address)]?).map (fun y => (y.flags.touched, y.flags.destroyed)),
          ((Store.empty.commit p.2).toDatabase.account 0x0a).isSome,
          decide (((early (Store.empty.commit p.2) 0xcc).transact (.code visiting ByteArray.empty) 100).map
            (·.result.toOption.map fun p => (p.1.outcome, p.1.gasUsed)) =
              .ok (some (.success .stop, 61))))) =
      .ok (some (some (true, true), true, true)) := by
    decide +kernel
  have htouched : (vacant.transact (.code ⟨#[0]⟩ ByteArray.empty) 100).map
      (·.result.toOption.map fun p =>
        ((p.2[(0x0a : Address)]?).map (fun y => (y.flags.touched, y.flags.destroyed, y.info.isEmpty)),
          ((Store.empty.commit p.2).toDatabase.account 0x0a).isSome)) =
      .ok (some (some (true, false, true), true)) := by
    decide +kernel
  obtain ⟨T, report, accounts, ran, result, hfound⟩ := exists_report hdestroyed
  obtain ⟨T', report', accounts', ran', result', hfound'⟩ := exists_report htouched
  simp only [Prod.mk.injEq, decide_eq_true_eq] at hfound
  obtain ⟨hflags, hstored, hvisited⟩ := hfound
  obtain ⟨hflags', hstored'⟩ := Prod.mk.inj hfound'
  obtain ⟨U, visit, left, visited, hvisit, hreport⟩ := exists_report hvisited
  exact ⟨⟨T, report, accounts, ran, result, hflags, Option.isSome_iff_ne_none.mp hstored, U, visit, left,
      visited, hvisit, Prod.mk.inj hreport⟩,
    ⟨T', report', accounts', ran', result', hflags', Option.isSome_iff_ne_none.mp hstored'⟩⟩

end Executor

end MeteredVM
