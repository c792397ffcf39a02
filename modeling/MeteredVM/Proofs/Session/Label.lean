import MeteredVM.Proofs.Session.Deployment
import MeteredVM.Proofs.Store.Reflect

namespace MeteredVM

open Journal Relation

def Account.Labelled (x : Account) : Prop :=
  ∀ code ∈ x.info.code, code.size ≠ 0 → codeHash code = x.info.codeHash

structure Database.Labels (db : Database) : Prop where
  account (a : Address) : (fresh db a).Labelled
  code {hash : Hash} (nonempty : (db.codeOf hash).size ≠ 0) : codeHash (db.codeOf hash) = hash

theorem Account.Labelled.congr {x y : Account} (h : x.Labelled) (code : y.info.code = x.info.code)
    (hash : y.info.codeHash = x.info.codeHash) : y.Labelled := by
  rw [Labelled, code, hash]
  exact h

theorem Account.Labelled.restore {x : Account} (h : x.Labelled) (e : JournalEntry) (a : Address) :
    (e.restore a x).Labelled := by
  obtain hnone | ⟨hcode, hhash⟩ := e.restore_code a x
  · rw [Labelled, hnone]
    exact nofun
  · exact h.congr hcode hhash

theorem Store.Proper.labels {d : Store} (h : d.Proper) : d.toDatabase.Labels where
  account a := by
    intro code hand nonempty
    rw [fresh_toDatabase] at hand
    obtain ⟨rfl, -⟩ := (h.accountD a).code hand
    exact absurd rfl nonempty
  code nonempty := (h.keyed (stored_of_codeOf rfl nonempty)).2

namespace Journal

def Labelled (j : Journal) : Prop :=
  ∀ (a : Address) (x : Account), j.accounts[a]? = some x → x.Labelled

def KeepsLabels (j k : Journal) : Prop := j.Labelled → k.Labelled

namespace KeepsLabels

variable {db : Database} {i j k l : Journal} {a : Address} {mark : Checkpoint} {f : Account → Account}

theorem refl (j : Journal) : j.KeepsLabels j := id

theorem trans (h : i.KeepsLabels j) (h' : j.KeepsLabels k) : i.KeepsLabels k := h' ∘ h

theorem of_accounts (h : k.accounts = j.accounts) : j.KeepsLabels k := by
  intro hj a x hx
  rw [h] at hx
  exact hj a x hx

theorem update (j : Journal) (b : Address)
    (hf : ∀ x, j.accounts[b]? = some x → x.Labelled → (f x).Labelled) :
    j.KeepsLabels (j.update b f) := by
  intro hj a x hx
  rw [Journal.update, getElem?_modify_eq_map] at hx
  obtain ⟨y, hy, rfl⟩ := Option.map_eq_some_iff.mp hx
  split
  · rename_i hba
    subst hba
    exact hf y hy (hj _ y hy)
  · exact hj a y hy

theorem touch (j : Journal) (b : Address) : j.KeepsLabels (j.touch b) := by
  have hupdate : j.KeepsLabels (j.update b fun x =>
      { x with flags := { x.flags with touched := true } }) := update j b fun _ _ h => h.congr rfl rfl
  exact hupdate.trans (of_accounts (touch_accounts j b))

theorem look (hdb : db.Labels) (h : Look db j k) : j.KeepsLabels k := by
  cases h with
  | ask l => exact of_accounts rfl
  | @account b absent =>
    intro hj a x hx
    simp only [note, Std.ExtTreeMap.getElem?_insert, Std.LawfulEqCmp.compare_eq_iff_eq] at hx
    split at hx
    · cases hx
      exact hdb.account b
    · exact hj a x hx
  | @code b y loaded unfetched =>
    refine update j b fun x hx _ => ?_
    cases loaded.symm.trans hx
    rintro _ ⟨⟩ nonempty
    exact hdb.code nonempty
  | @slot b x key loaded absent =>
    have hinsert : j.KeepsLabels (j.update b fun y =>
        { y with slots := y.slots.insert key (unloaded db b x key) }) :=
      update j b fun _ _ h => h.congr rfl rfl
    exact hinsert.trans (of_accounts rfl)

theorem looks (hdb : db.Labels) (h : Looks db j k) : j.KeepsLabels k := by
  induction h with
  | refl => exact refl j
  | tail _ hlook ih => exact ih.trans (look hdb hlook)

theorem raised (j : Journal) (a : Address) : j.KeepsLabels (j.raised a) :=
  (touch j a).trans (.trans (of_accounts rfl) (update _ a fun _ _ h => h.congr rfl rfl))

theorem opened (j : Journal) (a : Address) : j.KeepsLabels (j.opened a) := by
  refine trans (of_accounts (k := j.deeper.note (.created a)) rfl) (trans (update _ a ?_) (touch _ a))
  rintro x - - _ ⟨⟩

theorem setCode (j : Journal) (a : Address) (code : Bytes) : j.KeepsLabels (j.setCode a code) := by
  unfold Journal.setCode
  split
  · refine (touch j a).trans (.trans (of_accounts rfl) (update _ a fun x _ _ => ?_))
    rintro _ ⟨⟩ -
    rfl
  · exact refl j

theorem change (h : Change j k) : j.KeepsLabels k := by
  cases h with
  | @slot a x key present loaded slot new =>
    have hinsert : j.KeepsLabels (j.update a fun y => { y with slots := y.slots.insert key new }) :=
      update j a fun _ _ h => h.congr rfl rfl
    exact hinsert.trans (of_accounts rfl)
  | @destroy a x loaded target =>
    have hemptied : j.KeepsLabels (j.emptied a) := update j a fun _ _ h => h.congr rfl rfl
    by_cases hat : a = target
    · subst hat
      rw [destroy_self]
      exact hemptied.trans (of_accounts rfl)
    · have hpaid : j.KeepsLabels (((j.emptied a).touch target).rebalance target
          (· + x.info.balance)) :=
        (hemptied.trans (touch _ target)).trans (update _ target fun _ _ h => h.congr rfl rfl)
      rw [destroy_of_ne j hat]
      exact hpaid.trans (of_accounts rfl)

theorem transfer (source target : Address) (value : Word) (j : Journal) :
    j.KeepsLabels (leftBy (Journal.transfer source target value) j) :=
  transfer_rule refl trans touch (fun j a _ => update j a fun _ _ h => h.congr rfl rfl)
    (fun _ => of_accounts rfl) j

theorem undone (h : j.deeper.KeepsLabels k) (reverted : k.revert j.mark = .ok l) :
    j.KeepsLabels l := by
  intro hj a x hx
  have hk : k.Labelled := h hj
  obtain ⟨undone, -, -, hundo, -⟩ := revert_eq_ok reverted
  rw [undoAll_getElem? hundo a] at hx
  exact Aspect.of_undoAllAt (fun e y hy => hy.restore e a) hx fun y hy => hk a y hy

end KeepsLabels

end Journal

theorem TransferPolicy.Sound.keepsLabels {p : TransferPolicy} (hp : p.Sound)
    (source target : Address) (value : Word) (j : Journal) :
    j.KeepsLabels (leftBy (p.move source target value) j) := by
  obtain rfl | rfl := hp
  · exact .transfer source target value j
  · exact .refl j

namespace Executor

variable {x : Executor} {D : Set (Address × Bytes)} {b c : Scene} {t : Session}

theorem labels_charter (hp : x.transfers.Sound) (hdb : x.database.Labels) :
    x.Charter Set.univ Set.univ KeepsLabels KeepsLabels where
  refl := .refl
  trans := .trans
  weaken := id
  after := .trans
  looks := .looks hdb
  touch := .touch
  deeper j := .of_accounts rfl
  commit committed := by
    rw [commit_eq_ok committed]
    exact .of_accounts rfl
  raise {j k a n} _ raised := by
    obtain ⟨rfl, -⟩ := raiseNonce_eq_some raised
    exact .raised j a
  create {j k a mark} _ opened := by
    obtain ⟨-, rfl, -⟩ := createCheckpoint_eq_ok opened
    exact .opened j a
  setCode j a _ := .setCode j a
  pay {j k source target value} _ _ _ paid := by
    rw [← leftBy_eq_of_ok paid]
    exact hp.keepsLabels source target value j
  refused {j k source target value status} _ _ _ h := by
    rw [← leftBy_eq_of_error h]
    exact hp.keepsLabels source target value j
  undone := .undone

theorem labels_watch (x : Executor) (hdb : x.database.Labels) :
    x.Watch (fun _ => True) Set.univ KeepsLabels where
  next _ _ _ := trivial
  deployed _ _ _ _ := Set.mem_univ _
  acts {room f s t} _ used := by
    induction used with
    | refl => exact .refl _
    | @tail u v _ hact ih =>
      refine ih.trans ?_
      obtain hlooks | ⟨-, haltered⟩ := host_act hact
      · exact .looks hdb hlooks
      · generalize v.journal = k at haltered ⊢
        cases haltered with
        | change looks change => exact (KeepsLabels.looks hdb looks).trans (.change change)
        | log l => exact .of_accounts rfl
        | refund recorded =>
          rw [recordRefund_eq_ok recorded]
          exact .of_accounts rfl

/-- What is left of a point has its labels right if the point has. -/
theorem labels_kept (hp : x.transfers.Sound) (hdb : x.database.Labels) (left : x.leaves c = .ok t) :
    c.session.journal.KeepsLabels t.journal :=
  (x.labels_watch hdb).leaves (labels_charter hp hdb).pact trivial left

theorem Starts.labelled {task : Task} {gasLimit : Nat} (hdb : x.database.Labels)
    (hb : x.Starts task gasLimit b) : b.session.journal.Labelled := by
  refine KeepsLabels.looks hdb hb.looks fun a y hy => ?_
  cases Std.ExtTreeMap.getElem?_empty.symm.trans hy

end Executor

end MeteredVM
