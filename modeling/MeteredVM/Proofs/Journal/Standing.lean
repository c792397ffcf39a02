import MeteredVM.Proofs.Journal.Aspect
import MeteredVM.Proofs.Journal.Progress

namespace MeteredVM

open Accounts

def Account.standing (x : Account) : Nat × Hash := (x.info.nonce, x.info.codeHash)

def JournalEntry.backStanding (e : JournalEntry) (a : Address) (v : Nat × Hash) : Nat × Hash :=
  match e with
  | .nonceRaised b => if b = a then (v.1 - 1, v.2) else v
  | .created b => if b = a then (0, v.2) else v
  | .codeSet b => if b = a then (v.1, emptyCodeHash) else v
  | _ => v

theorem JournalEntry.restore_standing (e : JournalEntry) (a : Address) (x : Account) :
    (e.restore a x).standing = e.backStanding a x.standing := by
  cases e <;> dsimp only [restore, backStanding] <;> split_ifs <;> rfl

def Aspect.standing : Aspect (Nat × Hash) where
  of := Account.standing
  of_bare _ := rfl
  of_created _ _ := rfl
  of_restore h e a := by rw [e.restore_standing, e.restore_standing, h]

namespace AccountView

def Free (v : AccountView) : Prop := v.codeHash = emptyCodeHash ∧ v.nonce = 0

/-- What may become of an account: it keeps its code, or it was free and has got code of `D`. It is not
free again. -/
structure Develops (D : Set (Address × Bytes)) (a : Address) (v w : AccountView) : Prop where
  code : w.codeHash = v.codeHash ∨ v.Free ∧ ∃ code, (a, code) ∈ D ∧ w.codeHash = MeteredVM.codeHash code
  taken (h : ¬v.Free) : ¬w.Free

namespace Develops

variable {D : Set (Address × Bytes)} {a : Address} {u v w : AccountView}

theorem of_same (codes : w.codeHash = v.codeHash) (nonce : w.nonce = v.nonce) : v.Develops D a w :=
  ⟨.inl codes, fun h hw => h ⟨codes.symm.trans hw.1, nonce.symm.trans hw.2⟩⟩

theorem trans (h : u.Develops D a v) (h' : v.Develops D a w) : u.Develops D a w := by
  refine ⟨?_, fun hu => h'.taken (h.taken hu)⟩
  obtain hsame | ⟨hfree, hdeployed⟩ := h'.code
  · rw [hsame]
    exact h.code
  · exact .inr ⟨not_not.mp fun hu => h.taken hu hfree, hdeployed⟩

end Develops

end AccountView

namespace Journal

variable {db : Database} {D : Set (Address × Bytes)} {i j k l m : Journal} {a : Address}
  {mark : Checkpoint}

theorem view_standing (db : Database) (j : Journal) (a : Address) :
    ((j.view db a).nonce, (j.view db a).codeHash) =
      (Aspect.standing.see j.accounts a).getD (fresh db a).standing := by
  rw [Journal.view, Aspect.see]
  cases j.accounts[a]? <;> rfl

theorem develops_of_see (h : Aspect.standing.see k.accounts = Aspect.standing.see j.accounts)
    (a : Address) : (j.view db a).Develops D a (k.view db a) := by
  have hk := view_standing db k a
  rw [h, ← view_standing, Prod.mk.injEq] at hk
  exact .of_same hk.2 hk.1

theorem revert_hardfork (h : k.revert mark = .ok l) : l.hardfork = k.hardfork := by
  unfold revert at h
  split at h
  · cases h
  split at h
  · cases h
  · obtain ⟨n, -, h⟩ := Except.bind_eq_ok h
    cases h
    rfl

theorem codeHash_setCode (ha : (j.accounts[a]?).isSome) (code : Bytes) :
    ((j.setCode a code).view db a).codeHash = codeHash code := by
  obtain ⟨x, hx⟩ := Option.isSome_iff_exists.mp ha
  have htouched : ((j.touch a).note (.codeSet a)).accounts[a]? = _ := touched_loaded hx
  simp only [setCode, hx, view_update htouched, if_true]
  rfl

/-- The standing of accounts may change, but what has changed it can be undone. Where a creation takes its
account at once, the code of accounts develops. -/
structure Upright (db : Database) (D : Set (Address × Bytes)) (j k : Journal) : Prop where
  hardfork : k.hardfork = j.hardfork
  restores : Aspect.standing.Restores j k
  develops (clears : j.clearsEmpty = true) (a : Address) : (j.view db a).Develops D a (k.view db a)

namespace Upright

theorem of_rests (h : Aspect.standing.Rests j k) : Upright db D j k :=
  ⟨h.hardfork, h.restores, fun _ => develops_of_see h.same⟩

theorem refl (j : Journal) : Upright db D j j := of_rests (.refl j)

theorem trans (h : Upright db D i j) (h' : Upright db D j k) : Upright db D i k where
  hardfork := h'.hardfork.trans h.hardfork
  restores := h.restores.trans h'.restores
  develops clears a :=
    (h.develops clears a).trans (h'.develops ((clearsEmpty_congr h.hardfork).trans clears) a)

theorem of_origin (h : j.Extends k) (same : ∀ a, (k.view db a).origin = (j.view db a).origin) :
    Upright db D j k := by
  refine ⟨h.hardfork, .of_extends h, fun _ a => ?_⟩
  have ha := same a
  simp only [AccountView.origin, Prod.mk.injEq] at ha
  exact .of_same ha.2.1 ha.1

theorem looks (h : Looks db j k) : Upright db D j k := .of_origin h.extends fun a => by rw [h.view]

theorem touch (j : Journal) (a : Address) : Upright db D j (j.touch a) :=
  .of_origin (touch_extends j a) (origin_touch j a)

theorem raise {n : Nat} (h : j.raiseNonce a = some (n, k)) : Upright db D j k := by
  refine ⟨(raiseNonce_extends h).hardfork, .of_extends (raiseNonce_extends h), fun _ b => ?_⟩
  rw [(view_raiseNonce h b).2]
  split
  · exact ⟨.inl rfl, fun _ hfree => absurd hfree.2 (Nat.succ_ne_zero _)⟩
  · exact .of_same rfl rfl

theorem commit (committed : j.commit = .ok k) : Upright db D j k := by
  rw [commit_eq_ok committed]
  exact of_rests (.of_eq rfl rfl rfl)

theorem deeper (j : Journal) : Upright db D j j.deeper := of_rests (.of_eq rfl rfl rfl)

theorem undone (h : Upright db D j.deeper k) (reverted : k.revert j.mark = .ok l) :
    Upright db D j l := by
  obtain ⟨-, hsee⟩ := h.restores.revert reverted
  have hfork : l.hardfork = k.hardfork := revert_hardfork reverted
  exact ⟨hfork.trans h.hardfork, h.restores.undone reverted, fun _ => develops_of_see hsee⟩

/-- The account is free when its creation takes it, and not free any more then. -/
theorem create (opened : j.createCheckpoint a = .ok (mark, k)) :
    Upright db D j.deeper k ∧ (j.view db a).Free ∧ (j.clearsEmpty = true → (k.view db a).nonce = 1) := by
  have hrestores : Aspect.standing.Restores j.deeper k := .create opened
  obtain ⟨-, rfl, x, hx, hcode, hnonce⟩ := createCheckpoint_eq_ok opened
  have horigin (b : Address) : ((j.opened a).view db b).origin = _ :=
    origin_opened (Option.isSome_of_eq_some hx) b
  have hfree : (j.view db a).Free := by
    rw [view_of_loaded hx]
    exact ⟨hcode, hnonce⟩
  refine ⟨⟨opened_hardfork j a, hrestores, fun _ b => ?_⟩, hfree, fun clears => ?_⟩
  · have hb := horigin b
    change (j.view db b).Develops D b _
    split at hb
    · rename_i hab
      subst hab
      simp only [AccountView.origin, Prod.mk.injEq] at hb
      exact ⟨.inl hb.2.1, fun htaken => absurd hfree htaken⟩
    · simp only [AccountView.origin, Prod.mk.injEq] at hb
      exact .of_same hb.2.1 hb.1
  · have ha := horigin a
    rw [if_pos rfl, if_pos clears] at ha
    exact congrArg Prod.fst ha

/-- A deployment at the end of a creation is at an account that was free before it. -/
theorem deploy {code : Bytes} (stored : (a, code) ∈ D)
    (opened : j.createCheckpoint a = .ok (mark, k)) (ran : Upright db D k l)
    (committed : l.commit = .ok m) : Upright db D j (m.setCode a code) := by
  obtain ⟨hcreate, hfree, -⟩ : Upright db D j.deeper k ∧ (j.view db a).Free ∧ _ := create opened
  have hm : Upright db D j m := ((deeper j).trans hcreate).trans (ran.trans (commit committed))
  refine ⟨(setCode_hardfork m a code).trans hm.hardfork,
    .deploy opened ran.restores committed code, fun clears b => ?_⟩
  obtain ⟨hnonce, -, -, hcode⟩ : ((m.setCode a code).view db b).nonce = _ ∧ _ := view_setCode m a code b
  by_cases hab : a = b
  · subst hab
    refine ⟨.inr ⟨hfree, code, stored, codeHash_setCode ?_ code⟩, fun htaken => absurd hfree htaken⟩
    obtain ⟨-, -, x, hx, -⟩ := createCheckpoint_eq_ok opened
    exact hm.restores.loaded (Option.isSome_of_eq_some hx)
  · have hb := hm.develops clears b
    exact hb.trans (.of_same (hcode hab) hnonce)

end Upright

end Journal

/-- Payments leave nonces and code alone, whether they are made or refused, and a refusal is a failure. -/
structure TransferPolicy.Civil (p : TransferPolicy) : Prop where
  rests (source target : Address) (value : Word) (j : Journal) :
    Aspect.standing.Rests j (leftBy (p.move source target value) j)
  refuses {source target : Address} {value : Word} {j k : Journal} {status : Status}
    (h : p.move source target value j = .error status k) : status.isOk = false

theorem Aspect.standing_transfer (source target : Address) (value : Word) (j : Journal) :
    standing.Rests j (leftBy (Journal.transfer source target value) j) := by
  have touch : ∀ (j : Journal) (a : Address), standing.Rests j (j.touch a) := by
    intro j a
    unfold Journal.touch
    split
    · split
      · exact .refl j
      · have hnote : standing.Rests j (j.note (.touched a)) :=
          .note j nofun fun b x => JournalEntry.restore_standing _ b x
        exact hnote.trans (.update _ a fun _ => rfl)
    · exact .refl j
  exact Journal.transfer_rule .refl .trans touch (fun j a w => .update j a fun _ => rfl)
    (fun j => .note j nofun fun b x => JournalEntry.restore_standing _ b x) j

theorem Journal.transfer_refuses {source target : Address} {value : Word} {j k : Journal}
    {status : Status} (h : transfer source target value j = .error status k) :
    status.refuses = true := by
  rw [transfer_eq] at h
  split at h
  · cases h
    rfl
  split at h
  · cases h
    rfl
  dsimp only at h
  split at h
  · cases h
    rfl
  split at h
  · cases h
    rfl
  · cases h

theorem TransferPolicy.civil_of_known {p : TransferPolicy}
    (h : p = balances ∨ p = free ∨ p = denied ∨ ∃ s : Status, s.isOk = false ∧ p = failing s) :
    p.Civil := by
  obtain rfl | rfl | rfl | ⟨s, hs, rfl⟩ := h
  · exact ⟨Aspect.standing_transfer, fun h => Status.isOk_of_refuses (Journal.transfer_refuses h)⟩
  · exact ⟨fun _ _ _ j => .refl j, nofun⟩
  · exact ⟨fun _ _ _ j => .refl j, nofun⟩
  · refine ⟨fun _ _ _ j => .refl j, fun h => ?_⟩
    cases h
    exact hs

end MeteredVM
