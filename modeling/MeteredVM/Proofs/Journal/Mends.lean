import MeteredVM.Proofs.Journal.Facet
import MeteredVM.Proofs.Journal.Payment

namespace MeteredVM

def JournalEntry.lower (e : JournalEntry) (a : Address) (nonce : Nat) : Nat :=
  match e with
  | .nonceRaised b => if b = a then nonce - 1 else nonce
  | .created b => if b = a then 0 else nonce
  | _ => nonce

theorem JournalEntry.restore_nonce (e : JournalEntry) (a : Address) (x : Account) :
    (e.restore a x).info.nonce = e.lower a x.info.nonce := by
  cases e <;> dsimp only [restore, lower] <;> split_ifs <;> rfl

namespace Journal

open Accounts

variable {i j k l : Journal} {m n : Accounts} {a : Address}

def nonces (m : Accounts) (a : Address) : Option Nat := m[a]?.map (·.info.nonce)

theorem nonces_modify (m : Accounts) (b : Address) {f : Account → Account}
    (hf : ∀ x, (f x).info.nonce = x.info.nonce) : nonces (m.modify b f) = nonces m := by
  funext a
  rw [nonces, getElem?_modify_eq_map, Option.map_map, nonces]
  congr 1
  funext x
  simp only [Function.comp]
  split
  · exact hf x
  · rfl

theorem nonces_of_alike (h : Alike m n) : nonces m = nonces n := by
  funext a
  have ha := congrArg (Option.map fun x : Account => x.info.nonce) (h a)
  simp only [look, Option.map_map] at ha
  exact ha

theorem nonces_undo {e : JournalEntry} (h : undo m e = .ok n) :
    nonces n = fun a => if e = .loaded a then none else (nonces m a).map (e.lower a) := by
  funext a
  rw [nonces, undo_getElem? h a]
  split
  · rfl
  · rw [nonces, Option.map_map, Option.map_map]
    congr 1
    funext x
    exact e.restore_nonce a x

/-- Whether an entry can be undone, and to which nonces, depends on the nonces alone. -/
theorem undo_of_nonces {r : Accounts} (h : nonces m = nonces n) {e : JournalEntry}
    (hu : undo m e = .ok r) : ∃ s, undo n e = .ok s ∧ nonces r = nonces s := by
  have hanswer : ∃ s, undo n e = .ok s := by
    cases e with
    | nonceRaised a =>
      have ha := congrFun h a
      simp only [nonces] at ha
      simp only [undo] at hu ⊢
      cases hn : n[a]? with
      | none => exact ⟨n, rfl⟩
      | some y =>
        rw [hn, Option.map_some] at ha
        obtain ⟨x, hx, hxy⟩ := Option.map_eq_some_iff.mp ha
        rw [hx] at hu
        by_cases hzero : x.info.nonce = 0
        · simp only [hzero, if_true, reduceCtorEq] at hu
        · rw [hxy] at hzero
          exact ⟨_, if_neg hzero⟩
    | _ => exact ⟨_, rfl⟩
  obtain ⟨s, hs⟩ := hanswer
  exact ⟨s, hs, by rw [nonces_undo hu, nonces_undo hs, h]⟩

theorem undoAll_of_nonces {es : List JournalEntry} {r : Accounts} (h : nonces m = nonces n)
    (hu : undoAll m es = .ok r) : ∃ s, undoAll n es = .ok s ∧ nonces r = nonces s := by
  induction es generalizing m n with
  | nil =>
    cases hu
    exact ⟨n, rfl, h⟩
  | cons e es ih =>
    obtain ⟨m', hm, hu⟩ := Except.bind_eq_ok hu
    obtain ⟨n', hn, h'⟩ := undo_of_nonces h hm
    obtain ⟨s, hs, hrs⟩ := ih h' hu
    refine ⟨s, ?_, hrs⟩
    simp only [undoAll, hn]
    exact hs

structure Mends (j k : Journal) : Prop where
  depth : k.depth = j.depth
  undone : ∃ newer m, k.entries = newer ++ j.entries ∧ undoAll k.accounts newer = .ok m ∧
    nonces m = nonces j.accounts

namespace Mends

theorem of_nonces (hd : k.depth = j.depth) (he : k.entries = j.entries)
    (hn : nonces k.accounts = nonces j.accounts) : j.Mends k :=
  ⟨hd, [], k.accounts, he, rfl, hn⟩

theorem of_undo (e : JournalEntry) (hd : k.depth = j.depth) (he : k.entries = e :: j.entries)
    (hu : undo k.accounts e = .ok m) (hn : nonces m = nonces j.accounts) : j.Mends k := by
  refine ⟨hd, [e], m, he, ?_, hn⟩
  simp only [undoAll, hu]
  rfl

theorem of_extends (h : j.Extends k) : j.Mends k := by
  obtain ⟨newer, m, he, hu, ha⟩ := h.entries
  exact ⟨h.depth, newer, m, he, hu, nonces_of_alike ha⟩

theorem refl (j : Journal) : j.Mends j := of_nonces rfl rfl rfl

theorem trans (h : i.Mends j) (h' : j.Mends k) : i.Mends k := by
  obtain ⟨older, m, he, hu, hm⟩ := h.undone
  obtain ⟨newer, m', he', hu', hm'⟩ := h'.undone
  -- Undoing the newer entries leads to accounts that have only the nonces of those of `j`.
  obtain ⟨n, hn, hmn⟩ := undoAll_of_nonces hm'.symm hu
  have hun : undoAll k.accounts (newer ++ older) = .ok n := by rw [undoAll_append hu', hn]
  have hen : k.entries = (newer ++ older) ++ i.entries := by rw [he', he, List.append_assoc]
  exact ⟨h'.depth.trans h.depth, newer ++ older, n, hen, hun, hmn.symm.trans hm⟩

theorem revert (h : j.deeper.Mends k) :
    ∃ l, k.revert j.mark = .ok l ∧ j.Mends l ∧ l.refund = j.refund := by
  obtain ⟨newer, m, he, hu, hm⟩ := h.undone
  have hd : k.depth = j.depth + 1 := h.depth
  replace he : k.entries = newer ++ j.entries := he
  have hn : k.entries.length - j.entries.length = newer.length := by
    rw [he, List.length_append]
    omega
  have hlen : ¬k.entries.length < j.entries.length := by
    rw [he, List.length_append]
    omega
  have ht : k.entries.take newer.length = newer := by rw [he, List.take_left]
  have hdr : k.entries.drop newer.length = j.entries := by rw [he, List.drop_left]
  have hd0 : ¬k.depth = 0 := by omega
  let l : Journal :=
    { k with
      accounts := m, depth := k.depth - 1, entries := j.entries
      logs := k.logs.drop (k.logs.length - j.logs.length), refund := j.refund }
  have hr : k.revert j.mark = .ok l := by
    simp only [Journal.revert, mark, checkpoint, if_neg hd0, if_neg hlen, hn, ht, hdr, hu]
    rfl
  have hdl : l.depth = j.depth := by simp [l, hd]
  exact ⟨l, hr, .of_nonces hdl rfl hm, rfl⟩

theorem commit (h : j.deeper.Mends k) :
    ∃ l, k.commit = .ok l ∧ j.Mends l ∧ l.refund = k.refund := by
  have hd : k.depth = j.depth + 1 := h.depth
  have hd0 : ¬k.depth = 0 := by omega
  have hdl : k.depth - 1 = j.depth := by omega
  exact ⟨{ k with depth := k.depth - 1 }, if_neg hd0, ⟨hdl, h.undone⟩, rfl⟩

end Mends

structure Smooth (j k : Journal) : Prop extends Mends j k where
  refund : k.refund = j.refund

theorem Smooth.refl (j : Journal) : j.Smooth j := ⟨.refl j, rfl⟩

theorem Smooth.trans (h : i.Smooth j) (h' : j.Smooth k) : i.Smooth k :=
  ⟨h.toMends.trans h'.toMends, h'.refund.trans h.refund⟩

structure Plain (j k : Journal) : Prop extends Smooth j k where
  lookups : k.lookups = j.lookups

namespace Plain

theorem refl (j : Journal) : j.Plain j := ⟨.refl j, rfl⟩

theorem trans (h : i.Plain j) (h' : j.Plain k) : i.Plain k :=
  ⟨h.toSmooth.trans h'.toSmooth, h'.lookups.trans h.lookups⟩

theorem update (j : Journal) (a : Address) {f : Account → Account}
    (hf : ∀ x, (f x).info.nonce = x.info.nonce) : j.Plain (j.update a f) :=
  ⟨⟨.of_nonces rfl rfl (nonces_modify j.accounts a hf), rfl⟩, rfl⟩

theorem note (j : Journal) {e : JournalEntry} (hu : undo j.accounts e = .ok m)
    (hn : nonces m = nonces j.accounts) : j.Plain (j.note e) :=
  ⟨⟨.of_undo e rfl rfl hu hn, rfl⟩, rfl⟩

theorem touch (j : Journal) (a : Address) : j.Plain (j.touch a) :=
  ⟨⟨.of_extends (touch_extends j a), touch_refund j a⟩, touch_lookups j a⟩

theorem raiseNonce {n : Nat} (h : j.raiseNonce a = some (n, k)) : j.Plain k := by
  have hmends : j.Mends k := .of_extends (raiseNonce_extends h)
  obtain ⟨rfl, -⟩ := raiseNonce_eq_some h
  exact ⟨⟨hmends, touch_refund j a⟩, touch_lookups j a⟩

theorem setCode (j : Journal) (a : Address) (code : Bytes) : j.Plain (j.setCode a code) := by
  unfold Journal.setCode
  split
  · have hnote : (j.touch a).Plain ((j.touch a).note (.codeSet a)) :=
      note _ rfl (nonces_modify _ a fun _ => rfl)
    exact (touch j a).trans (hnote.trans (update _ a fun _ => rfl))
  · exact refl j

/-- A creation is opened of an account that has no nonce, whether it was created before or not. -/
theorem opened {x : Account} (hx : j.accounts[a]? = some x) (hn : x.info.nonce = 0) :
    j.deeper.Plain (j.opened a) := by
  unfold Journal.opened
  refine .trans ?_ (touch _ a)
  refine ⟨⟨.of_undo (.created a) rfl rfl rfl ?_, rfl⟩, rfl⟩
  funext b
  simp only [nonces, Journal.note, Journal.update, modify_modify, getElem?_modify]
  split
  · rename_i hab
    subst hab
    have hdeeper : j.deeper.accounts[a]? = some x := hx
    simp only [hdeeper, Option.map_some, hn]
  · rfl

theorem setBalance (j : Journal) (a : Address) (w : Word) : j.Plain (j.setBalance a w) :=
  update j a fun _ => rfl

theorem transfer (source target : Address) (value : Word) (j : Journal) :
    j.Plain (leftBy (Journal.transfer source target value) j) := by
  refine transfer_rule refl trans touch setBalance (fun j => ?_) j
  refine note j rfl (.trans (nonces_modify _ target ?_) (nonces_modify _ source ?_))
  · intro x
    rfl
  · intro x
    rfl

end Plain

end Journal

/-- A payment between loaded accounts can be undone wherever it ends, and it does not fail for want
of an account. -/
theorem TransferPolicy.Sound.plain {p : TransferPolicy} {j : Journal} {source target : Address}
    (hp : p.Sound) (hs : (j.accounts[source]?).isSome) (ht : (j.accounts[target]?).isSome)
    (value : Word) :
    Ends (p.move source target value) j (fun e k => e.Conclusive ∧ j.Plain k)
      fun _ k => j.Plain k := by
  obtain rfl | rfl := hp
  · have hplain := Journal.Plain.transfer source target value j
    have hloaded : ∀ {a : Address}, (j.accounts[a]?).isSome → ∃ w, j.balance? a = some w := by
      intro a ha
      exact Option.isSome_iff_exists.mp (Option.isSome_map.trans ha)
    obtain ⟨funds, hfunds⟩ := hloaded hs
    obtain ⟨held, hheld⟩ := hloaded ht
    have hmove := Journal.transfer_loaded hfunds hheld value
    have htransfer : TransferPolicy.balances.move source target value =
        Journal.transfer source target value := rfl
    rw [htransfer]
    simp only [Ends, leftBy] at hplain ⊢
    split at hmove
    · rw [hmove] at hplain ⊢
      exact ⟨rfl, hplain⟩
    split at hmove
    · obtain ⟨k, hmove⟩ := hmove
      rw [hmove] at hplain ⊢
      exact ⟨rfl, hplain⟩
    · rw [hmove] at hplain ⊢
      exact hplain
  · exact .refl j

end MeteredVM
