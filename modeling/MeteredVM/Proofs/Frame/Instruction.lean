import MeteredVM.Proofs.Frame.Local
import MeteredVM.Instruction.Call
import MeteredVM.Instruction.Compute
import MeteredVM.Instruction.Data
import MeteredVM.Instruction.Flow
import MeteredVM.Gas.Storage

namespace MeteredVM

theorem Amount.le_of_add? {a b c : Nat} (h : Amount.add? a b = some c) : a ≤ c := by
  simp only [Amount.add?] at h
  split at h
  · cases h
    exact Nat.le_add_right a b
  · cases h

namespace Price

theorem le_copy {base len cost : Nat} (h : copy base len = some cost) : base ≤ cost := by
  simp only [copy, Option.bind_eq_bind, Option.bind_eq_some_iff] at h
  obtain ⟨words, -, h⟩ := h
  exact Amount.le_of_add? h

theorem le_hash {len cost : Nat} (h : hash len = some cost) : 30 ≤ cost := by
  simp only [hash, Option.bind_eq_bind, Option.bind_eq_some_iff] at h
  obtain ⟨words, -, h⟩ := h
  exact Amount.le_of_add? h

theorem le_saltedCreation {len cost : Nat} (h : saltedCreation len = some cost) :
    creation ≤ cost := by
  simp only [saltedCreation, Option.bind_eq_bind, Option.bind_eq_some_iff] at h
  obtain ⟨words, -, h⟩ := h
  exact Amount.le_of_add? h

theorem le_log {topics len cost : Nat} (h : log topics len = some cost) : 375 ≤ cost := by
  simp only [log, Option.bind_eq_bind, Option.bind_eq_some_iff] at h
  obtain ⟨bytes, -, base, hbase, h⟩ := h
  exact Nat.le_trans (Amount.le_of_add? hbase) (Amount.le_of_add? h)

theorem le_exp {r : Rules} {power : Word} {cost : Nat} (h : exp r power = some cost) :
    10 ≤ cost := by
  simp only [exp] at h
  split at h
  · cases h
    exact Nat.le_refl _
  · simp only [Option.bind_eq_bind, Option.bind_eq_some_iff] at h
    obtain ⟨top, -, h⟩ := h
    exact Amount.le_of_add? h

theorem le_codeSize (r : Rules) (cold : Bool) : 20 ≤ codeSize r cold := by
  simp only [codeSize, account]
  repeat' split
  all_goals decide

theorem le_codeHash (r : Rules) (cold : Bool) : 100 ≤ codeHash r cold := by
  simp only [codeHash, account]
  repeat' split
  all_goals decide

theorem le_balance (r : Rules) (cold : Bool) : 20 ≤ balance r cold := by
  simp only [balance, account]
  repeat' split
  all_goals decide

theorem le_slotRead (r : Rules) (cold : Bool) : 50 ≤ slotRead r cold := by
  simp only [slotRead]
  repeat' split
  all_goals decide

theorem le_slotWrite (r : Rules) (c : SlotChange) (cold : Bool) : 100 ≤ slotWrite r c cold := by
  have hnet : ∀ tier : NetTier, 100 ≤ tier.touch → 100 ≤ tier.reset → 100 ≤ netWrite tier c := by
    intro tier htouch hreset
    simp only [netWrite, slotSet]
    repeat' split
    all_goals omega
  simp only [slotWrite, netTier?]
  split
  · rename_i tier htier
    refine Nat.le_trans (hnet tier ?_ ?_) (Nat.le_add_right _ _)
    · repeat' split at htier
      all_goals cases htier
      all_goals decide
    · repeat' split at htier
      all_goals cases htier
      all_goals decide
  · split <;> decide

end Price

namespace Instruction

open Local

variable {P : Prop} {f : Frame}

theorem unary_pays (g : Word → Word) : Pays P 0 (unary g) f fun _ _ => True := by
  apply Pays.first .top1
  intro x f' _ _
  exact .setTop

theorem binary_pays (g : Word → Word → Word) : Pays P 0 (binary g) f fun _ _ => True := by
  apply Pays.first .top2
  rintro ⟨x, y⟩ f' - -
  exact .setTop

theorem ternary_pays (g : Word → Word → Word → Word) :
    Pays P 0 (ternary g) f fun _ _ => True := by
  apply Pays.first .top3
  rintro ⟨x, y, z⟩ f' - -
  exact .setTop

theorem binarySince_pays (fork : Hardfork) (g : Word → Word → Word) :
    Pays P 0 (binarySince fork g) f fun _ _ => True := by
  apply Pays.first .since
  intro _ f' _ _
  exact binary_pays g

theorem exp_pays : Pays P 1 exp f fun _ _ => True := by
  apply Pays.first .top2
  rintro ⟨x, y⟩ f' - -
  apply Pays.first .rules
  rintro _ f' - ⟨rfl, rfl⟩
  refine Pays.then (.pay fun cost h => ?_) fun _ _ _ _ => .setTop
  have hle := Price.le_exp h
  omega

theorem keccak_pays : Pays P 1 keccak f fun _ _ => True := by
  apply Pays.first .top2
  rintro ⟨offset, w⟩ f₁ h₁ -
  apply Pays.first .amount
  rintro len _ - rfl
  refine Pays.then (.pay fun cost h => ?_) ?_
  · have hle := Price.le_hash h
    omega
  intro _ f₂ h₂ _
  split
  · exact .setTop
  · rename_i hlen
    apply Pays.first (.copyOut hlen)
    intro data f₃ _ _
    exact .setTop

theorem discard_pays : Pays P 0 discard f fun _ _ => True := by
  apply Pays.first .pop1
  intro _ f' _ _
  exact .pure trivial

theorem pushZero_pays : Pays P 0 pushZero f fun _ _ => True := by
  apply Pays.first .having
  intro _ f' _ _
  exact .push

/-- The data of a push lies within the code and the zeros after it. -/
theorem pushBytes_pays {n : Nat} (hn : n ≤ 32) (hpc : f.pc ≤ f.invocation.code.length) :
    Pays P 0 (pushBytes n) f fun _ _ => True := by
  apply Pays.first .get
  rintro _ f' - ⟨rfl, rfl⟩
  refine Pays.first (.checked fun e he => ?_) ?_
  · simp only [Code.slice] at he
    split at he
    · cases he
    · rename_i hout
      rw [Code.size_padded] at hout
      simp only [Code.length] at hpc
      simp only [Code.padding] at hout
      omega
  rintro data _ - ⟨-, rfl⟩
  refine Pays.first (.onStack fun s hs => Stack.pushBytes_error hs) ?_
  intro _ f₁ _ _
  exact (Pays.modify (fun hf => .of_same hf rfl rfl rfl rfl rfl) rfl).imp (Nat.le_refl _) fun _ _ _ => trivial

theorem memLoad_pays : Pays P 0 memLoad f fun _ _ => True := by
  apply Pays.first .top1
  intro w f₁ h₁ _
  apply Pays.first .amount
  rintro offset _ - rfl
  apply Pays.first .grow
  intro _ f₂ _ h₂
  apply Pays.first .get
  rintro _ f₂ - ⟨rfl, rfl⟩
  refine Pays.first (.checked fun e he => ?_) ?_
  · simp only [Memory.word, Memory.slice] at he
    split at he
    · cases he
    · rename_i hout
      cases he
      exact ⟨rfl, fun hP => hout (h₂ hP (by decide))⟩
  intro x f₃ _ _
  exact .setTop

theorem memStore_pays : Pays P 0 memStore f fun _ _ => True := by
  apply Pays.first .pop2
  rintro ⟨w, value⟩ f₁ h₁ -
  apply Pays.first .amount
  rintro offset _ - rfl
  apply Pays.first .grow
  intro _ f₂ _ h₂
  refine Pays.setWord fun hP => ?_
  exact h₂ hP (by decide)

theorem memStoreByte_pays : Pays P 0 memStoreByte f fun _ _ => True := by
  apply Pays.first .pop2
  rintro ⟨w, value⟩ f₁ h₁ -
  apply Pays.first .amount
  rintro offset _ - rfl
  apply Pays.first .grow
  intro _ f₂ _ h₂
  refine Pays.onMemory (fun e he => ?_) fun mem hm => Memory.size_setByte hm
  obtain ⟨rfl, hout⟩ := Memory.setByte_error he
  exact ⟨rfl, fun hP => hout (h₂ hP (by decide))⟩

theorem jumpTo_pays (target : Word) : Pays P 0 (jumpTo target) f fun _ _ => True := by
  simp only [jumpTo]
  split
  · rename_i pos _
    apply Pays.first .get
    rintro _ f' - ⟨rfl, rfl⟩
    apply Pays.first (.ensure (by rfl))
    rintro _ _ - ⟨-, rfl⟩
    exact (Pays.modify (fun hf => .of_same hf rfl rfl rfl rfl rfl) rfl).imp (Nat.le_refl _) fun _ _ _ => trivial
  · exact .halt rfl

theorem jump_pays : Pays P 0 jump f fun _ _ => True := by
  apply Pays.first .pop1
  intro target f' _ _
  exact jumpTo_pays target

theorem jumpIf_pays : Pays P 0 jumpIf f fun _ _ => True := by
  apply Pays.first .pop2
  rintro ⟨target, condition⟩ f' - -
  dsimp only
  split
  · exact jumpTo_pays target
  · exact .pure trivial

/-- The position is that of the opcode, which has been passed. -/
theorem position_pays (hpc : 0 < f.pc) : Pays P 0 position f fun _ _ => True := by
  apply Pays.first .get
  rintro _ f' - ⟨rfl, rfl⟩
  refine Pays.first (.checked fun e he => ?_) ?_
  · simp only [Amount.sub] at he
    split at he
    · cases he
    · rename_i hlt
      exact absurd hpc hlt
  intro pos f₁ _ _
  exact .push

theorem finish_pays {n : Nat} {s : Status} (hs : s.Inner) :
    Pays P n (finish s) f fun _ _ => True := by
  apply Pays.first .pop2
  rintro ⟨offset, w⟩ f₁ - -
  apply Pays.first .amount
  rintro len _ - rfl
  split
  · refine Pays.first (.modify (fun hf => ⟨rfl, .inl rfl, rfl, Nat.le_refl _, fun hP => ?_⟩) rfl) ?_
    · exact ⟨⟨(hf hP).memory, fun h => absurd rfl h⟩, Nat.le_refl _⟩
    intro _ f₂ _ _
    exact .halt hs
  · rename_i hlen
    apply Pays.first .amount
    rintro start _ - rfl
    apply Pays.first .grow
    intro _ f₂ _ h₂
    refine Pays.first (.modify (fun hf => ⟨rfl, .inl rfl, rfl, Nat.le_refl _, fun hP => ?_⟩) rfl) ?_
    · refine ⟨⟨(hf hP).memory, fun _ => ?_⟩, Nat.le_refl _⟩
      have hin := h₂ hP hlen
      simp only [Span.length]
      omega
    intro _ f₃ _ _
    exact .halt hs

theorem revert_pays {n : Nat} : Pays P n revert f fun _ _ => True := by
  apply Pays.first .since
  intro _ f' _ _
  exact finish_pays rfl

theorem observe_pays (g : Frame → Word) : Pays P 0 (observe g) f fun _ _ => True := by
  apply Pays.first .get
  intro _ f' _ _
  exact .push

theorem callDataLoad_pays : Pays P 0 callDataLoad f fun _ _ => True := by
  apply Pays.first .top1
  intro offset f₁ _ _
  apply Pays.first .get
  intro _ f₂ _ _
  exact .setTop

theorem copyData_pays {price : Nat → Option Nat} {memOffset dataOffset w : Word} {data : Bytes}
    (hprice : ∀ len cost, price len = some cost → 1 ≤ cost) :
    Pays P 1 (copyData price memOffset dataOffset w data) f fun _ _ => True := by
  apply Pays.first .amount
  rintro len _ - rfl
  apply Pays.then (.pay (hprice len))
  intro _ f₁ _ _
  split
  · rename_i hlen
    apply Pays.first .amount
    rintro offset _ - rfl
    apply Pays.first .grow
    intro _ f₂ _ h₂
    refine Pays.onMemory (fun e he => ?_) fun mem hm => Memory.size_setData hm
    obtain ⟨rfl, hout⟩ := Memory.setData_error he
    exact ⟨rfl, fun hP => hout (h₂ hP hlen)⟩
  · exact .pure trivial

theorem copyLow_pays (data : Frame → Bytes) : Pays P 1 (copyLow data) f fun _ _ => True := by
  apply Pays.first .pop3
  rintro ⟨memOffset, dataOffset, len⟩ f₁ - -
  apply Pays.first .get
  intro _ f₂ _ _
  refine copyData_pays fun len cost h => ?_
  have hle := Price.le_copy h
  omega

theorem returnDataSize_pays : Pays P 0 returnDataSize f fun _ _ => True := by
  apply Pays.first .since
  intro _ f' _ _
  exact observe_pays _

theorem returnDataCopy_pays : Pays P 1 returnDataCopy f fun _ _ => True := by
  apply Pays.first .since
  intro _ f₁ _ _
  apply Pays.first .pop3
  rintro ⟨memOffset, dataOffset, w⟩ f₂ - -
  apply Pays.first .amount
  rintro len _ - rfl
  refine Pays.then (.pay fun cost h => ?_) ?_
  · have hle := Price.le_copy h
    omega
  intro _ f₃ _ _
  apply Pays.first .get
  rintro _ f₄ - ⟨rfl, rfl⟩
  apply Pays.first (.ensure (by rfl))
  rintro _ _ - ⟨hdata, rfl⟩
  split
  · rename_i hlen
    apply Pays.first .amount
    rintro offset _ - rfl
    apply Pays.first .grow
    intro _ f₅ _ h₅
    refine Pays.setBytes fun hP => ?_
    have hin := h₅ hP hlen
    have hsize := of_decide_eq_true hdata
    rw [ByteArray.size_extract]
    omega
  · exact .pure trivial

theorem difficulty_pays (block : Block) : Pays P 0 (difficulty block) f fun _ _ => True := by
  simp only [difficulty]
  split
  · apply Pays.first .rules
    intro _ f' _ _
    exact .push
  · exact .push

theorem observeHaving_pays (e : Eip) (w : Word) :
    Pays P 0 (observeHaving e w) f fun _ _ => True := by
  apply Pays.first .having
  intro _ f' _ _
  exact .push

end Instruction

end MeteredVM
