import MeteredVM.Proofs.Frame.Run

namespace MeteredVM

variable {σ τ α β : Type}

/-- How the worlds of two hosts are related, as long as they serve and once they have failed. -/
structure Coupling (σ τ : Type) where
  serving : σ → τ → Prop
  failed : σ → τ → Prop

def Coupling.after (C : Coupling σ τ) (s : Status) : σ → τ → Prop :=
  if s = .hostFailure then C.failed else C.serving

theorem Coupling.after_of_ne (C : Coupling σ τ) {s : Status} (h : s ≠ .hostFailure) :
    C.after s = C.serving :=
  if_neg h

variable {C : Coupling σ τ}

/-- Both computations have answers, which are related, or both have the same fault. -/
inductive Agree (R : α → β → Prop) : Except Fault α → Except Fault β → Prop
  | ok {a : α} {b : β} (related : R a b) : Agree R (.ok a) (.ok b)
  | error (e : Fault) : Agree R (.error e) (.error e)

inductive Query.Alike (C : Coupling σ τ) :
    EStateM.Result Unavailable σ α → EStateM.Result Unavailable τ α → Prop
  | answered (a : α) {w : σ} {v : τ} (serving : C.serving w v) : Alike C (.ok a w) (.ok a v)
  | failed {w : σ} {v : τ} (failed : C.failed w v) : Alike C (.error {} w) (.error {} v)

def Query.Coupled (C : Coupling σ τ) (q : Query σ α) (q' : Query τ α) : Prop :=
  ∀ w v, C.serving w v → Alike C (q w) (q' v)

def Nested.Coupled (C : Coupling σ τ) (status : α → Status) (x : Nested σ α) (y : Nested τ α) :
    Prop :=
  ∀ w v, C.serving w v →
    Agree (fun p q => p.1 = q.1 ∧ C.after (status p.1) p.2 q.2) (x w) (y v)

structure Host.Coupled (C : Coupling σ τ) (h : Host σ) (h' : Host τ) : Prop where
  environment : h.environment = h'.environment
  existence (a : Address) : Query.Coupled C (h.existence a) (h'.existence a)
  blockHash (number : Nat) : Query.Coupled C (h.blockHash number) (h'.blockHash number)
  balance (a : Address) : Query.Coupled C (h.balance a) (h'.balance a)
  code (a : Address) : Query.Coupled C (h.code a) (h'.code a)
  codeHash (a : Address) : Query.Coupled C (h.codeHash a) (h'.codeHash a)
  readSlot (a : Address) (key : Word) : Query.Coupled C (h.readSlot a key) (h'.readSlot a key)
  writeSlot (a : Address) (key new : Word) :
    Query.Coupled C (h.writeSlot a key new) (h'.writeSlot a key new)
  selfDestruct (a target : Address) :
    Query.Coupled C (h.selfDestruct a target) (h'.selfDestruct a target)
  refund (amount : Int) {w : σ} {v : τ} (hw : C.serving w v) :
    Agree C.serving (h.refund amount w) (h'.refund amount v)
  log (l : Log) {w : σ} {v : τ} (hw : C.serving w v) : C.serving (h.log l w) (h'.log l v)
  call (r : CallRequest) : Nested.Coupled C CallReply.status (h.call r) (h'.call r)
  create (r : CreateRequest) : Nested.Coupled C CreateReply.status (h.create r) (h'.create r)

/-- The step goes on with the same status, or ends its frame, but not as a host does that fails. -/
structure Local.Ordinary (x : Local α) : Prop where
  goes {f g : Frame} {a : α} (h : x f = .ok a g) : g.status = f.status
  ends {f g : Frame} {s : Status} (h : x f = .error (.status s) g) : s ≠ .hostFailure

namespace Local.Ordinary

variable {x : Local α}

theorem of_pays {n : Frame → Nat} {Q : Frame → α → Frame → Prop}
    (h : ∀ f, Local.Pays False (n f) x f (Q f)) : x.Ordinary := by
  constructor
  case goes =>
    intro f g a hx
    have hf := h f
    unfold Local.Pays at hf
    replace hf := hf False.elim
    rw [hx] at hf
    exact hf.2.1
  case ends =>
    intro f g s hx
    have hf := h f
    unfold Local.Pays at hf
    replace hf := hf False.elim
    rw [hx] at hf
    exact hf.1.ne_hostFailure

theorem bind {k : α → Local β} (hx : x.Ordinary) (hk : ∀ a, (k a).Ordinary) :
    (x >>= k).Ordinary := by
  constructor
  case goes =>
    intro f g b h
    simp only [Bind.bind, EStateM.bind] at h
    cases he : x f with
    | ok a f' =>
      rw [he] at h
      exact ((hk a).goes h).trans (hx.goes he)
    | error e f' =>
      rw [he] at h
      cases h
  case ends =>
    intro f g s h
    simp only [Bind.bind, EStateM.bind] at h
    cases he : x f with
    | ok a f' =>
      rw [he] at h
      exact (hk a).ends h
    | error e f' =>
      rw [he] at h
      cases h
      exact hx.ends he

theorem checked {y : Except Fault α} : (Local.checked y).Ordinary := by
  unfold Local.checked
  cases y with
  | ok a => exact ⟨fun h => by cases h; rfl, nofun⟩
  | error e => exact ⟨nofun, nofun⟩

theorem halt {s : Status} (hs : s ≠ .hostFailure) : (Local.halt s : Local α).Ordinary :=
  ⟨nofun, fun h => by cases h; exact hs⟩

theorem modify {u : Frame → Frame} (hu : ∀ f, (u f).status = f.status) :
    Local.Ordinary (modify u) :=
  ⟨fun h => by cases h; exact hu _, nofun⟩

theorem giveBack (gas : Gas) : (Local.giveBack gas).Ordinary := by
  constructor
  case goes =>
    intro f g a h
    simp only [Local.giveBack] at h
    split at h
    · cases h
      rfl
    · cases h
  case ends =>
    intro f g s h
    simp only [Local.giveBack] at h
    split at h
    · cases h
    · cases h

theorem onMemory (change : Memory → Except Fault Memory) : (Local.onMemory change).Ordinary := by
  constructor
  case goes =>
    intro f g a h
    simp only [Local.onMemory] at h
    split at h
    · cases h
      rfl
    · cases h
  case ends =>
    intro f g s h
    simp only [Local.onMemory] at h
    split at h
    · cases h
    · cases h

theorem push (w : Word) : (Local.push w).Ordinary := .of_pays fun _ => .push

end Local.Ordinary

/-- Both steps go on with the status of before, or both end their frame. If that is because the host
has failed, the worlds are as failing hosts leave them. -/
inductive Exec.Alike (C : Coupling σ τ) (before : Status) :
    EStateM.Result Ending (Machine σ) α → EStateM.Result Ending (Machine τ) α → Prop
  | goes (a : α) {f : Frame} {w : σ} {v : τ} (status : f.status = before)
      (serving : C.serving w v) : Alike C before (.ok a ⟨f, w⟩) (.ok a ⟨f, v⟩)
  | ends (s : Status) (f : Frame) {w : σ} {v : τ} (after : C.after s w v) :
      Alike C before (.error (.status s) ⟨f, w⟩) (.error (.status s) ⟨f, v⟩)
  | faults (e : Fault) (s : Machine σ) (t : Machine τ) :
      Alike C before (.error (.fault e) s) (.error (.fault e) t)

def Exec.Coupled (C : Coupling σ τ) (x : Exec σ α) (y : Exec τ α) : Prop :=
  ∀ f w v, C.serving w v → Alike C f.status (x ⟨f, w⟩) (y ⟨f, v⟩)

namespace Exec.Coupled

variable {x : Exec σ α} {y : Exec τ α}

theorem ok_left (hxy : Coupled C x y) {f : Frame} {w : σ} {v : τ} (hw : C.serving w v) {a : α}
    {m : Machine σ} (hx : x ⟨f, w⟩ = .ok a m) :
    ∃ n, y ⟨f, v⟩ = .ok a n ∧ n.frame = m.frame ∧ C.serving m.world n.world := by
  have h := hxy f w v hw
  rw [hx] at h
  generalize y ⟨f, v⟩ = r at h ⊢
  cases h with
  | goes a status serving => exact ⟨_, rfl, rfl, serving⟩

theorem ok_right (hxy : Coupled C x y) {f : Frame} {w : σ} {v : τ} (hw : C.serving w v) {a : α}
    {n : Machine τ} (hy : y ⟨f, v⟩ = .ok a n) :
    ∃ m, x ⟨f, w⟩ = .ok a m ∧ n.frame = m.frame ∧ C.serving m.world n.world := by
  have h := hxy f w v hw
  rw [hy] at h
  generalize x ⟨f, w⟩ = r at h ⊢
  cases h with
  | goes a status serving => exact ⟨_, rfl, rfl, serving⟩

theorem pure {a : α} : Coupled C (pure a : Exec σ α) (pure a) :=
  fun _ _ _ hw => .goes a rfl hw

theorem bind {k : α → Exec σ β} {l : α → Exec τ β} (hxy : Coupled C x y)
    (hkl : ∀ a, Coupled C (k a) (l a)) : Coupled C (x >>= k) (y >>= l) := by
  intro f w v hw
  have h := hxy f w v hw
  simp only [Bind.bind, EStateM.bind]
  generalize x ⟨f, w⟩ = r, y ⟨f, v⟩ = r' at h ⊢
  cases h with
  | @goes a g _ _ status serving =>
    have hnext := hkl a g _ _ serving
    rwa [status] at hnext
  | ends s g after => exact .ends s g after
  | faults e s t => exact .faults e s t

theorem here {x : Local α} (hx : x.Ordinary) : Coupled C (Exec.here x) (Exec.here x) := by
  intro f w v hw
  simp only [Exec.here]
  cases he : x f with
  | ok a g => exact .goes a (hx.goes he) hw
  | error e g =>
    cases e with
    | status s =>
      refine .ends s g ?_
      rw [C.after_of_ne (hx.ends he)]
      exact hw
    | fault e => exact .faults e _ _

theorem of_pays {x : Local α} {n : Frame → Nat} {Q : Frame → α → Frame → Prop}
    (hx : ∀ f, Local.Pays False (n f) x f (Q f)) : Coupled C (Exec.here x) (Exec.here x) :=
  here (.of_pays hx)

theorem charged (cost : Nat) (hxy : Coupled C x y) :
    Coupled C (do
      Exec.here (Local.charge cost)
      x) (do
      Exec.here (Local.charge cost)
      y) :=
  .bind (.of_pays fun _ => .charge) fun _ => hxy

theorem ask {q : Query σ α} {q' : Query τ α} (hq : Query.Coupled C q q') :
    Coupled C (Exec.ask q) (Exec.ask q') := by
  intro f w v hw
  have h := hq w v hw
  simp only [Exec.ask]
  generalize q w = r, q' v = r' at h ⊢
  cases h with
  | answered a serving => exact .goes a rfl serving
  | failed failed => exact .ends .hostFailure f failed

end Exec.Coupled

namespace Instruction

open Exec Local

variable {h : Host σ} {h' : Host τ}

theorem refund_coupled (hh : Host.Coupled C h h') (amount : Int) :
    Exec.Coupled C (refund h amount) (refund h' amount) := by
  intro f w v hw
  have hrefund := hh.refund amount hw
  simp only [refund, nested]
  generalize h.refund amount w = r, h'.refund amount v = r' at hrefund ⊢
  cases hrefund with
  | ok serving => exact .goes () rfl serving
  | error e => exact .faults e _ _

theorem inspect_coupled {query : Address → Query σ (Loaded α)}
    {query' : Address → Query τ (Loaded α)} (price : Rules → Bool → Nat) (result : α → Word)
    (hquery : ∀ a, Query.Coupled C (query a) (query' a)) :
    Exec.Coupled C (inspect query price result) (inspect query' price result) := by
  refine .bind (.of_pays fun _ => .top1) fun w => ?_
  refine .bind (.ask (hquery _)) fun found => ?_
  refine .bind (.of_pays fun _ => .rules) fun r => ?_
  exact .bind (.of_pays fun _ => .charge) fun _ => .of_pays fun _ => .setTop

theorem selfBalance_coupled (hh : Host.Coupled C h h') :
    Exec.Coupled C (selfBalance h) (selfBalance h') := by
  refine .bind (.of_pays fun _ => .having) fun _ => ?_
  refine .bind (.of_pays fun _ => .get) fun f => ?_
  exact .bind (.ask (hh.balance _)) fun found => .of_pays fun _ => .push

theorem blockHash_coupled (hh : Host.Coupled C h h') :
    Exec.Coupled C (blockHash h) (blockHash h') := by
  refine .bind (.of_pays fun _ => .top1) fun w => ?_
  dsimp only
  rw [hh.environment]
  split
  · exact .bind (.ask (hh.blockHash _)) fun found => .of_pays fun _ => .setTop
  · exact .of_pays fun _ => .setTop

theorem codeSize_coupled (hh : Host.Coupled C h h') :
    Exec.Coupled C (inspect h.code Price.codeSize fun code => .ofNat code.size)
      (inspect h'.code Price.codeSize fun code => .ofNat code.size) :=
  inspect_coupled _ _ hh.code

theorem codeHash_coupled (hh : Host.Coupled C h h') :
    Exec.Coupled C (codeHash h) (codeHash h') :=
  .bind (.of_pays fun _ => .since) fun _ => inspect_coupled _ _ hh.codeHash

theorem extCodeCopy_coupled (hh : Host.Coupled C h h') :
    Exec.Coupled C (extCodeCopy h) (extCodeCopy h') := by
  refine .bind (.of_pays fun _ => .pop4) fun ⟨account, memOffset, codeOffset, len⟩ => ?_
  refine .bind (.ask (hh.code _)) fun found => ?_
  refine .bind (.of_pays fun _ => .rules) fun r => ?_
  refine .of_pays fun _ => copyData_pays fun len cost hcost => ?_
  have hbase := Price.le_codeSize r found.cold
  have hle := Price.le_copy hcost
  omega

theorem slotLoad_coupled (hh : Host.Coupled C h h') :
    Exec.Coupled C (slotLoad h) (slotLoad h') := by
  refine .bind (.of_pays fun _ => .top1) fun key => ?_
  refine .bind (.of_pays fun _ => .get) fun f => ?_
  refine .bind (.ask (hh.readSlot _ _)) fun found => ?_
  refine .bind (.of_pays fun _ => .rules) fun r => ?_
  exact .bind (.of_pays fun _ => .charge) fun _ => .of_pays fun _ => .setTop

theorem slotStore_coupled (hh : Host.Coupled C h h') :
    Exec.Coupled C (slotStore h) (slotStore h') := by
  refine .bind (.of_pays fun _ => .mayWrite) fun _ => ?_
  refine .bind (.of_pays fun _ => .pop2) fun ⟨key, value⟩ => ?_
  refine .bind (.of_pays fun _ => sentry_pays) fun _ => ?_
  refine .bind (.of_pays fun _ => .get) fun f => ?_
  refine .bind (.ask (hh.writeSlot _ _ _)) fun change => ?_
  refine .bind (.of_pays fun _ => .rules) fun r => ?_
  exact .bind (.of_pays fun _ => .charge) fun _ => refund_coupled hh _

theorem logTopics_coupled (hh : Host.Coupled C h h') (topics : Nat) (data : Bytes) :
    Exec.Coupled C (logTopics h topics data) (logTopics h' topics data) := by
  refine .bind (.of_pays fun _ => .pop) fun words => ?_
  refine .bind (.of_pays fun _ => .get) fun f => ?_
  exact fun g w v hw => .goes () rfl (hh.log _ hw)

theorem log_coupled (hh : Host.Coupled C h h') (topics : Nat) :
    Exec.Coupled C (log h topics) (log h' topics) := by
  refine .bind (.of_pays fun _ => .mayWrite) fun _ => ?_
  refine .bind (.of_pays fun _ => .pop2) fun ⟨offset, w⟩ => ?_
  refine .bind (.of_pays fun _ => .amount) fun len => ?_
  refine .bind (.of_pays fun _ => .pay fun cost _ => Nat.zero_le cost) fun _ => ?_
  split
  · exact logTopics_coupled hh topics _
  · rename_i hlen
    exact .bind (.of_pays fun _ => .copyOut hlen) fun data => logTopics_coupled hh topics data

theorem endDestruct_coupled (cost : Nat) : Exec.Coupled C (endDestruct cost) (endDestruct cost) :=
  .bind (.of_pays fun _ => .charge) fun _ => .here (.halt Status.noConfusion)

theorem selfDestruct_coupled (hh : Host.Coupled C h h') :
    Exec.Coupled C (selfDestruct h) (selfDestruct h') := by
  refine .bind (.of_pays fun _ => .mayWrite) fun _ => ?_
  refine .bind (.of_pays fun _ => .pop1) fun beneficiary => ?_
  refine .bind (.of_pays fun _ => .get) fun f => ?_
  refine .bind (.ask (hh.selfDestruct _ _)) fun found => ?_
  refine .bind (.of_pays fun _ => .rules) fun r => ?_
  split
  · exact .bind (refund_coupled hh _) fun _ => endDestruct_coupled _
  · exact endDestruct_coupled _

theorem callWith_coupled (hh : Host.Coupled C h h') (codeAddress : Address) (requested : Word)
    (withValue mayCreate : Bool) (request : Bytes → Nat → CallRequest) :
    Exec.Coupled C (callWith h codeAddress requested withValue mayCreate request)
      (callWith h' codeAddress requested withValue mayCreate request) := by
  refine .bind (.of_pays fun _ => exchange_pays) fun ⟨input, into⟩ => ?_
  refine .bind (.ask (hh.existence _)) fun found => ?_
  exact .bind (.of_pays fun _ => forward_pays _ _ _) fun given => .pure

theorem call_coupled (hh : Host.Coupled C h h') : Exec.Coupled C (call h) (call h') := by
  refine .bind (.of_pays fun _ => .pop3) fun ⟨requested, callee, value⟩ => ?_
  refine .bind (.of_pays fun _ => .get) fun f => ?_
  exact .bind (.of_pays fun _ => .ensure rfl) fun _ => callWith_coupled hh _ _ _ _ _

theorem callCode_coupled (hh : Host.Coupled C h h') :
    Exec.Coupled C (callCode h) (callCode h') := by
  refine .bind (.of_pays fun _ => .pop3) fun ⟨requested, callee, value⟩ => ?_
  exact .bind (.of_pays fun _ => .get) fun f => callWith_coupled hh _ _ _ _ _

theorem delegateCall_coupled (hh : Host.Coupled C h h') :
    Exec.Coupled C (delegateCall h) (delegateCall h') := by
  refine .bind (.of_pays fun _ => .since) fun _ => ?_
  refine .bind (.of_pays fun _ => .pop2) fun ⟨requested, callee⟩ => ?_
  exact .bind (.of_pays fun _ => .get) fun f => callWith_coupled hh _ _ _ _ _

theorem staticCall_coupled (hh : Host.Coupled C h h') :
    Exec.Coupled C (staticCall h) (staticCall h') := by
  refine .bind (.of_pays fun _ => .since) fun _ => ?_
  refine .bind (.of_pays fun _ => .pop2) fun ⟨requested, callee⟩ => ?_
  exact .bind (.of_pays fun _ => .get) fun f => callWith_coupled hh _ _ _ _ _

/-- A nested frame is served, and the frame that asked for it ends because the host has failed
exactly if the nested one did. -/
theorem reply_coupled {x : Nested σ α} {y : Nested τ α} {status : α → Status}
    {take : α → Local Unit} (hxy : Nested.Coupled C status x y)
    (ordinary : ∀ a, status a ≠ .hostFailure → (take a).Ordinary)
    (failing : ∀ a f, status a = .hostFailure →
      ∃ g, take a f = .error (.status .hostFailure) g) :
    Exec.Coupled C (do here (take (← nested x))) (do here (take (← nested y))) := by
  intro f w v hw
  have h := hxy w v hw
  simp only [Bind.bind, EStateM.bind, nested]
  generalize x w = r, y v = r' at h ⊢
  cases h with
  | @ok p q related =>
    obtain ⟨a, w'⟩ := p
    obtain ⟨b, v'⟩ := q
    obtain ⟨rfl, after⟩ := related
    by_cases hstatus : status a = .hostFailure
    · obtain ⟨g, hg⟩ := failing a f hstatus
      rw [hstatus] at after
      simp only [here, hg]
      exact .ends .hostFailure g after
    · rw [C.after_of_ne hstatus] at after
      exact Exec.Coupled.here (ordinary a hstatus) f w' v' after
  | error e => exact .faults e _ _

theorem takeCallReply_ordinary {reply : CallReply} (into : Span)
    (hr : reply.status ≠ .hostFailure) : (Local.takeCallReply reply into).Ordinary := by
  refine .bind (Local.Ordinary.modify fun _ => rfl) fun _ => ?_
  split
  · exact .bind (.giveBack _) fun _ =>
      .bind (.onMemory _) fun _ => .push _
  · exact .push _

theorem takeCreateReply_ordinary {reply : CreateReply} (hr : reply.status ≠ .hostFailure) :
    (Local.takeCreateReply reply).Ordinary := by
  refine .bind (Local.Ordinary.modify fun _ => rfl) fun _ => ?_
  split
  · refine .bind (.giveBack _) fun _ => ?_
    split
    · exact .push _
    · exact .push _
  split
  · exact .bind (.giveBack _) fun _ => .push _
  · exact .push _

theorem serve_coupled (hh : Host.Coupled C h h') (r : Request) :
    Exec.Coupled C (serve h r) (serve h' r) := by
  cases r with
  | call r into =>
    refine reply_coupled (hh.call r) (fun reply => takeCallReply_ordinary into) ?_
    rintro ⟨_, gas, output⟩ f rfl
    exact ⟨_, rfl⟩
  | create r =>
    refine reply_coupled (hh.create r) (fun reply => takeCreateReply_ordinary) ?_
    rintro ⟨_, address, gas, output⟩ f rfl
    exact ⟨_, rfl⟩

theorem nest_coupled (hh : Host.Coupled C h h') {x : Exec σ Request} {y : Exec τ Request}
    (hxy : Exec.Coupled C x y) : Exec.Coupled C (nest h x) (nest h' y) :=
  .bind hxy (serve_coupled hh)

theorem position_ordinary : position.Ordinary := by
  refine .bind (.of_pays fun _ => .get) fun f => ?_
  exact .bind .checked fun pos => .push _

theorem pushBytes_ordinary (n : Nat) : (pushBytes n).Ordinary := by
  refine .bind (.of_pays fun _ => .get) fun f => .bind .checked fun data => ?_
  refine .bind (.of_pays fun _ => .onStack fun s hs => Stack.pushBytes_error hs) fun _ => ?_
  exact .modify fun _ => rfl

end Instruction

open Instruction in
theorem Opcode.run_coupled {h : Host σ} {h' : Host τ} (hh : Host.Coupled C h h') (op : Opcode) :
    Exec.Coupled C (op.run h) (op.run h') := by
  cases op with
  | stop | invalid => exact .here (.halt Status.noConfusion)
  | add | mul | sub | div | signedDiv | mod | signedMod | signExtend | lt | gt | signedLt
  | signedGt | eq | bitAnd | bitOr | bitXor | byteAt => exact .of_pays fun _ => binary_pays _
  | addMod | mulMod => exact .of_pays fun _ => ternary_pays _
  | isZero | bitNot => exact .of_pays fun _ => unary_pays _
  | shiftLeft | shiftRight | signedShiftRight => exact .of_pays fun _ => binarySince_pays _ _
  | exp => exact .of_pays fun _ => exp_pays
  | keccak => exact .of_pays fun _ => keccak_pays
  | address | caller | callValue | callDataSize | codeSize | memSize | gas =>
    exact .of_pays fun _ => observe_pays _
  | origin | gasPrice | coinbase | timestamp | number | gasLimit =>
    simp only [Opcode.run, hh.environment]
    exact .of_pays fun _ => .push
  | difficulty =>
    simp only [Opcode.run, hh.environment]
    exact .of_pays fun _ => difficulty_pays _
  | chainId | baseFee =>
    simp only [Opcode.run, hh.environment]
    exact .of_pays fun _ => observeHaving_pays _ _
  | callDataLoad => exact .of_pays fun _ => callDataLoad_pays
  | callDataCopy | codeCopy => exact .of_pays fun _ => copyLow_pays _
  | returnDataSize => exact .of_pays fun _ => returnDataSize_pays
  | returnDataCopy => exact .of_pays fun _ => returnDataCopy_pays
  | balance => exact inspect_coupled Price.balance id hh.balance
  | extCodeSize => exact codeSize_coupled hh
  | extCodeCopy => exact extCodeCopy_coupled hh
  | extCodeHash => exact codeHash_coupled hh
  | blockHash => exact blockHash_coupled hh
  | selfBalance => exact selfBalance_coupled hh
  | pop => exact .of_pays fun _ => discard_pays
  | memLoad => exact .of_pays fun _ => memLoad_pays
  | memStore => exact .of_pays fun _ => memStore_pays
  | memStoreByte => exact .of_pays fun _ => memStoreByte_pays
  | slotLoad => exact slotLoad_coupled hh
  | slotStore => exact slotStore_coupled hh
  | jump => exact .of_pays fun _ => jump_pays
  | jumpIf => exact .of_pays fun _ => jumpIf_pays
  | pc => exact .here position_ordinary
  | jumpDest => exact .pure
  | pushZero => exact .of_pays fun _ => pushZero_pays
  | push n => exact .here (pushBytes_ordinary _)
  | dup n => exact .of_pays fun _ => .onStack fun _ he => Stack.dup_error he
  | swap n => exact .of_pays fun _ => .onStack fun _ he => Stack.swap_error he
  | log n => exact log_coupled hh _
  | ret => exact .of_pays fun _ => finish_pays (n := 0) rfl
  | revert => exact .of_pays fun _ => revert_pays (n := 0)
  | selfDestruct => exact selfDestruct_coupled hh
  | create | create2 => exact nest_coupled hh (.of_pays fun _ => create_pays _)
  | call => exact nest_coupled hh (call_coupled hh)
  | callCode => exact nest_coupled hh (callCode_coupled hh)
  | delegateCall => exact nest_coupled hh (delegateCall_coupled hh)
  | staticCall => exact nest_coupled hh (staticCall_coupled hh)

open Instruction in
/-- The opcode asks both hosts for a nested frame, or neither. -/
theorem Opcode.request?_coupled {h : Host σ} {h' : Host τ} (hh : Host.Coupled C h h')
    (op : Opcode) : Option.Rel (Exec.Coupled C) (op.request? h) (op.request? h') := by
  cases op with
  | create | create2 => exact .some (.of_pays fun _ => create_pays _)
  | call => exact .some (call_coupled hh)
  | callCode => exact .some (callCode_coupled hh)
  | delegateCall => exact .some (delegateCall_coupled hh)
  | staticCall => exact .some (staticCall_coupled hh)
  | _ => exact .none

namespace Machine

variable {h : Host σ} {h' : Host τ}

structure Coupled (C : Coupling σ τ) (s : Machine σ) (t : Machine τ) : Prop where
  frame : t.frame = s.frame
  world : C.after s.frame.status s.world t.world

theorem execute_coupled (hh : Host.Coupled C h h') (op? : Option Opcode) :
    Exec.Coupled C (execute h op?) (execute h' op?) := by
  cases op? with
  | none => exact .here (.halt Status.noConfusion)
  | some op => exact .charged op.info.gas (Opcode.run_coupled hh op)

theorem settle_coupled {x : Exec σ Unit} {y : Exec τ Unit} {s : Machine σ} {t : Machine τ}
    (h : Exec.Alike C .running (x s) (y t)) : Agree (Coupled C) (s.settle x) (t.settle y) := by
  simp only [settle]
  generalize x s = r, y t = r' at h ⊢
  cases h with
  | goes a status serving =>
    refine .ok ⟨rfl, ?_⟩
    rw [C.after_of_ne (by rw [status]; exact Status.noConfusion)]
    exact serving
  | ends e f after => exact .ok ⟨rfl, after⟩
  | faults e s t => exact .error e

theorem step_coupled (hh : Host.Coupled C h h') {s : Machine σ} {t : Machine τ}
    (running : s.frame.status = .running) (hst : s.Coupled C t) :
    Agree (Coupled C) (s.step h) (t.step h') := by
  obtain ⟨f, w⟩ := s
  obtain ⟨g, v⟩ := t
  obtain ⟨hframe, hw⟩ := hst
  dsimp only at hframe running
  subst g
  rw [C.after_of_ne (by rw [running]; exact Status.noConfusion)] at hw
  have hexecute := execute_coupled hh (Opcode.ofByte? f.nextByte) { f with pc := f.pc + 1 } w v hw
  rw [step_eq, step_eq]
  apply settle_coupled
  rw [← running]
  exact hexecute

/-- What a frame asks the one host for, it asks the other one for. -/
theorem Asking.left (hh : Host.Coupled C h h') {f : Frame} {w : σ} {v : τ} (hw : C.serving w v)
    {r : Request} {m : Machine σ} (asking : Asking h ⟨f, w⟩ r m) :
    ∃ n : Machine τ, Asking h' ⟨f, v⟩ r n ∧ n.frame = m.frame ∧ C.serving m.world n.world := by
  obtain ⟨op, x, hbyte, hop, hx⟩ := asking
  have hrequest := Opcode.request?_coupled hh op
  rw [hop] at hrequest
  generalize hop' : op.request? h' = y? at hrequest
  cases hrequest with
  | @some _ y hxy =>
    obtain ⟨n, hy, hn⟩ := (Exec.Coupled.charged op.info.gas hxy).ok_left hw hx
    exact ⟨n, ⟨op, y, hbyte, hop', hy⟩, hn⟩

theorem Asking.right (hh : Host.Coupled C h h') {f : Frame} {w : σ} {v : τ} (hw : C.serving w v)
    {r : Request} {n : Machine τ} (asking : Asking h' ⟨f, v⟩ r n) :
    ∃ m : Machine σ, Asking h ⟨f, w⟩ r m ∧ n.frame = m.frame ∧ C.serving m.world n.world := by
  obtain ⟨op, y, hbyte, hop, hy⟩ := asking
  have hrequest := Opcode.request?_coupled hh op
  rw [hop] at hrequest
  generalize hop' : op.request? h = x? at hrequest
  cases hrequest with
  | @some x _ hxy =>
    obtain ⟨m, hx, hm⟩ := (Exec.Coupled.charged op.info.gas hxy).ok_right hw hy
    exact ⟨m, ⟨op, x, hbyte, hop', hx⟩, hm⟩

theorem runFor_coupled (hh : Host.Coupled C h h') (n : Nat) {s : Machine σ} {t : Machine τ}
    (hst : s.Coupled C t) : Agree (Coupled C) (s.runFor h n) (t.runFor h' n) := by
  induction n generalizing s t with
  | zero => exact .ok hst
  | succ n ih =>
    by_cases running : s.frame.status = .running
    · have hstep := step_coupled hh running hst
      rw [runFor_succ running, runFor_succ (hst.frame ▸ running)]
      generalize s.step h = r, t.step h' = r' at hstep ⊢
      cases hstep with
      | ok related => exact ih related
      | error e => exact .error e
    · rw [runFor_ended running, runFor_ended (hst.frame ▸ running)]
      exact .ok hst

theorem Coupled.punish {s : Machine σ} {t : Machine τ} (hst : s.Coupled C t) :
    s.punish.Coupled C t.punish := by
  have hframe : t.punish.frame = s.punish.frame := by
    simp only [Machine.punish, hst.frame]
    split <;> simp only [hst.frame]
  refine ⟨hframe, ?_⟩
  rw [status_punish, world_punish, world_punish]
  exact hst.world

theorem run_coupled (hh : Host.Coupled C h h') {s : Machine σ} {t : Machine τ}
    (hst : s.Coupled C t) : Agree (Coupled C) (s.run h) (t.run h') := by
  have hruns := runFor_coupled hh (s.frame.gas.remaining + 1) hst
  simp only [run, hst.frame]
  generalize s.runFor h _ = r, t.runFor h' _ = r' at hruns ⊢
  cases hruns with
  | ok related => exact .ok related.punish
  | error e => exact .error e

end Machine

end MeteredVM
