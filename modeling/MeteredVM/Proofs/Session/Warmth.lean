import MeteredVM.Proofs.Session.Shadow

namespace MeteredVM

open Journal Executor Relation

namespace Tracked

variable {ε α β : Type} {x : Executor} {base : Finset AccessKey} {j : Journal} {t u : Tracked}

theorem noting_exact (ht : t.Exact base j) (event : Nat → FrameEvent) :
    (t.noting event).Exact base j :=
  ht.rests (.refl _)

theorem step_coupled (hp : x.transfers.Calm) (room : Nat) {f : Frame}
    (running : f.status = .running) (ht : t.Exact base j) :
    Agree (Machine.Coupled (tracks base j))
      (Machine.step (x.host (x.hostWithin room)) ⟨f, t.session⟩)
      (Machine.step (host x (hostWithin x room)) ⟨f, t⟩) := by
  refine Machine.step_coupled (host_coupled hp room) running ⟨rfl, ?_⟩
  rw [after_tracks]
  exact ⟨rfl, ht⟩

theorem next_left (hp : x.transfers.Calm) {p : Point} {d : Scene} (ht : p.tracked.Exact base j)
    (h : x.Next p.scene d) : ∃ q, Next x p q ∧ q.scene = d := by
  obtain ⟨room, activity, t⟩ := p
  replace ht : t.Exact base j := ht
  cases h with
  | loadCode loaded =>
    obtain ⟨code, u, hu, rfl, rfl, -⟩ := (query_mirrors (loadCode_coupled _) ht).left loaded
    exact ⟨_, .loadCode hu, rfl⟩
  | payCall opened =>
    obtain ⟨mark, u, hu, rfl, -⟩ := (checkpoint_shadows (noting_exact ht _)).left opened
    exact ⟨_, .payCall hu, rfl⟩
  | openCall opened nonempty =>
    obtain ⟨o, u, hu, rfl, ho⟩ := (openCall_shadows hp (noting_exact ht _)).left opened
    cases ho with
    | ok related => exact ⟨_, .openCall hu nonempty, rfl⟩
  | payCreate opened =>
    obtain ⟨⟨address, mark⟩, u, hu, rfl, -⟩ := (openCreate_mirrors (noting_exact ht _)).left opened
    exact ⟨_, .payCreate hu, rfl⟩
  | openCreate opened =>
    obtain ⟨o, u, hu, rfl, ho⟩ := (endowCreate_shadows hp (noting_exact ht _)).left opened
    cases ho with
    | @ok _ q related =>
      obtain ⟨address, mark⟩ := q
      obtain ⟨rfl, -⟩ := related
      exact ⟨_, .openCreate hu, rfl⟩
  | step running stepped =>
    have hboth := step_coupled hp room running ht
    rw [stepped] at hboth
    generalize hn : Machine.step (host x (hostWithin x room)) _ = r at hboth
    cases hboth with
    | ok related =>
      obtain ⟨hframe, hworld⟩ := related
      rw [after_tracks] at hworld
      refine ⟨_, .step running hn, ?_⟩
      simp only [Point.scene, hframe, hworld.1]
  | nest running asking =>
    obtain ⟨n, hn, -, hworld, -⟩ := asking.left (host_coupled hp room) ⟨rfl, ht⟩
    refine ⟨_, .nest running hn, ?_⟩
    simp only [Point.scene, hworld]

theorem next_right (hp : x.transfers.Calm) {p q : Point} (ht : p.tracked.Exact base j)
    (h : Next x p q) : x.Next p.scene q.scene ∧ q.tracked.Exact base j := by
  cases h with
  | loadCode loaded =>
    obtain ⟨code, hs, rfl, hu⟩ := (query_mirrors (loadCode_coupled _) ht).right loaded
    exact ⟨.loadCode hs, hu⟩
  | payCall opened =>
    obtain ⟨mark, hs, hu⟩ := (checkpoint_shadows (noting_exact ht _)).right opened
    exact ⟨.payCall hs, hu.exact⟩
  | openCall opened nonempty =>
    obtain ⟨o, hs, ho⟩ := (openCall_shadows hp (noting_exact ht _)).right opened
    cases ho with
    | ok related => exact ⟨.openCall hs nonempty, related.exact⟩
  | payCreate opened =>
    obtain ⟨⟨address, mark⟩, hs, -, hu⟩ := (openCreate_mirrors (noting_exact ht _)).right opened
    exact ⟨.payCreate hs, hu.exact.mono (Finset.subset_insert _ _)⟩
  | openCreate opened =>
    obtain ⟨o, hs, ho⟩ := (endowCreate_shadows hp (noting_exact ht _)).right opened
    cases ho with
    | @ok q _ related =>
      obtain ⟨address, mark⟩ := q
      obtain ⟨rfl, hu⟩ := related
      exact ⟨.openCreate hs, hu.exact.mono (Finset.subset_insert _ _)⟩
  | @step room f t n running stepped =>
    have hboth := step_coupled hp room running ht
    rw [stepped] at hboth
    generalize hm : Machine.step (x.host (x.hostWithin room)) _ = r at hboth
    cases hboth with
    | ok related =>
      obtain ⟨hframe, hworld⟩ := related
      rw [after_tracks] at hworld
      obtain ⟨hworld, hu⟩ := hworld
      refine ⟨?_, hu⟩
      simp only [Point.scene, hframe, hworld]
      exact .step running hm
  | nest running asking =>
    obtain ⟨m, hm, hframe, hworld, hu⟩ := asking.right (host_coupled hp _) ⟨rfl, ht⟩
    refine ⟨?_, hu⟩
    simp only [Point.scene, hworld]
    exact .nest running hm

/-- A load of the state calls a key cold exactly if the set does not have it. -/
def Tells (t : Tracked) (y : Loading α) (cold : α → Bool) (key : AccessKey) : Prop :=
  ∀ a k, y t.session.journal = .ok a k → (cold a = true ↔ key ∉ t.accessed)

structure Reports (db : Database) (t : Tracked) : Prop where
  account (a : Address) : t.Tells (loadAccount db a) Loaded.cold (.account a)
  existence (a : Address) : t.Tells (loadExistence db a) Existence.cold (.account a)
  code (a : Address) : t.Tells (Journal.loadCode db a) Loaded.cold (.account a)
  readSlot (a : Address) (key : Word) : t.Tells (readSlot db a key) Loaded.cold (.slot a key)
  writeSlot (a : Address) (key new : Word) :
    t.Tells (writeSlot db a key new) Loaded.cold (.slot a key)
  selfDestruct (a target : Address) :
    t.Tells (selfDestruct db a target) Loaded.cold (.account target)

theorem Exact.tells (ht : t.Exact base j) {keys : List AccessKey} {key : AccessKey} {y : Loading α}
    {cold : α → Bool} (hy : Accesses y keys key cold t.session.journal) : t.Tells y cold key := by
  intro a k hrun
  rw [(hy.ok hrun).2, ← ht.exact]
  simp

theorem Exact.reports (ht : t.Exact base j) (db : Database) : t.Reports db where
  account a := ht.tells (loadAccount_accesses db a _)
  existence a := ht.tells (loadExistence_accesses db a _)
  code a := ht.tells (loadCode_accesses db a _)
  readSlot a key := ht.tells (readSlot_accesses db a _ key)
  writeSlot a key new := ht.tells (writeSlot_accesses db a _ key new)
  selfDestruct a target := ht.tells (selfDestruct_accesses db a _ target)

theorem loadAll_warms (db : Database) (accounts : List Address) (j : Journal) :
    Ends (loadAll db accounts) j (fun _ _ => True) fun _ k =>
      Warms (accounts.map .account) j k := by
  induction accounts generalizing j with
  | nil => exact .pure (.refl j)
  | cons a rest ih =>
    refine Ends.bind ((loadAccount_accesses db a j).refused fun _ _ _ => trivial) ?_
    rintro found k ⟨hk, -⟩
    apply (ih k).imp
    intro _ l hl
    exact hk.trans hl

theorem mem_initial {task : Task} {key : AccessKey} :
    key ∈ initial x task ↔ key ∈ (x.warm (x.targetOf task)).map .account := by
  simp only [initial, warm]
  cases x.targetOf task <;> cases x.rules.has .eip3651 <;> simp

def start (x : Executor) (task : Task) (c : Scene) : Point :=
  ⟨c.room, c.activity, c.session, initial x task⟩

theorem start_exact {task : Task} {gasLimit : Nat} {c : Scene} (h : x.Starts task gasLimit c) :
    (start x task c).tracked.Exact (initial x task) c.session.journal := by
  obtain ⟨k, hk, rfl⟩ := h
  have hwarms := (loadAll_warms x.database _ (.ofHardfork x.rules.hardfork)).ok hk
  refine ⟨fun key => ?_, Finset.Subset.refl _, .refl _⟩
  have hnone : (ofHardfork x.rules.hardfork).isWarm key = false := by
    cases key with
    | account a => simp [isWarm, ofHardfork]
    | slot a key => simp [isWarm, slot?, Facet.see_ofHardfork, slotIn]
  simp only [start, mem_initial]
  rw [hwarms.warm, hnone]
  simp

/-- What is warm at a point of a transaction that began with `base`. -/
structure Point.Faithful (x : Executor) (base : Finset AccessKey) (p : Point) : Prop where
  /-- The loaded accounts and slots are those of the set. -/
  exact (key : AccessKey) : p.tracked.session.journal.isWarm key = true ↔ key ∈ p.tracked.accessed
  /-- What was warm from the start has not become cold. -/
  base : base ⊆ p.tracked.accessed
  reports : p.tracked.Reports x.database
  /-- What the next frame leaves, if one is about to be opened. -/
  leaves : Agree
    (fun s t => t.session = s ∧ ∀ key, s.journal.isWarm key = true ↔ key ∈ t.accessed)
    (x.leaves p.scene) (leaves x p)
  /-- The account of a creation is warm after it, also if it has failed. -/
  created {r : CreateRequest} {reply : CreateReply} {s : Session} {a : Address}
    (creates : p.activity = .create r)
    (ran : x.create (x.hostWithin p.room) r p.tracked.session = .ok (reply, s))
    (address : reply.address = some a) (answered : s.failure = none) :
    s.journal.isWarm (.account a) = true

theorem Shadows.left_behind {y : Nested Session α} {y' : Nested Tracked α}
    (h : Shadows y y' t fun _ _ u => u.Exact base j) :
    Agree (fun s t => t.session = s ∧ ∀ key, s.journal.isWarm key = true ↔ key ∈ t.accessed)
      ((y t.session).map Prod.snd) ((y' t).map Prod.snd) := by
  simp only [Shadows] at h
  generalize y t.session = r, y' t = r' at h ⊢
  cases h with
  | ok related =>
    obtain ⟨hsession, hu⟩ := related
    refine .ok ⟨hsession, fun key => ?_⟩
    rw [← hsession]
    exact hu.exact key
  | error e => exact .error e

theorem Exact.faithful (hcalm : x.transfers.Calm) {p : Point} (hp : p.tracked.Exact base j) :
    p.Faithful x base where
  exact := hp.exact
  base := hp.base
  reports := hp.reports x.database
  leaves := by
    obtain ⟨room, activity, t⟩ := p
    have inner := hostWithin_paired hcalm room
    cases activity with
    | call r => exact ((call_shadows hcalm inner hp).imp fun _ _ _ h => h.2).left_behind
    | callCode r code =>
      exact ((callCode_shadows hcalm inner code hp).imp fun _ _ _ h => h.2).left_behind
    | create r => exact ((create_shadows hcalm inner hp).imp fun _ _ _ h => h.2.1).left_behind
    | payment | step f => exact .ok ⟨rfl, hp.exact⟩
  created {r reply s a} creates ran address answered := by
    obtain ⟨_, u, -, rfl, rfl, hexact, hkeeps⟩ :=
      (create_shadows hcalm (hostWithin_paired hcalm p.room) hp).left ran
    exact (hexact.exact _).mpr (hkeeps answered a address)

/-- Keep the access set of the live frames, which begins with caller, origin, target and coinbase,
grows with every access and is restored when a frame fails. Then a transaction goes through the same
points whether or not accesses are called cold by this set. At each of them the loaded accounts and
slots are those of the set, what was in it at first still is, every access says exactly whether its
key is not in it, and the account of a creation is in it afterwards, failed or not. -/
theorem warm_is_accessed (hp : x.transfers.Calm) {task : Task} {gasLimit : Nat} {c : Scene}
    (starts : x.Starts task gasLimit c) :
    (∀ d, x.Reaches c d ↔ ∃ p, Reaches x (start x task c) p ∧ p.scene = d) ∧
      ∀ p, Reaches x (start x task c) p → p.Faithful x (initial x task) := by
  have hstart := start_exact starts
  have exact : ∀ p, Reaches x (start x task c) p →
      p.tracked.Exact (initial x task) c.session.journal := by
    intro p h
    induction h with
    | refl => exact hstart
    | tail _ hnext ih => exact (next_right hp ih hnext).2
  refine ⟨fun d => ⟨fun h => ?_, ?_⟩, fun p h => (exact p h).faithful hp⟩
  · induction h with
    | refl => exact ⟨start x task c, .refl, rfl⟩
    | tail _ hnext ih =>
      obtain ⟨p, h, rfl⟩ := ih
      obtain ⟨q, hq, rfl⟩ := next_left hp (exact p h) hnext
      exact ⟨q, h.tail hq, rfl⟩
  · rintro ⟨p, h, rfl⟩
    induction h with
    | refl => exact .refl
    | tail h hnext ih => exact ih.tail (next_right hp (exact _ h) hnext).1

/-- Init code that fails at once, where it runs. -/
def failing : Bytes := ⟨#[0xfe]⟩

def london : Executor := ⟨{}, .ofHardfork .london, .empty, .balances⟩

/-- The account that it is to create was cold at first, and is warm after it has failed. -/
theorem warm_is_accessed_failing :
    ∃ c r reply s a, london.transfers.Calm ∧ london.Starts (.create failing) 100000 c ∧
      (start london (.create failing) c).Faithful london (initial london (.create failing)) ∧
      c.activity = .create r ∧
      london.create (london.hostWithin c.room) r c.session = .ok (reply, s) ∧
      reply.status.isOk = false ∧ reply.address = some a ∧
      c.session.journal.isWarm (.account a) = false ∧ s.journal.isWarm (.account a) = true := by
  let j := leftBy (loadAll london.database (london.warm none)) (.ofHardfork .london)
  let r : CreateRequest :=
    ⟨london.environment.tx.caller, none, london.environment.tx.value, failing, 100000⟩
  let c : Scene := ⟨maxFrames, .create r, { journal := j }⟩
  have hcalm : london.transfers.Calm := TransferPolicy.calm_of_known (.inl rfl)
  have starts : london.Starts (.create failing) 100000 c := ⟨j, rfl, rfl⟩
  have hfaithful := (warm_is_accessed hcalm starts).2 _ .refl
  have hrun : (london.create (london.hostWithin maxFrames) r c.session).map (fun p =>
      (p.1.status.isOk, p.1.address.map fun a => j.isWarm (.account a), p.2.failure)) =
      .ok (false, some false, none) := by
    decide +kernel
  obtain ⟨⟨reply, s⟩, hrun, hends⟩ := Except.map_eq_ok hrun
  simp only [Prod.mk.injEq] at hends
  obtain ⟨hstatus, haddress, hfailure⟩ := hends
  obtain ⟨a, ha, hcold⟩ := Option.map_eq_some_iff.mp haddress
  exact ⟨c, r, reply, s, a, hcalm, starts, hfaithful, rfl, hrun, hstatus, ha, hcold,
    hfaithful.created rfl hrun ha hfailure⟩

end Tracked

end MeteredVM
