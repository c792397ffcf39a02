import MeteredVM.Proofs.Frame.Coupling
import MeteredVM.Proofs.Session.Stipend
import MeteredVM.Proofs.Session.Tracked

namespace MeteredVM

open Journal Executor

namespace Tracked

variable {ε α β : Type}

/-- The set is that of the loaded accounts and slots, `base` among them, and what has happened since
`j` can be undone. -/
structure Exact (base : Finset AccessKey) (j : Journal) (t : Tracked) : Prop where
  exact (key : AccessKey) : t.session.journal.isWarm key = true ↔ key ∈ t.accessed
  base : base ⊆ t.accessed
  retains : Facet.slots.Retains j t.session.journal

namespace Exact

variable {base : Finset AccessKey} {j : Journal} {t u : Tracked} {s : Session}

theorem warms (h : t.Exact base j) {keys : List AccessKey}
    (hs : Warms keys t.session.journal s.journal) :
    Exact base j ⟨s, t.accessed ∪ keys.toFinset⟩ where
  exact key := by
    rw [hs.warm, h.exact, Finset.mem_union, List.mem_toFinset]
    exact or_comm
  base := h.base.trans Finset.subset_union_left
  retains := h.retains.trans hs.retains

theorem rests (h : t.Exact base j) (hs : Facet.slots.Rests t.session.journal s.journal) :
    Exact base j { t with session := s } := by
  have hwarms := h.warms (.of_rests hs)
  rwa [List.toFinset_nil, Finset.union_empty] at hwarms

theorem mono (h : t.Exact base j) {base' : Finset AccessKey} (hb : base' ⊆ base) :
    t.Exact base' j := ⟨h.exact, hb.trans h.base, h.retains⟩

theorem cold (h : t.Exact base j) (key : AccessKey) :
    decide (key ∉ t.accessed) = !t.session.journal.isWarm key := by
  rw [Bool.eq_iff_iff, decide_eq_true_iff, ← h.exact]
  simp

end Exact

/-- What a frame that is opened at a mark has made of the session since. -/
def Live (base : Finset AccessKey) (j : Journal) (c : Checkpoint) (mark : Mark) (t : Tracked) :
    Prop :=
  ∃ u : Tracked, u.Exact base j ∧ c = u.session.journal.mark ∧ mark = ⟨c, u.accessed⟩ ∧
    t.Exact base u.session.journal.deeper

inductive Mirrored (E : ε → Tracked → Prop) (Q : α → β → Tracked → Prop) :
    EStateM.Result ε Session α → EStateM.Result ε Tracked β → Prop
  | ok {a : α} {b : β} {t : Tracked} (related : Q a b t) : Mirrored E Q (.ok a t.session) (.ok b t)
  | error {e : ε} {t : Tracked} (refused : E e t) : Mirrored E Q (.error e t.session) (.error e t)

def Mirrors (x : EStateM ε Session α) (y : EStateM ε Tracked β) (t : Tracked)
    (E : ε → Tracked → Prop) (Q : α → β → Tracked → Prop) : Prop :=
  Mirrored E Q (x t.session) (y t)

def Shadows (x : Nested Session α) (y : Nested Tracked β) (t : Tracked)
    (Q : α → β → Tracked → Prop) : Prop :=
  Agree (fun p q => q.2.session = p.2 ∧ Q p.1 q.1 q.2) (x t.session) (y t)

inductive Likewise (E : ε → Prop) (Q : α → β → Prop) : Except ε α → Except ε β → Prop
  | ok {a : α} {b : β} (related : Q a b) : Likewise E Q (.ok a) (.ok b)
  | error {e : ε} (refused : E e) : Likewise E Q (.error e) (.error e)

section Rules

variable {γ δ : Type} {t : Tracked}

theorem Mirrors.bind {x : EStateM ε Session α} {y : EStateM ε Tracked β} {E : ε → Tracked → Prop}
    {Q : α → β → Tracked → Prop} {k : α → EStateM ε Session γ} {l : β → EStateM ε Tracked δ}
    {R : γ → δ → Tracked → Prop} (h : Mirrors x y t E Q)
    (hk : ∀ a b u, Q a b u → Mirrors (k a) (l b) u E R) : Mirrors (x >>= k) (y >>= l) t E R := by
  simp only [Mirrors, Bind.bind, EStateM.bind] at h ⊢
  generalize x t.session = r, y t = r' at h ⊢
  cases h with
  | ok related => exact hk _ _ _ related
  | error refused => exact .error refused

theorem Mirrors.refused {x : EStateM ε Session α} {y : EStateM ε Tracked β}
    {E F : ε → Tracked → Prop} {Q : α → β → Tracked → Prop} (h : Mirrors x y t E Q)
    (hE : ∀ e u, E e u → F e u) : Mirrors x y t F Q := by
  simp only [Mirrors] at h ⊢
  generalize x t.session = r, y t = r' at h ⊢
  cases h with
  | ok related => exact .ok related
  | error refused => exact .error (hE _ _ refused)

theorem Mirrors.lift {y : EStateM ε Session α} {E : ε → Tracked → Prop}
    {Q : α → α → Tracked → Prop}
    (h : Ends y t.session (fun e s => E e { t with session := s }) fun a s =>
      Q a a { t with session := s }) : Mirrors y (lift y) t E Q := by
  simp only [Mirrors, Tracked.lift]
  cases hy : y t.session with
  | ok a s => exact .ok (t := { t with session := s }) (h.ok hy)
  | error e s => exact .error (t := { t with session := s }) (h.error hy)

theorem Mirrors.pure {a : α} {b : β} {E : ε → Tracked → Prop} {Q : α → β → Tracked → Prop}
    (h : Q a b t) : Mirrors (pure a) (pure b) t E Q :=
  .ok h

theorem Mirrors.throw {e : ε} {E : ε → Tracked → Prop} {Q : α → β → Tracked → Prop} (h : E e t) :
    Mirrors (throw e) (throw e) t E Q :=
  .error h

theorem Mirrors.get {E : ε → Tracked → Prop} :
    Mirrors get get t E fun s u v => s = t.session ∧ u = t ∧ v = t :=
  .ok ⟨rfl, rfl, rfl⟩

/-- What the step on the session comes to, the other one comes to. -/
theorem Mirrors.left {x : EStateM ε Session α} {y : EStateM ε Tracked β} {E : ε → Tracked → Prop}
    {Q : α → β → Tracked → Prop} (h : Mirrors x y t E Q) {a : α} {s : Session}
    (hx : x t.session = .ok a s) : ∃ b u, y t = .ok b u ∧ u.session = s ∧ Q a b u := by
  simp only [Mirrors, hx] at h
  generalize y t = r at h ⊢
  cases h with
  | ok related => exact ⟨_, _, rfl, rfl, related⟩

theorem Mirrors.right {x : EStateM ε Session α} {y : EStateM ε Tracked β} {E : ε → Tracked → Prop}
    {Q : α → β → Tracked → Prop} (h : Mirrors x y t E Q) {b : β} {u : Tracked}
    (hy : y t = .ok b u) : ∃ a, x t.session = .ok a u.session ∧ Q a b u := by
  simp only [Mirrors, hy] at h
  generalize x t.session = r at h ⊢
  cases h with
  | ok related => exact ⟨_, rfl, related⟩

theorem Shadows.left {x : Nested Session α} {y : Nested Tracked β} {Q : α → β → Tracked → Prop}
    (h : Shadows x y t Q) {a : α} {s : Session} (hx : x t.session = .ok (a, s)) :
    ∃ b u, y t = .ok (b, u) ∧ u.session = s ∧ Q a b u := by
  simp only [Shadows, hx] at h
  generalize y t = r at h ⊢
  cases h with
  | ok related => exact ⟨_, _, rfl, related⟩

theorem Shadows.right {x : Nested Session α} {y : Nested Tracked β} {Q : α → β → Tracked → Prop}
    (h : Shadows x y t Q) {b : β} {u : Tracked} (hy : y t = .ok (b, u)) :
    ∃ a, x t.session = .ok (a, u.session) ∧ Q a b u := by
  simp only [Shadows, hy] at h
  generalize x t.session = r at h ⊢
  cases h with
  | @ok p q related =>
    obtain ⟨a, s⟩ := p
    obtain ⟨rfl, hQ⟩ := related
    exact ⟨a, rfl, hQ⟩

theorem Shadows.imp {x : Nested Session α} {y : Nested Tracked β} {Q R : α → β → Tracked → Prop}
    (h : Shadows x y t Q) (hQ : ∀ a b u, Q a b u → R a b u) : Shadows x y t R := by
  simp only [Shadows] at h ⊢
  generalize x t.session = r, y t = r' at h ⊢
  cases h with
  | ok related => exact .ok ⟨related.1, hQ _ _ _ related.2⟩
  | error e => exact .error e

theorem Shadows.pure {a : α} {b : β} {Q : α → β → Tracked → Prop} (h : Q a b t) :
    Shadows (pure a) (pure b) t Q :=
  .ok ⟨rfl, h⟩

theorem Shadows.bind {x : Nested Session α} {y : Nested Tracked β} {Q : α → β → Tracked → Prop}
    {k : α → Nested Session γ} {l : β → Nested Tracked δ} {R : γ → δ → Tracked → Prop}
    (h : Shadows x y t Q) (hk : ∀ a b u, Q a b u → Shadows (k a) (l b) u R) :
    Shadows (x >>= k) (y >>= l) t R := by
  simp only [Shadows, Bind.bind, StateT.bind, Except.bind] at h ⊢
  generalize x t.session = r, y t = r' at h ⊢
  cases h with
  | @ok p q related =>
    obtain ⟨a, s⟩ := p
    obtain ⟨b, u⟩ := q
    obtain ⟨rfl, hQ⟩ := related
    exact hk a b u hQ
  | error e => exact .error e

theorem Shadows.within {y : Nested Session α} {Q : α → α → Tracked → Prop}
    (h : Yields y t.session (fun _ => True) fun a s => Q a a { t with session := s }) :
    Shadows y (within y) t Q := by
  simp only [Shadows, Tracked.within]
  cases hy : y t.session with
  | ok p => exact .ok ⟨rfl, h.ok hy⟩
  | error e => exact .error e

theorem Shadows.restoring {x : Nested Session Unit} {y : Nested Tracked Unit}
    {accessed : Finset AccessKey} {Q : Tracked → Prop}
    (h : Shadows x y t fun _ _ u => Q { u with accessed := accessed }) :
    Shadows x (do
      y
      modify fun u => { u with accessed := accessed }) t fun _ _ u => Q u := by
  simp only [Shadows, Bind.bind, StateT.bind] at h ⊢
  generalize x t.session = r, y t = r' at h ⊢
  cases h with
  | ok related => exact .ok related
  | error e => exact .error e

theorem Shadows.fault {y : Except Fault α} {Q : α → α → Tracked → Prop} (h : ∀ a, Q a a t) :
    Shadows (liftM y) (liftM y) t Q := by
  cases y with
  | ok a => exact .ok ⟨rfl, h a⟩
  | error e => exact .error e

theorem Shadows.attempt {x : EStateM ε Session α} {y : EStateM ε Tracked β}
    {E : ε → Tracked → Prop} {Q : α → β → Tracked → Prop} (h : Mirrors x y t E Q) :
    Shadows (Session.attempt x) (attempt y) t fun r r' u =>
      Likewise (E · u) (Q · · u) r r' := by
  simp only [Mirrors] at h
  simp only [Shadows, Session.attempt, Tracked.attempt]
  generalize x t.session = r, y t = r' at h ⊢
  cases h with
  | ok related => exact .ok ⟨rfl, .ok related⟩
  | error refused => exact .ok ⟨rfl, .error refused⟩

end Rules

def tracks (base : Finset AccessKey) (j : Journal) : Coupling Session Tracked where
  serving s t := t.session = s ∧ t.Exact base j
  failed s t := t.session = s ∧ t.Exact base j

abbrev Paired (inner : Option (Host Session)) (inner' : Option (Host Tracked)) : Prop :=
  Option.Rel (fun h h' => ∀ base j, Host.Coupled (tracks base j) h h') inner inner'

theorem after_tracks (base : Finset AccessKey) (j : Journal) (status : Status) :
    (tracks base j).after status = fun s t => t.session = s ∧ t.Exact base j := by
  unfold Coupling.after
  split
  · rfl
  · rfl

variable {x : Executor} {base : Finset AccessKey} {j : Journal} {t : Tracked}

section Accesses

variable {keys : List AccessKey} {key : AccessKey}

/-- The answer is that of the session, although its warmth is that of the set. -/
theorem access_alike {y : Loading α} {cold : α → Bool} {withCold : α → Bool → α}
    (hcold : ∀ a, withCold a (cold a) = a) (hy : Accesses y keys key cold t.session.journal)
    (ht : t.Exact base j) :
    Query.Alike (tracks base j) (Session.load y t.session)
      (access keys key withCold (Session.load y) t) := by
  simp only [access, Session.load]
  cases hrun : y t.session.journal with
  | ok a k =>
    obtain ⟨hwarms, hreport⟩ := hy.ok hrun
    have hsame : withCold a (key ∉ t.accessed) = a := by rw [ht.cold, ← hreport, hcold]
    dsimp only
    rw [hsame]
    exact .answered a ⟨rfl, ht.warms hwarms⟩
  | error o k => exact .failed ⟨rfl, ht.warms (hy.error hrun)⟩

theorem access_coupled {y : Loading α} {cold : α → Bool} {withCold : α → Bool → α}
    (hcold : ∀ a, withCold a (cold a) = a) (hy : ∀ k, Accesses y keys key cold k) :
    Query.Coupled (tracks base j) (Session.load y) (access keys key withCold (Session.load y)) := by
  rintro _ t ⟨rfl, ht⟩
  exact access_alike hcold (hy _) ht

theorem lift_coupled {y : Loading α}
    (hy : ∀ k, Ends y k (fun _ l => Facet.slots.Rests k l) fun _ l => Facet.slots.Rests k l) :
    Query.Coupled (tracks base j) (Session.load y) (lift (Session.load y)) := by
  rintro _ t ⟨rfl, ht⟩
  have hrests := hy t.session.journal
  simp only [lift, Session.load]
  cases hrun : y t.session.journal with
  | ok a k => exact .answered a ⟨rfl, ht.rests (hrests.ok hrun)⟩
  | error o k => exact .failed ⟨rfl, ht.rests (hrests.error hrun)⟩

theorem loadAccount_reads (db : Database) (a : Address) (f : Account → α) (k : Journal) :
    Accesses (do
      let found ← loadAccount db a
      return (⟨f found.value, found.cold⟩ : Loaded α)) [.account a] (.account a) Loaded.cold k := by
  apply Ends.bind (loadAccount_accesses db a k)
  intro found l hl
  exact .pure hl

end Accesses

theorem require_mirrors (db : Database) (a : Address) (refusal : ε) (ht : t.Exact base j) :
    Mirrors (Session.require db a refusal) (require db a refusal) t
      (fun e u => e = refusal ∧ u.Exact base j ∧ u.session.failure.isSome = true) fun _ _ u =>
      u.Exact (insert (.account a) base) j := by
  have hload := loadAccount_accesses db a t.session.journal
  simp only [Mirrors, Session.require, require, access, Session.load]
  cases hrun : loadAccount db a t.session.journal with
  | ok found k =>
    have hexact := ht.warms (s := { t.session with journal := k }) (hload.ok hrun).1
    refine .ok (t := ⟨_, _⟩) ⟨hexact.exact, ?_, hexact.retains⟩
    exact Finset.insert_subset (by simp) hexact.base
  | error o k =>
    have hexact := ht.warms (s := { t.session with journal := k, failure := some o })
      (hload.error hrun)
    exact .error (t := ⟨_, _⟩) ⟨rfl, hexact, rfl⟩

theorem move_rests (hp : x.transfers.Calm) {s : Session} (source target : Address) (value : Word) :
    Ends (Session.move x.transfers source target value) s
      (fun _ u => Facet.slots.Rests s.journal u.journal) fun _ u =>
      Facet.slots.Rests s.journal u.journal := by
  apply Session.move_rule
  exact Ends.of_left (P := Facet.slots.Rests s.journal) (hp source target value s.journal).slots

theorem query_mirrors {q : Query Session α} {q' : Query Tracked α}
    (h : Query.Coupled (tracks base j) q q') (ht : t.Exact base j) :
    Mirrors q q' t (fun _ u => u.Exact base j) fun a b u => b = a ∧ u.Exact base j := by
  have hboth := h t.session t ⟨rfl, ht⟩
  simp only [Mirrors]
  generalize q t.session = y, q' t = y' at hboth ⊢
  cases hboth with
  | answered a serving =>
    obtain ⟨rfl, hu⟩ := serving
    exact .ok ⟨rfl, hu⟩
  | failed failed =>
    obtain ⟨rfl, hu⟩ := failed
    exact .error hu

theorem loadCode_coupled {db : Database} (a : Address) :
    Query.Coupled (tracks base j) (Session.load (Journal.loadCode db a)) (loadCode db a) :=
  access_coupled (fun _ => rfl) fun k => loadCode_accesses db a k

section Frames

variable {c : Checkpoint} {mark : Mark}

theorem Live.goes (ht : Live base j c mark t) :
    ∃ k, t.Exact base k ∧ ∀ u : Tracked, u.Exact base k → Live base j c mark u := by
  obtain ⟨u, hu, hc, hmark, ht⟩ := ht
  exact ⟨u.session.journal.deeper, ht, fun v hv => ⟨u, hu, hc, hmark, hv⟩⟩

theorem Live.exact (ht : Live base j c mark t) : t.Exact base j := by
  obtain ⟨u, hu, -, -, ht⟩ := ht
  have hdeeper : Facet.slots.Rests u.session.journal u.session.journal.deeper := .of_eq rfl rfl
  exact ⟨ht.exact, ht.base, (hu.retains.trans hdeeper.retains).trans ht.retains⟩

theorem checkpoint_shadows (ht : t.Exact base j) :
    Shadows Session.checkpoint checkpoint t fun c mark u => Live base j c mark u := by
  exact .ok ⟨rfl, t, ht, rfl, rfl, ht.exact, ht.base, .refl _⟩

theorem commit_shadows (ht : Live base j c mark t) :
    Shadows Session.commit (within Session.commit) t fun _ _ u => u.Exact base j := by
  apply Shadows.within
  apply Session.commit_any.imp
  intro _ s hs
  exact ht.exact.rests (.commit hs)

theorem revert_shadows (ht : Live base j c mark t) :
    Shadows (Session.revert c) (revert mark) t fun _ _ u => u.Exact base j := by
  obtain ⟨u, hu, rfl, rfl, ht⟩ := ht
  refine .restoring (.within (Session.revert_any.imp ?_))
  intro _ s hs
  obtain ⟨see, entries⟩ := ht.retains.revert hs
  exact hu.rests (s := s) ⟨⟨[], entries, nofun⟩, see⟩

theorem emit_shadows (ht : t.Exact base j) (event : Nat → FrameEvent) :
    Shadows (Session.emit event) (within (Session.emit event)) t fun _ _ u => u.Exact base j := by
  apply Shadows.within
  apply Yields.emit.imp
  rintro _ _ rfl
  exact ht.rests (.refl _)

theorem runCode_shadows {h : Host Session} {h' : Host Tracked}
    (hh : ∀ k, Host.Coupled (tracks base k) h h') (i : Invocation) (gasLimit : Nat)
    (ht : Live base j c mark t) :
    Shadows (Executor.runCode h i gasLimit) (runCode h' i gasLimit) t fun f f' u =>
      f' = f ∧ Live base j c mark u := by
  obtain ⟨k, hk, goes⟩ := ht.goes
  have hstart : Machine.Coupled (tracks base k) ⟨.start i gasLimit, t.session⟩
      ⟨.start i gasLimit, t⟩ := by
    refine ⟨rfl, ?_⟩
    rw [after_tracks]
    exact ⟨rfl, hk⟩
  have hrun := Machine.run_coupled (hh k) hstart
  simp only [Shadows, Executor.runCode, runCode]
  generalize Machine.run h _ = r, Machine.run h' _ = r' at hrun ⊢
  cases hrun with
  | ok related =>
    obtain ⟨hframe, hworld⟩ := related
    rw [after_tracks] at hworld
    exact .ok ⟨hworld.1, hframe, goes _ hworld.2⟩
  | error e => exact .error e

section Calls

variable {r : CallRequest}

theorem payCall_mirrors (hp : x.transfers.Calm) (ht : t.Exact base j) :
    Mirrors (x.payCall r) (payCall x r) t (fun _ u => u.Exact base j) fun _ _ u =>
      u.Exact base j := by
  have keep : ∀ {a : Address} {u : Tracked}, u.Exact (insert (.account a) base) j →
      u.Exact base j := fun hu => hu.mono (Finset.subset_insert _ _)
  unfold Executor.payCall payCall
  refine .bind ((require_mirrors _ _ _ ht).refused ?_) ?_
  · rintro _ u ⟨-, hu, -⟩
    exact hu
  intro _ _ u hu
  refine .bind ((require_mirrors _ _ _ (keep hu)).refused ?_) ?_
  · rintro _ v ⟨-, hv, -⟩
    exact hv
  intro _ _ v hv
  apply Mirrors.lift
  apply Ends.bind .modify
  rintro - s hs
  have htouched : Facet.slots.Rests v.session.journal s.journal := by
    rw [hs]
    exact .touch _ _
  apply Ends.bind .get
  rintro _ _ ⟨rfl, rfl⟩
  split
  · exact .throw ((keep hv).rests htouched)
  · refine ((move_rests hp _ _ _).refused ?_).imp ?_
    · intro _ w hw
      exact (keep hv).rests (htouched.trans hw)
    · intro _ w hw
      exact (keep hv).rests (htouched.trans hw)

theorem openCall_shadows (hp : x.transfers.Calm) (ht : t.Exact base j) :
    Shadows (x.openCall r) (openCall x r) t fun o o' u =>
      Likewise (fun _ => u.Exact base j) (fun c mark => Live base j c mark u) o o' := by
  unfold Executor.openCall openCall
  refine .bind (checkpoint_shadows ht) fun c mark u hu => ?_
  obtain ⟨k, hk, goes⟩ := hu.goes
  refine .bind (.attempt (payCall_mirrors hp hk)) fun o o' v hv => ?_
  cases hv with
  | ok related => exact .pure (.ok (goes _ related))
  | error refused =>
    refine .bind (revert_shadows (goes _ refused)) fun _ _ w hw => ?_
    exact .pure (.error hw)

theorem closeCall_shadows {f : Frame} (ht : Live base j c mark t) :
    Shadows (Executor.closeCall c f) (closeCall mark f) t fun a b u => b = a ∧ u.Exact base j := by
  have close : ∀ u : Tracked, u.Exact base j → Shadows (do
        Session.emit (.callClosed · f.status f.gas.remaining)
        return ⟨f.status, f.gas, ← f.outputData⟩ : Nested Session CallReply)
      (do
        within (Session.emit (.callClosed · f.status f.gas.remaining))
        return ⟨f.status, f.gas, ← f.outputData⟩ : Nested Tracked CallReply) u
      fun a b v => b = a ∧ v.Exact base j := by
    intro u hu
    refine .bind (emit_shadows hu _) fun _ _ v hv => ?_
    refine .bind (.fault (Q := fun a b w => b = a ∧ w.Exact base j) fun _ => ⟨rfl, hv⟩) ?_
    rintro output _ w ⟨rfl, hw⟩
    exact .pure ⟨rfl, hw⟩
  unfold Executor.closeCall closeCall
  by_cases hok : f.status.isOk = true
  · rw [if_pos hok, if_pos hok]
    exact .bind (commit_shadows ht) fun _ _ u hu => close u hu
  · rw [if_neg hok, if_neg hok]
    exact .bind (revert_shadows ht) fun _ _ u hu => close u hu

theorem callCode_shadows (hp : x.transfers.Calm) {inner : Option (Host Session)}
    {inner' : Option (Host Tracked)} (hinner : Paired inner inner')
    (code : Bytes) (ht : t.Exact base j) :
    Shadows (x.callCode inner r code) (callCode x inner' r code) t fun a b u =>
      b = a ∧ u.Exact base j := by
  unfold Executor.callCode callCode
  refine .bind (emit_shadows ht _) fun _ _ u hu => ?_
  cases hinner with
  | none => exact .pure ⟨rfl, hu⟩
  | some hh =>
    refine .bind (openCall_shadows hp hu) fun o o' v hv => ?_
    cases hv with
    | error refused => exact .pure ⟨rfl, refused⟩
    | ok related =>
      dsimp only
      split
      · refine .bind (commit_shadows related) fun _ _ w hw => ?_
        exact .pure ⟨rfl, hw⟩
      · refine .bind (runCode_shadows (hh _) _ _ related) ?_
        rintro f _ w ⟨rfl, hw⟩
        exact closeCall_shadows hw

theorem call_shadows (hp : x.transfers.Calm) {inner : Option (Host Session)}
    {inner' : Option (Host Tracked)} (hinner : Paired inner inner')
    (ht : t.Exact base j) :
    Shadows (x.call inner r) (call x inner' r) t fun a b u => b = a ∧ u.Exact base j := by
  unfold Executor.call call
  refine .bind (.attempt (query_mirrors (loadCode_coupled _) ht)) fun o o' u hu => ?_
  cases hu with
  | error refused => exact .pure ⟨rfl, refused⟩
  | ok related =>
    obtain ⟨rfl, hu⟩ := related
    exact callCode_shadows hp hinner _ hu

end Calls

section Creates

variable {r : CreateRequest}

theorem countCreation_mirrors (ht : t.Exact base j) :
    Mirrors (x.countCreation r) (countCreation x r) t
      (fun why u => why.address = none ∧ u.Exact base j) fun n n' u => n' = n ∧ u.Exact base j := by
  unfold Executor.countCreation countCreation
  refine .bind ((require_mirrors _ _ _ ht).refused ?_) ?_
  · rintro _ u ⟨rfl, hu, -⟩
    exact ⟨rfl, hu⟩
  intro _ _ u hu
  replace hu := hu.mono (Finset.subset_insert _ _)
  apply Mirrors.lift
  apply Ends.bind .get
  rintro _ _ ⟨rfl, rfl⟩
  split
  · exact .throw ⟨rfl, hu⟩
  apply Ends.bind .get
  rintro _ _ ⟨rfl, rfl⟩
  split
  · rename_i hraise
    apply Ends.bind .modify
    rintro - _ rfl
    exact .pure ⟨rfl, hu.rests (Calm.raiseNonce hraise).slots⟩
  · exact .throw ⟨rfl, hu⟩

def Keeps (base : Finset AccessKey) (j : Journal) (address : Option Address) (t : Tracked) : Prop :=
  t.Exact base j ∧ (t.session.failure = none → ∀ a, address = some a → .account a ∈ t.accessed)

theorem Keeps.of_insert {address : Address} {u : Tracked}
    (h : u.Exact (insert (.account address) base) j) : Keeps base j (some address) u := by
  refine ⟨h.mono (Finset.subset_insert _ _), ?_⟩
  rintro - a ⟨⟩
  exact h.base (Finset.mem_insert_self _ _)

theorem openCreate_mirrors (ht : t.Exact base j) :
    Mirrors (x.openCreate r) (openCreate x r) t
      (fun why u => Keeps base j why.address u) fun p p' u => p'.1 = p.1 ∧
        Live (insert (.account p.1) base) j p.2 p'.2 u := by
  unfold Executor.openCreate openCreate
  refine .bind ((countCreation_mirrors ht).refused ?_) ?_
  · rintro why u ⟨hwhy, hu⟩
    refine ⟨hu, fun _ a ha => ?_⟩
    rw [hwhy] at ha
    cases ha
  rintro n n' u ⟨rfl, hu⟩
  refine .bind ((require_mirrors _ _ _ hu).refused ?_) ?_
  · rintro why v ⟨-, hv, hfailure⟩
    refine ⟨hv, fun hnone => ?_⟩
    rw [hnone] at hfailure
    cases hfailure
  intro _ _ v hv
  apply Mirrors.bind .get
  rintro _ _ w ⟨rfl, rfl, rfl⟩
  cases hopen : w.session.journal.createCheckpoint (createdAddress r n') with
  | error status => exact .throw (.of_insert hv)
  | ok p =>
    obtain ⟨c, k⟩ := p
    obtain ⟨hmark, hopened, -⟩ := createCheckpoint_eq_ok hopen
    have hrests : Facet.slots.Rests w.session.journal k := by
      rw [hopened]
      exact .opened rfl (fun _ _ _ => rfl) _
    have hopens : Mirrors (modify fun s : Session => { s with journal := k })
        (Tracked.lift (modify fun s => { s with journal := k })) w
        (fun (why : CreateRefusal) z => Keeps base j why.address z) fun _ _ z =>
        Live (insert (.account (createdAddress r n')) base) j c ⟨c, w.accessed⟩ z := by
      apply Mirrors.lift
      apply Ends.modify.imp
      rintro - s rfl
      have hnow := hv.rests (s := { w.session with journal := k }) hrests
      exact ⟨w, hv, hmark, rfl, hnow.exact, hnow.base, hrests.of_deeper.retains⟩
    refine .bind hopens fun _ _ z hz => ?_
    exact .pure ⟨rfl, hz⟩

theorem endowCreate_shadows (hp : x.transfers.Calm) (ht : t.Exact base j) :
    Shadows (x.endowCreate r) (endowCreate x r) t fun o o' u =>
      Likewise (fun why => Keeps base j why.address u) (fun p p' => p'.1 = p.1 ∧
        Live (insert (.account p.1) base) j p.2 p'.2 u) o o' := by
  unfold Executor.endowCreate endowCreate
  refine .bind (.attempt (openCreate_mirrors ht)) fun o o' u hu => ?_
  cases hu with
  | error refused => exact .pure (.error refused)
  | @ok p p' related =>
    obtain ⟨_, c⟩ := p
    obtain ⟨address, mark⟩ := p'
    obtain ⟨rfl, hu⟩ := related
    obtain ⟨k, hk, goes⟩ := hu.goes
    have hmoved : Mirrors (Session.move x.transfers r.creator address r.value)
        (Tracked.lift (Session.move x.transfers r.creator address r.value)) u
        (fun _ v => Live (insert (.account address) base) j c mark v) fun _ _ v =>
        Live (insert (.account address) base) j c mark v := by
      apply Mirrors.lift
      refine ((move_rests hp _ _ _).refused ?_).imp ?_
      · intro _ s hs
        exact goes _ (hk.rests hs)
      · intro _ s hs
        exact goes _ (hk.rests hs)
    refine .bind (.attempt hmoved) fun o o' v hv => ?_
    cases hv with
    | ok related => exact .pure (.ok ⟨rfl, related⟩)
    | error refused =>
      refine .bind (revert_shadows refused) fun _ _ w hw => ?_
      exact .pure (.error (.of_insert hw))

theorem closeCreate_shadows {address : Address} {f : Frame} (ht : Live base j c mark t) :
    Shadows (x.closeCreate address c f) (closeCreate x address mark f) t fun a b u =>
      b = a ∧ a.address = some address ∧ u.Exact base j := by
  simp only [Executor.closeCreate, closeCreate]
  by_cases hok : (!f.status.isOk) = true
  · rw [if_pos hok, if_pos hok]
    refine .bind (revert_shadows ht) fun _ _ u hu => ?_
    refine .bind (.fault (Q := fun a b v => b = a ∧ v.Exact base j) fun _ => ⟨rfl, hu⟩) ?_
    rintro output _ v ⟨rfl, hv⟩
    exact .pure ⟨rfl, rfl, hv⟩
  rw [if_neg hok, if_neg hok]
  refine .bind (.fault (Q := fun a b v => b = a ∧ v = t) fun _ => ⟨rfl, rfl⟩) ?_
  rintro _ output v ⟨rfl, rfl⟩
  cases x.deposit f.gas output with
  | error status =>
    refine .bind (revert_shadows ht) fun _ _ u hu => ?_
    exact .pure ⟨rfl, rfl, hu⟩
  | ok p =>
    refine .bind (commit_shadows ht) fun _ _ u hu => ?_
    have hdeployed : Shadows (modify fun s : Session =>
          { s with journal := s.journal.setCode address p.2 })
        (within (modify fun s => { s with journal := s.journal.setCode address p.2 })) u
        fun _ _ w => w.Exact base j := by
      apply Shadows.within
      apply Yields.modify.imp
      rintro - _ rfl
      exact hu.rests (.setCode _ _ _)
    refine .bind hdeployed fun _ _ w hw => ?_
    exact .pure ⟨rfl, rfl, hw⟩

theorem create_shadows (hp : x.transfers.Calm) {inner : Option (Host Session)}
    {inner' : Option (Host Tracked)} (hinner : Paired inner inner')
    (ht : t.Exact base j) :
    Shadows (x.create inner r) (create x inner' r) t fun a b u =>
      b = a ∧ Keeps base j a.address u := by
  unfold Executor.create create
  refine .bind (emit_shadows ht _) fun _ _ u hu => ?_
  cases hinner with
  | none => exact .pure ⟨rfl, hu, nofun⟩
  | some hh =>
    refine .bind (endowCreate_shadows hp hu) fun o o' v hv => ?_
    cases hv with
    | error refused => exact .pure ⟨rfl, refused⟩
    | @ok p p' related =>
      obtain ⟨_, c⟩ := p
      obtain ⟨address, mark⟩ := p'
      obtain ⟨rfl, hv⟩ := related
      refine .bind (runCode_shadows (hh _) _ _ hv) ?_
      rintro _ f w ⟨rfl, hw⟩
      refine .bind (closeCreate_shadows hw) ?_
      rintro _ reply w' ⟨rfl, haddress, hw'⟩
      refine .bind (emit_shadows hw' _) fun _ _ w'' hw'' => ?_
      refine .pure ⟨rfl, ?_⟩
      rw [haddress]
      exact .of_insert hw''

end Creates

end Frames

section Hosts

variable {inner : Option (Host Session)} {inner' : Option (Host Tracked)}

theorem nested_coupled {status : α → Status} {y : Nested Session α} {y' : Nested Tracked α}
    (h : ∀ t : Tracked, t.Exact base j → Shadows y y' t fun a b u => b = a ∧ u.Exact base j) :
    Nested.Coupled (tracks base j) status y y' := by
  rintro _ t ⟨rfl, ht⟩
  have hboth := h t ht
  simp only [Shadows] at hboth
  generalize y t.session = r, y' t = r' at hboth ⊢
  cases hboth with
  | ok related =>
    obtain ⟨hsession, hsame, hu⟩ := related
    refine .ok ⟨hsame.symm, ?_⟩
    rw [after_tracks]
    exact ⟨hsession, hu⟩
  | error e => exact .error e

theorem host_coupled_of (hp : x.transfers.Calm) (hinner : Paired inner inner') :
    Host.Coupled (tracks base j) (x.host inner) (host x inner') where
  environment := rfl
  existence a := access_coupled (fun _ => rfl) fun k => loadExistence_accesses x.database a k
  blockHash number := lift_coupled fun k => loadBlockHash_rests x.database k number
  balance a :=
    access_coupled (fun _ => rfl) fun k => loadAccount_reads x.database a (·.info.balance) k
  code a := loadCode_coupled a
  codeHash a := access_coupled (fun _ => rfl) fun k => loadAccount_reads x.database a
    (fun y => if y.info.isEmpty then 0 else y.info.codeHash) k
  readSlot a key := access_coupled (fun _ => rfl) fun k => readSlot_accesses x.database a k key
  writeSlot a key new :=
    access_coupled (fun _ => rfl) fun k => writeSlot_accesses x.database a k key new
  selfDestruct a target :=
    access_coupled (fun _ => rfl) fun k => selfDestruct_accesses x.database a k target
  refund amount _ t := by
    rintro ⟨rfl, ht⟩
    simp only [Executor.host, host]
    cases hrecorded : t.session.journal.recordRefund amount with
    | ok k =>
      have hrests : Facet.slots.Rests t.session.journal k := .recordRefund hrecorded
      exact .ok ⟨rfl, ht.rests (s := { t.session with journal := k }) hrests⟩
    | error e => exact .error e
  log l _ t := by
    rintro ⟨rfl, ht⟩
    exact ⟨rfl, ht.rests (.of_eq rfl rfl)⟩
  call r := nested_coupled fun t ht => call_shadows hp hinner ht
  create r := nested_coupled fun t ht =>
    (create_shadows hp hinner ht).imp fun _ _ _ h => ⟨h.1, h.2.1⟩

theorem hostWithin_paired (hp : x.transfers.Calm) (room : Nat) :
    Paired (x.hostWithin room) (hostWithin x room) := by
  induction room with
  | zero => exact .none
  | succ room ih => exact .some fun _ _ => host_coupled_of hp ih

theorem host_coupled (hp : x.transfers.Calm) (room : Nat) :
    Host.Coupled (tracks base j) (x.host (x.hostWithin room)) (host x (hostWithin x room)) :=
  host_coupled_of hp (hostWithin_paired hp room)

end Hosts

end Tracked

end MeteredVM
