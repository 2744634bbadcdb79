import Almond.Lemmas.Footprints
import Almond.Sample

/-! # Candidates of the cleanup

A removal with an expected entry leaves a hash alone whose entry is another one by now. Two entries count as the same when they have the
same location, second of creation and origin. -/

namespace Almond.Candidates

open Conc FileStorage

/-! ## A removal that looks at the entry -/

/-- What a removal does with the entry that it finds. -/
def removeFound (cfg : Config) (sha256 : Str) (removal : Removal) (expected : Option FileMetadata) :
    Option FileMetadata → AsyncResult Bool
  | none => do
    if removal.sweepsBackend then
      sweepBackendCopies cfg sha256
    return false
  | some current => do
    if movedOn current expected then return false
    dispose cfg sha256 removal current
    if removal.sweepsBackend then
      sweepBackendCopies cfg sha256
    index (.removeIfLocationMatches sha256 current.location)

/-- A task in the course of which an entry is evicted: it holds the guard and is about to look at the entry. It goes on with what the
removal did and returned. -/
def lookingUp {γ : Type} (cfg : Config) (sha256 : Str) (expected : FileMetadata)
    (k : List (Task.Event Req Resp) × AppResult Bool → Async γ) : Async γ :=
  ((removeLocked cfg sha256 .evicted (some expected)).run.bind fun x => .release sha256 (.ret x)).traced.bind k

/-- The same task after it looked at the entry, when it removes nothing: it gives the guard back and goes on with `Ok(false)`. -/
def inert {γ : Type} (sha256 : Str) (x : Option FileMetadata) (k : List (Task.Event Req Resp) × AppResult Bool → Async γ) : Async γ :=
  .release sha256 (k ([⟨.index (.get sha256), x⟩], .ok false))

variable {cfg : Config} {sha256 : Str} {expected : FileMetadata} {γ : Type}
  {k : List (Task.Event Req Resp) × AppResult Bool → Async γ}

/-- The part of a removal that comes after the look. -/
def afterLook (cfg : Config) (sha256 : Str) (expected : FileMetadata)
    (k : List (Task.Event Req Resp) × AppResult Bool → Async γ) (x : Option FileMetadata) : Async γ :=
  (((removeFound cfg sha256 .evicted (some expected) x).run.bind fun y => .release sha256 (.ret y)).traced.bind fun e =>
    .ret (⟨.index (.get sha256), x⟩ :: e.1, e.2)).bind k

/-- The look at the entry is the first request. -/
theorem lookingUp_eq : lookingUp cfg sha256 expected k = .call (.index (.get sha256)) (afterLook cfg sha256 expected k) := by
  have hlocked : removeLocked cfg sha256 .evicted (some expected) =
      liftM (index (.get sha256)) >>= removeFound cfg sha256 .evicted (some expected) := by
    unfold removeLocked
    refine congrArg _ (funext fun x => ?_)
    cases x <;> rfl
  rw [lookingUp, hlocked]
  rfl

/-- After the look, the task goes on with what it found. -/
theorem tasks_of_look {c c' : Server} {t : Tid} {op : Op} {x : Option FileMetadata}
    {k : List (Task.Event Req Resp) × AppResult Bool → Async Report} (ht : c.tasks t = some (op, lookingUp cfg sha256 expected k))
    (hstep : Step (machine cfg) c (.called t op (.index (.get sha256)) x) c') :
    c'.tasks t = some (op, afterLook cfg sha256 expected k x) := by
  rw [lookingUp_eq] at ht
  cases hstep with
  | call e ht' =>
    cases ht.symm.trans ht'
    exact Function.update_self ..

/-- Nothing is removed when there is no entry, or one that the index has moved on to. -/
theorem afterLook_eq_inert {x : Option FileMetadata} (h : ∀ m, x = some m → movedOn m (some expected) = true) :
    afterLook cfg sha256 expected k x = inert sha256 x k := by
  cases x with
  | none => rfl
  | some m =>
    simp only [afterLook, removeFound, h m rfl, if_true]
    rfl

/-- A local entry that the index has not moved on from is removed. -/
theorem afterLook_ne_inert {m : FileMetadata} {p : Path} (h : movedOn m (some expected) = false) (hlocal : m.location = .localFile p) :
    afterLook cfg sha256 expected k (some m) ≠ inert sha256 (some m) k := by
  obtain ⟨r, f, hcall⟩ : ∃ r f, afterLook cfg sha256 expected k (some m) = .call r f := by
    simp only [afterLook, removeFound, h, Bool.false_eq_true, if_false, dispose, removePhysicalFile, reduceCtorEq, hlocal]
    exact ⟨_, _, rfl⟩
  rw [hcall]
  exact nofun

/-- No entry is another one than itself. -/
theorem movedOn_self (m : FileMetadata) : movedOn m (some m) = false := by
  simp [movedOn]

/-! ## Republications -/

/-- The entry that a step gives a hash, if it gives it one. -/
def installs (sha256 : Str) : Label Req Resp Str Op Report → Option FileMetadata
  | .called _ _ (.index (.publish key m)) (.published _) => if key = sha256 then some m else none
  | .called _ _ (.index (.insert key m)) _ => if key = sha256 then some m else none
  | .called _ _ (.index (.replace map)) _ => map.lookup sha256
  | _ => none

/-- Whether an entry that a step gives a hash is at another location, of another second or of another origin than an expected one. -/
def installsOther (sha256 : Str) (expected : FileMetadata) (l : Label Req Resp Str Op Report) : Bool :=
  (installs sha256 l).all fun m => movedOn m (some expected)

/-- The entry of a hash, if it has one, is not an expected one. -/
def Moved (sha256 : Str) (expected : FileMetadata) (c : Server) : Prop :=
  ∀ m, c.world.store.index.get sha256 = some m → movedOn m (some expected) = true

/-- What a request leaves the hash with was there, or was installed. -/
theorem get_exec_cases {t : Tid} {op : Op} {r : Req} {e : Env} {s : AppState} {m : FileMetadata}
    (h : (exec cfg t r e s).2.index.get sha256 = some m) :
    s.index.get sha256 = some m ∨ installs sha256 (.called t op r (exec cfg t r e s).1) = some m := by
  by_cases hmutates : r.mutates sha256
  · cases r with
    | index r =>
      cases r with
      | insert key m' =>
        obtain rfl : key = sha256 := hmutates
        refine .inr ((if_pos rfl).trans ?_)
        exact (BlobIndex.get_insert_self s.index key m').symm.trans h
      | publish key m' =>
        obtain rfl : key = sha256 := hmutates
        obtain ⟨existing, _, _, hp⟩ | ⟨_, hp⟩ := BlobIndex.publish_cases s.index key m'
        · simp only [exec, IndexReq.exec, hp] at h
          exact .inl h
        · simp only [exec, IndexReq.exec, hp] at h ⊢
          refine .inr ((if_pos rfl).trans ?_)
          exact (BlobIndex.get_insert_self s.index key m').symm.trans h
      | removeIfLocationMatches key location =>
        obtain rfl : key = sha256 := hmutates
        obtain ⟨_, _, _, hp⟩ | ⟨_, hp⟩ := BlobIndex.removeIf_cases s.index key location
        · simp only [exec, IndexReq.exec, hp, BlobIndex.get_remove_self] at h
          cases h
        · simp only [exec, IndexReq.exec, hp] at h
          exact .inl h
      | replace map => exact .inr h
      | _ => exact hmutates.elim
    | _ => exact hmutates.elim
  · exact .inl ((get_exec hmutates).symm.trans h)

/-- A step that installs no expected entry leaves the hash without one. -/
theorem Moved.step {c c' : Server} {l : Label Req Resp Str Op Report} (h : Moved sha256 expected c)
    (hl : installsOther sha256 expected l = true) (hstep : Step (machine cfg) c l c') : Moved sha256 expected c' := by
  cases hstep with
  | call e ht =>
    intro m hm
    rcases get_exec_cases hm with hm | hm
    · exact h m hm
    · rw [installsOther, machine_exec, hm] at hl
      exact hl
  | crash => exact nofun
  | _ => exact h

/-! ## An eviction -/

/-- The eviction of a candidate takes the guard, looks at the entry, and returns what the removal returned. -/
theorem body_remove : (machine cfg).body (.remove sha256 .evicted (some expected)) =
    .acquire sha256 (lookingUp cfg sha256 expected fun e => .ret (e.1, .removed e.2)) :=
  congrArg (Task.acquire sha256) (Task.traced_bind_ret _ Outcome.removed)

/-- An eviction that is started while the guard is free looks at the entry of that time. -/
theorem exists_lookingUp (cfg : Config) {c : Server} (hup : c.world.store.up = true) (hfree : c.world.owner sha256 = none)
    (expected : FileMetadata) :
    ∃ c₁ c₂, Run (machine cfg) (fun _ l => installsOther sha256 expected l = true) c c₁ ∧ c₁.world.store = c.world.store ∧
      c₁.tasks c.world.next = some (.remove sha256 .evicted (some expected),
        lookingUp cfg sha256 expected fun e => .ret (e.1, .removed e.2)) ∧
      Step (machine cfg) c₁ (.called c.world.next (.remove sha256 .evicted (some expected)) (.index (.get sha256))
        (c.world.store.index.get sha256)) c₂ := by
  obtain ⟨op, hop⟩ : ∃ op, op = Op.remove sha256 .evicted (some expected) := ⟨_, rfl⟩
  obtain ⟨k, hk⟩ : ∃ k : List (Task.Event Req Resp) × AppResult Bool → Async Report, k = fun e => .ret (e.1, .removed e.2) := ⟨_, rfl⟩
  have henabled : (machine cfg).enabled op c.world.store = true := hop ▸ hup
  have hbody : (machine cfg).body op = .acquire sha256 (lookingUp cfg sha256 expected k) := hop ▸ hk ▸ body_remove
  have hspawn := Step.spawn henabled
  have hstarted : (c.put c.world.next op ((machine cfg).body op) c.world.allocate).tasks c.world.next =
      some (op, .acquire sha256 (lookingUp cfg sha256 expected k)) := (Function.update_self ..).trans (hbody ▸ rfl)
  have hacquire := Step.acquire (M := machine cfg) hstarted hfree
  have hlocked : ((c.put c.world.next op ((machine cfg).body op) c.world.allocate).put c.world.next op (lookingUp cfg sha256 expected k)
      (c.world.allocate.take sha256 c.world.next)).tasks c.world.next = some (op, lookingUp cfg sha256 expected k) :=
    Function.update_self ..
  have hnext := hlocked.trans (congrArg (fun p => some (op, p)) lookingUp_eq)
  have hlook := Step.call (M := machine cfg) Sample.calm hnext
  rw [← hop, ← hk]
  exact ⟨_, _, ((Run.refl c).tail rfl hspawn).tail rfl hacquire, rfl, hlocked, hlook⟩

/-! ## A candidate whose entry was removed -/

/-- A candidate whose entry was removed is left alone as long as the hash was not published again at the location, within the second and
with the origin of the candidate: the removal finds no entry or another one, gives the guard back and returns `Ok(false)`. -/
theorem stale_candidate_inert {c₀ c c' : Server} {t : Tid} {op : Op} {x : Option FileMetadata}
    {k : List (Task.Event Req Resp) × AppResult Bool → Async Report} (hremoved : c₀.world.store.index.get sha256 = none)
    (hrun : Run (machine cfg) (fun _ l => installsOther sha256 expected l = true) c₀ c)
    (ht : c.tasks t = some (op, lookingUp cfg sha256 expected k))
    (hstep : Step (machine cfg) c (.called t op (.index (.get sha256)) x) c') :
    c'.tasks t = some (op, inert sha256 x k) := by
  have hmoved : Moved sha256 expected c := by
    refine hrun.invariant (I := Moved sha256 expected) (fun _ _ _ h hl hs => h.step hl hs) fun m hm => ?_
    rw [hremoved] at hm
    nomatch hm
  have hlook := tasks_of_look ht hstep
  cases hstep with
  | call e _ => exact hlook.trans (congrArg (fun p => some (op, p)) (afterLook_eq_inert hmoved))

/-- A cache fill of the hash. -/
def fill : Op :=
  .publish ⟨Sample.hash, .upstreamCache, none, none, 3, none⟩ [.ok [1, 2, 3]]

/-- The entry of a cache copy that was made a second earlier. -/
def candidate : FileMetadata :=
  ⟨.localFile (Sample.config.storage.upstreamCache ++ ["old".toList]), none, none, 3, 1699999999, none, none, .upstreamCache⟩

/-- Whether an entry is at a local path. -/
def isLocal (m : FileMetadata) : Bool :=
  match m.location with
  | .localFile _ => true
  | .s3 _ => false

theorem exists_of_isLocal {m : FileMetadata} (h : isLocal m = true) : ∃ p, m.location = .localFile p := by
  unfold isLocal at h
  split at h
  · exact ⟨_, ‹_›⟩
  · nomatch h

/-- Whether a server runs, has a local entry for the hash, and nobody holds its guard. -/
def holdsCopy (c : Server) : Bool :=
  c.world.store.up && (c.world.owner Sample.hash).isNone && (c.world.store.index.get Sample.hash).any isLocal

theorem of_holdsCopy {c : Server} (h : holdsCopy c = true) : c.world.store.up = true ∧ c.world.owner Sample.hash = none ∧
    ∃ m p, c.world.store.index.get Sample.hash = some m ∧ m.location = .localFile p := by
  simp only [holdsCopy, Bool.and_eq_true, Option.isNone_iff_eq_none, Option.any_eq_true] at h
  obtain ⟨⟨hup, hfree⟩, m, hm, hlocal⟩ := h
  obtain ⟨p, hp⟩ := exists_of_isLocal hlocal
  exact ⟨hup, hfree, m, p, hm, hp⟩

theorem refill_replays : (((machine Sample.config).replay (Server.idle Sample.started) ([.spawn fill] ++ Sample.steps 0 21)).any fun p =>
    p.1.all (fun x => installsOther Sample.hash candidate x.2) && holdsCopy p.2) = true := by
  decide

/-- The hash is published again a second later: the removal leaves the new copy where it is. -/
theorem stale_candidate_inert_refilled :
    ∃ (c c' : Server) (t : Tid) (op : Op) (x : Option FileMetadata) (k : List (Task.Event Req Resp) × AppResult Bool → Async Report),
      holdsCopy c = true ∧ Run (machine Sample.config) (fun _ l => installsOther Sample.hash candidate l = true) (Server.idle Sample.started) c ∧
      c'.tasks t = some (op, inert Sample.hash x k) := by
  obtain ⟨c, hrun, hholds⟩ := exists_run_of_replay (machine Sample.config) (Server.idle Sample.started) ([.spawn fill] ++ Sample.steps 0 21)
    (fun _ l => installsOther Sample.hash candidate l) holdsCopy refill_replays
  obtain ⟨hup, hfree, -⟩ := of_holdsCopy hholds
  obtain ⟨c₁, c₂, hstart, -, ht, hlook⟩ := exists_lookingUp Sample.config hup hfree candidate
  exact ⟨c, c₂, _, _, _, _, hholds, hrun, stale_candidate_inert rfl (hrun.trans hstart) ht hlook⟩

/-! ## A republication within the second -/

/-- What a step of the cleanup lists. -/
def listed : Label Req Resp Str Op Report → List (Str × FileMetadata)
  | .called _ .enforceStorageLimits (.index .snapshot) listing => listing
  | _ => []

/-- Whether the entry that a server has for the hash is the one that a step of the cleanup listed. -/
def reappears (l : Label Req Resp Str Op Report) (c : Server) : Bool :=
  holdsCopy c && (c.world.store.index.get Sample.hash).any fun m => listed l = [(Sample.hash, m)]

/-- Whether the hash has no entry, and after another cache fill the one that was listed. -/
def refills (l : Label Req Resp Str Op Report) (c : Server) : Bool :=
  (c.world.store.index.get Sample.hash).isNone &&
    ((machine Sample.config).replay c ([.spawn fill] ++ Sample.steps 3 21)).any fun p => p.1.all (fun _ => true) && reappears l p.2

/-- Whether a cleanup that lists the copy, the removal of the copy and another cache fill bring back the entry that was listed. -/
def goesStale (c : Server) : Bool :=
  ((machine Sample.config).move c (.step 1 Sample.calm)).any fun q =>
    ((machine Sample.config).replay q.2 ([.spawn (.remove Sample.hash .requested none)] ++ Sample.steps 2 8)).any fun p =>
      p.1.all (fun _ => true) && refills q.1 p.2

theorem refill_replays_stale : (((machine Sample.config).replay (Server.idle Sample.started)
    ([.spawn fill] ++ Sample.steps 0 21 ++ [.spawn .enforceStorageLimits] ++ Sample.steps 1 3)).any fun p =>
      p.1.all (fun _ => true) && goesStale p.2) = true := by
  decide

/-- A removed copy that is made again within the second has the entry of the first one, and the removal removes it. -/
theorem stale_candidate_inert_false :
    ¬ ∀ (cfg : Config) (s : AppState) (c₀ c₁ c₂ c c' : Server) (l : Label Req Resp Str Op Report) (sha256 : Str) (expected : FileMetadata)
      (t : Tid) (op : Op) (x : Option FileMetadata) (k : List (Task.Event Req Resp) × AppResult Bool → Async Report),
      Run (machine cfg) (fun _ _ => True) (Server.idle s) c₀ → Step (machine cfg) c₀ l c₁ → (sha256, expected) ∈ listed l →
      Run (machine cfg) (fun _ _ => True) c₁ c₂ → c₂.world.store.index.get sha256 = none →
      Run (machine cfg) (fun _ _ => True) c₂ c → (c.world.store.index.get sha256).isSome = true →
      c.tasks t = some (op, lookingUp cfg sha256 expected k) →
      Step (machine cfg) c (.called t op (.index (.get sha256)) x) c' → c'.tasks t = some (op, inert sha256 x k) := by
  intro h
  obtain ⟨c₀, hrun₀, hstale⟩ := exists_run_of_replay (machine Sample.config) (Server.idle Sample.started) _ (fun _ _ => true) goesStale
    refill_replays_stale
  obtain ⟨⟨l, c₁⟩, hmove, hremoved⟩ := (Option.any_eq_true ..).1 hstale
  obtain ⟨c₂, hrun₁, hrefills⟩ := exists_run_of_replay (machine Sample.config) c₁ _ (fun _ _ => true) (refills l) hremoved
  obtain ⟨hnone, hfilled⟩ := Bool.and_eq_true_iff.1 hrefills
  obtain ⟨c, hrun₂, hreappears⟩ := exists_run_of_replay (machine Sample.config) c₂ _ (fun _ _ => true) (reappears l) hfilled
  obtain ⟨hholds, hsame⟩ := Bool.and_eq_true_iff.1 hreappears
  obtain ⟨m, hm, hlisted⟩ := (Option.any_eq_true ..).1 hsame
  obtain ⟨hup, hfree, m', p, hm', hlocal⟩ := of_holdsCopy hholds
  obtain rfl : m' = m := Option.some.inj (hm'.symm.trans hm)
  obtain ⟨d, d', hstart, hstore, ht, hlook⟩ := exists_lookingUp Sample.config hup hfree m'
  have hlist : (Sample.hash, m') ∈ listed l := of_decide_eq_true hlisted ▸ List.mem_singleton_self _
  have hback : (d.world.store.index.get Sample.hash).isSome = true := Option.isSome_iff_exists.2 ⟨m', hstore ▸ hm⟩
  have hinert := h Sample.config Sample.started c₀ c₁ c₂ d d' l Sample.hash m' _ _ _ _ (hrun₀.mono fun _ _ _ => trivial)
    (step_of_move hmove) hlist (hrun₁.mono fun _ _ _ => trivial) (Option.isNone_iff_eq_none.1 hnone)
    ((hrun₂.mono fun _ _ _ => trivial).trans (hstart.mono fun _ _ _ => trivial)) hback ht hlook
  have hremoves := tasks_of_look ht hlook
  rw [hm] at hinert hremoves
  have hsame := (Prod.mk.inj (Option.some.inj (hremoves.symm.trans hinert))).2
  exact afterLook_ne_inert (movedOn_self m') hlocal hsame

end Almond.Candidates
