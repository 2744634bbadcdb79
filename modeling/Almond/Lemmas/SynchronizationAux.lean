import Almond.Lemmas.MaintenanceAux
import Almond.Lemmas.UploadsAux

/-! # The merge of a listing beside other operations

A merge inserts an entry right after a check that the hash has none. The index is rebuilt by the first operation of a process, before
the process accepts others. -/

namespace Almond

open Conc FileStorage

/-- A request that neither inserts a listed entry nor rebuilds the index, and does not open the server. -/
def Req.Steady : Req → Prop
  | .index (.insert _ _) | .index (.replace _) | .ready => False
  | _ => True

/-- Reading is steady. -/
theorem Req.inspects.steady {r : Req} (h : r.inspects) : r.Steady := by
  cases r with
  | index r => cases r <;> first | exact trivial | exact h.elim
  | _ => first | exact trivial | exact h.elim

/-- A publication is steady. -/
theorem Req.Places.steady {layout : StorageLayout} {sha256 : Str} {r : Req} (h : r.Places layout sha256) : r.Steady := by
  cases r with
  | index r => cases r <;> first | exact trivial | exact h.elim
  | _ => first | exact trivial | exact h.elim

/-- An eviction is steady. -/
theorem Req.Evicts.steady {r : Req} (h : r.Evicts) : r.Steady := by
  cases r with
  | index r => cases r <;> first | exact trivial | exact h.elim
  | _ => first | exact trivial | exact h.elim

/-- A removal is steady. -/
theorem Req.Ends.steady {layout : StorageLayout} {sha256 : Str} {r : Req} (h : r.Ends layout sha256) : r.Steady := by
  cases r with
  | index r => cases r <;> first | exact trivial | exact h.elim
  | _ => first | exact trivial | exact h.elim

/-- Receiving is steady. -/
theorem Req.Receives.steady {layout : StorageLayout} {r : Req} (h : r.Receives layout) : r.Steady := by
  cases r with
  | index r => exact Req.inspects.steady (r := .index r) h
  | _ => first | exact trivial | exact h.elim

namespace Synchronization

/-- A listing has returned the object of an entry. -/
def Listed (libs : Libs) (past : List (Task.Event Req Resp)) (e : Str × FileMetadata) : Prop :=
  ∃ page objects, ⟨.s3 (.listPage [] page), .ok objects⟩ ∈ past ∧ e ∈ NativeStorage.pageEntries libs objects

/-- What an operation may request after its requests so far: an entry that was listed is inserted for a hash that was just found without
one, and only the first operation of a process rebuilds the index and opens the server, in this order. -/
def May (cfg : Config) (op : Op) (past : List (Task.Event Req Resp)) : Req → Prop
  | .index (.insert sha256 m) => (∃ earlier, past = ⟨.index (.contains sha256), false⟩ :: earlier) ∧ Listed cfg.libs past (sha256, m)
  | .index (.replace _) | .ready => op = .boot ∧ ∀ e ∈ past, e.1 ≠ .ready
  | _ => True

/-- The protocol of an operation. -/
abbrev Merging (cfg : Config) (op : Op) : Protocol Req Resp Str (List (Task.Event Req Resp)) :=
  .recording (Req.Foresees cfg.storage) (fun _ _ => True) (May cfg op)

variable {cfg : Config} {libs : Libs} {op : Op} {past : List (Task.Event Req Resp)} {α : Type}

/-- What was listed stays listed. -/
theorem Listed.mono {past' : List (Task.Event Req Resp)} {e : Str × FileMetadata} (h : Listed libs past e) (hpast : past <:+ past') :
    Listed libs past' e := by
  obtain ⟨page, objects, hmem, he⟩ := h
  exact ⟨page, objects, hpast.subset hmem, he⟩

/-- An entry that was listed is of an object. -/
theorem Listed.location {sha256 : Str} {m : FileMetadata} (h : Listed libs past (sha256, m)) : ∃ key, m.location = .s3 key := by
  obtain ⟨_, _, _, he⟩ := h
  obtain ⟨_, key, _, hkey, _⟩ := NativeStorage.listed_of_mem_pageEntries he
  exact ⟨key, hkey⟩

/-- A steady request may always be made. -/
theorem may_of_steady {r : Req} (h : r.Steady) : May cfg op past r := by
  cases r with
  | index r => cases r <;> first | exact trivial | exact h.elim
  | _ => first | exact trivial | exact h.elim

/-- A task that makes steady requests obeys. -/
theorem obeys_of_steady {p : Async α} (h : p.Issues Req.Steady) : p.Obeys (Merging cfg op) (fun _ _ => True) past :=
  (h.obeys_keeping (I := fun _ => True) (fun _ _ _ => trivial) (fun _ _ _ hr => may_of_steady hr) (fun _ _ _ _ _ => trivial) trivial)

/-- A server that is not open yet. -/
def Closed (past : List (Task.Event Req Resp)) : Prop :=
  ∀ e ∈ past, e.1 ≠ .ready

/-- A task that has requested nothing has not opened the server. -/
theorem closed_nil : Closed [] := by
  intro e he
  nomatch he

/-- Another request leaves a server closed. -/
theorem Closed.cons {r : Req} {x : Resp r} (hpast : Closed past) (hr : r ≠ .ready) : Closed (⟨r, x⟩ :: past) := by
  intro e he
  rcases List.mem_cons.1 he with rfl | he
  · exact hr
  · exact hpast e he

/-- A task that makes steady requests does not open the server. -/
theorem closed_of_steady {R : α → Prop} {p : Async α} (h : p.Within Req.Steady R) (hpast : Closed past) :
    p.Obeys (Merging cfg op) (fun q a => Closed q ∧ R a) past := by
  refine Task.Obeys.sim (T := fun _ q => Closed q) ⟨fun _ _ _ => trivial,
      fun _ q r hq (hr : r.Steady) => ⟨may_of_steady hr, fun x => hq.cons ?_⟩,
    fun _ _ _ _ => False.elim, fun _ _ _ _ => False.elim⟩ (fun _ _ _ hq hR => ⟨hq, hR⟩) hpast h
  rintro rfl
  exact hr.elim

/-- What a page of a listing returns was listed. -/
theorem listPages_obeys {pages : List PageToken} (hpast : Closed past) :
    (NativeStorage.listPages libs pages).run.Obeys (Merging cfg op) (fun q listed => Closed q ∧ past <:+ q ∧
      ∀ entries, listed = .ok entries → ∀ e ∈ entries, Listed libs q e) past := by
  induction pages generalizing past with
  | nil =>
    refine ⟨hpast, List.suffix_refl past, fun entries h e he => ?_⟩
    cases h
    nomatch he
  | cons page pages ih =>
    refine ⟨trivial, fun x _ => ?_⟩
    cases x with
    | error error => exact ⟨hpast.cons nofun, List.suffix_cons .., nofun⟩
    | ok objects =>
      refine Task.Obeys.run_bind (ih (hpast.cons nofun)) ?_ ?_
      · rintro q e ⟨hq, hsuffix, _⟩
        exact ⟨hq, (List.suffix_cons ..).trans hsuffix, nofun⟩
      · rintro q entries ⟨hq, hsuffix, hentries⟩
        refine ⟨hq, (List.suffix_cons ..).trans hsuffix, fun all h e he => ?_⟩
        cases h
        rcases List.mem_append.1 he with he | he
        · exact ⟨page, objects, hsuffix.subset List.mem_cons_self, he⟩
        · exact hentries entries rfl e he

/-- What a listing returns was listed. -/
theorem listAll_obeys (hpast : Closed past) :
    (NativeStorage.listAll libs).run.Obeys (Merging cfg op) (fun q listed => Closed q ∧
      ∀ entries, listed = .ok entries → ∀ e ∈ entries, Listed libs q e) past := by
  refine Task.Obeys.lift_bind (R := fun q _ => Closed q) ⟨trivial, fun _ _ => hpast.cons nofun⟩ fun q pages hq => ?_
  exact (listPages_obeys hq).mono fun q' listed ⟨hq', _, hlisted⟩ => ⟨hq', hlisted⟩

/-- A merge checks each hash right before it inserts an entry for it. -/
theorem mergeListing_obeys {entries : List (Str × FileMetadata)} (hentries : ∀ e ∈ entries, Listed cfg.libs past e)
    (hpast : Closed past) : (NativeStorage.mergeListing entries).Obeys (Merging cfg op) (fun q _ => Closed q) past := by
  induction entries generalizing past with
  | nil => exact hpast
  | cons e entries ih =>
    obtain ⟨hfirst, hrest⟩ := List.forall_mem_cons.1 hentries
    have hchecked : ∀ known, Closed (⟨.index (.contains e.1), known⟩ :: past) := fun _ => hpast.cons nofun
    have hlisted : ∀ q, past <:+ q → ∀ e ∈ entries, Listed cfg.libs q e := fun q hq e he => (hrest e he).mono hq
    refine ⟨trivial, fun known _ => ?_⟩
    cases known with
    | true => exact ih (hlisted _ (List.suffix_cons ..)) (hchecked true)
    | false =>
      refine ⟨⟨⟨past, rfl⟩, hfirst.mono (List.suffix_cons ..)⟩, fun _ _ => ih (hlisted _ ?_) ((hchecked false).cons nofun)⟩
      exact (List.suffix_cons ..).trans (List.suffix_cons ..)

/-- A synchronization merges what it listed. -/
theorem syncIndex_obeys (hpast : Closed past) :
    (NativeStorage.syncIndex cfg.libs).run.Obeys (Merging cfg op) (fun q _ => Closed q) past := by
  refine Task.Obeys.lift_bind (p := (NativeStorage.listAll cfg.libs).run) (listAll_obeys hpast) ?_
  rintro q listed ⟨hq, hlisted⟩
  cases listed with
  | ok entries =>
    refine Task.Obeys.lift_bind (mergeListing_obeys (hlisted entries rfl) hq) fun q _ hq => ?_
    exact Task.Obeys.lift ⟨trivial, fun _ _ => hq.cons nofun⟩
  | error error =>
    refine Task.Obeys.lift_bind (R := fun q _ => Closed q) ⟨trivial, fun _ _ => hq.cons nofun⟩ fun q now hq => ?_
    exact Task.Obeys.lift_bind (R := fun q _ => Closed q) ⟨trivial, fun _ _ => hq.cons nofun⟩ fun q _ hq => hq

/-- A part that makes steady requests, and what comes after it. -/
theorem obeys_bind_of_steady {β : Type} {R : List (Task.Event Req Resp) → AppResult β → Prop} {p : AsyncResult α} {f : α → AsyncResult β}
    (hp : p.run.Uses Req.Steady) (hpast : Closed past) (he : ∀ q e, Closed q → R q (.error e))
    (hf : ∀ a q, Closed q → (f a).run.Obeys (Merging cfg op) R q) : (p >>= f).run.Obeys (Merging cfg op) R past :=
  Task.Obeys.run_bind (closed_of_steady hp hpast) (fun q e hq => he q e hq.1) fun q a hq => hf a q hq.1

/-- The rebuilding of the index comes before the server is open. -/
theorem buildFileIndex_obeys (libs : Libs) (layout : StorageLayout) (hpast : Closed past) :
    (Startup.buildFileIndex libs layout).run.Obeys (Merging cfg .boot) (fun q _ => Closed q) past := by
  have hscan : ∀ root origin scan, (Startup.scanBlobRoot libs root origin scan).run.Uses Req.Steady := fun root origin scan =>
    (Startup.scanBlobRoot_physical libs root origin scan).mono (fun _ h => h.evicts.steady) fun _ => id
  refine obeys_bind_of_steady (hscan ..) hpast (fun _ _ => id) fun cached q hq => ?_
  refine obeys_bind_of_steady (hscan ..) hq (fun _ _ => id) fun scan q hq => ?_
  refine Task.Obeys.lift_bind (R := fun q _ => Closed q) ⟨⟨rfl, hq⟩, fun _ _ => hq.cons nofun⟩ fun q _ hq => ?_
  exact Task.Obeys.lift ((closed_of_steady (Startup.removeDuplicates_uses fun _ _ _ _ => trivial) hq).mono fun _ _ h => h.1)

/-- Booting opens the server last. -/
theorem buildState_obeys (cfg : Config) : (Startup.buildState cfg).run.Obeys (Merging cfg .boot) (fun _ _ => True) [] := by
  unfold Startup.buildState Startup.initializeStorage
  refine obeys_bind_of_steady (Startup.createDirs_uses (fun _ => trivial) _) closed_nil (fun _ _ _ => trivial) fun _ q hq => ?_
  refine obeys_bind_of_steady (uses_attempt (Startup.clearTempDirectory_uses (fun _ _ => trivial) fun _ => ⟨trivial, trivial⟩)) hq
    (fun _ _ _ => trivial) fun _ q hq => ?_
  refine obeys_bind_of_steady (Startup.migrateLegacyBlobs_uses (fun _ _ => trivial) (fun _ => trivial) fun _ _ _ _ => ⟨trivial, trivial⟩) hq
    (fun _ _ _ => trivial) fun _ q hq => ?_
  refine Task.Obeys.run_bind (buildFileIndex_obeys _ _ hq) (fun _ _ _ => trivial) fun q _ hq => ?_
  have hready : ∀ q : List (Task.Event Req Resp), Closed q →
      ((request .ready : Async Unit).Obeys (Merging cfg .boot) (fun _ _ => True) q) := fun q hq => ⟨⟨rfl, hq⟩, fun _ _ => trivial⟩
  dsimp only
  split
  · refine Task.Obeys.lift_bind (syncIndex_obeys hq) fun q _ hq => ?_
    exact Task.Obeys.lift (hready q hq)
  · exact Task.Obeys.lift (hready q hq)

/-- Every operation obeys its protocol. -/
theorem program_obeys (cfg : Config) (op : Op) : (program cfg op).traced.Obeys (Merging cfg op) (fun _ _ => True) [] := by
  suffices h : (program cfg op).Obeys (Merging cfg op) (fun _ _ => True) [] from h.traced
  have hbuilt : ∀ {γ : Type} {P : Req → Prop} {S : Async γ → Prop} {p : Async Outcome},
      p.Built (Req.Foresees cfg.storage) P S (fun _ => True) →
      (∀ r, P r → r.Steady) → (∀ part, S part → part.Issues Req.Steady) → p.Obeys (Merging cfg op) (fun _ _ => True) [] := by
    intro γ P S p hp hP hS
    refine (hp.obeys_keeping (I := fun _ => True) (fun _ _ h => h) (fun _ _ _ hr => may_of_steady (hP _ hr)) (fun _ _ _ _ _ => trivial) ?_
      trivial).mono fun _ _ _ => trivial
    intro q part _ hpart
    exact obeys_of_steady (hS part hpart)
  have hpublishes : ∀ {target : Str → Prop} part, PublishesBlob cfg target part → part.Issues Req.Steady := by
    rintro target _ ⟨temp, publication, _, _, rfl⟩
    exact (publishBlob_places cfg temp publication).mono fun _ h => h.steady
  have hreceives : op.isUpload = true → (program cfg op).Obeys (Merging cfg op) (fun _ _ => True) [] := fun hop =>
    hbuilt (program_receives hop) (fun _ h => h.steady) hpublishes
  cases op with
  | boot => exact Task.Obeys.bind (buildState_obeys cfg) fun _ _ _ => trivial
  | syncIndex => exact Task.Obeys.bind (syncIndex_obeys closed_nil) fun _ _ _ => trivial
  | get headers head filename =>
    refine hbuilt (program_discovers headers head filename) (fun _ h => h.receives.steady) ?_
    rintro _ ⟨sha256, _, m, _, rfl⟩
    exact (publishExistingMetadata_places cfg sha256 m).mono fun _ h => h.steady
  | remove sha256 removal expected =>
    have hends := (removeLocked_ends cfg sha256 removal expected).issues_withLock (l := sha256)
    exact (obeys_of_steady (hends.mono fun _ h => h.steady)).bind fun _ _ _ => trivial
  | enforceStorageLimits =>
    have hissues : (Startup.enforceStorageLimits cfg).run.Issues Req.Steady :=
      Startup.enforceStorageLimits_issues cfg (fun _ h => h.steady) trivial fun _ => trivial
    exact (obeys_of_steady hissues).bind fun _ _ _ => trivial
  | cleanupAbandonedChunks =>
    exact hbuilt (program_sweeps cfg) (fun _ h => h.settles.receives.steady) hpublishes
  | upload headers body => exact hreceives rfl
  | mirror headers body => exact hreceives rfl
  | patch headers body => exact hreceives rfl
  | publish publication body => exact hreceives rfl

end Synchronization

end Almond
