import Almond.Conc.Solo
import Almond.Lemmas.Rules

/-! # The footprints of the storage services -/

namespace Almond

open Conc

/-- A request that changes nothing. -/
def Req.inspects : Req → Prop
  | .fs (.readDir _) | .fs (.nextEntry _) | .fs (.fileType _) | .fs (.tryExists _) | .fs (.openFile _) | .fs (.syncAll _)
  | .fs (.read _ _ _) | .fs (.seek _ _) | .fs (.fileLen _) | .fs (.metadata _) | .fs .availableSpace | .fs .dirCount => True
  | .s3 .paginate | .s3 (.listPage _ _) | .s3 (.getObject _) => True
  | .index (.get _) | .index (.contains _) | .index .stats | .index .snapshot => True
  | .s3Status | .systemTime | .nextFrame | .isTrusted _ | .isDvm _ | .checkDvmAnnouncement _ | .fetchFromUrl _ | .getServeFile _
  | .fetchFromUpstream _ => True
  | _ => False

/-- A request that inspects leaves the state as it is. -/
theorem exec_of_inspects {cfg : Config} {t : Tid} {r : Req} {e : Env} {s : AppState} (h : r.inspects) :
    (exec cfg t r e s).2 = s := by
  cases r with
  | fs r => cases r <;> first | exact h.elim | (simp only [exec, writers, Disk.exec, Disk.perform]; split <;> (try split) <;> rfl)
  | s3 r => cases r <;> first | exact h.elim | (simp only [exec, Bucket.exec, Bucket.perform]; split <;> rfl)
  | index r => cases r <;> first | exact h.elim | rfl
  | _ => first | exact h.elim | rfl

/-- A request that changes the index entry of a hash. -/
def Req.mutates (sha256 : Str) : Req → Prop
  | .index (.insert key _) | .index (.publish key _) | .index (.removeIfLocationMatches key _) => key = sha256
  | .index (.replace _) => True
  | _ => False

/-- A request to the session registry, or for a temporary path. -/
def Req.registers : Req → Prop
  | .sessions _ | .reserveTemp _ _ _ => True
  | _ => False

/-- A request that changes no entry but that of one hash, and no session. -/
def Req.Only (sha256 : Str) (r : Req) : Prop :=
  (∀ other, r.mutates other → other = sha256) ∧ ¬ r.registers

/-- A request that changes no entry. -/
def Req.Never (r : Req) : Prop :=
  ∀ sha256, ¬ r.mutates sha256

/-- A request that does not change the entry of a hash leaves it. -/
theorem get_exec {cfg : Config} {t : Tid} {r : Req} {e : Env} {s : AppState} {sha256 : Str} (h : ¬ r.mutates sha256) :
    (exec cfg t r e s).2.index.get sha256 = s.index.get sha256 := by
  cases r with
  | index r =>
    cases r with
    | insert key m => exact BlobIndex.get_insert_of_ne _ m fun hk => h hk.symm
    | publish key m => exact BlobIndex.get_publish_of_ne _ m fun hk => h hk.symm
    | removeIfLocationMatches key loc => exact BlobIndex.get_removeIf_of_ne _ loc fun hk => h hk.symm
    | replace map => exact absurd trivial h
    | _ => rfl
  | receiveToken token =>
    simp only [exec]
    split <;> rfl
  | dropTemp p =>
    simp only [exec]
    split <;> rfl
  | _ => rfl

/-- A request that changes no entry leaves the index. -/
theorem index_exec_of_never {cfg : Config} {t : Tid} {r : Req} (h : r.Never) (e : Env) (s : AppState) :
    (exec cfg t r e s).2.index = s.index := by
  cases r with
  | index r =>
    cases r with
    | insert key m => exact absurd rfl (h key)
    | publish key m => exact absurd rfl (h key)
    | removeIfLocationMatches key loc => exact absurd rfl (h key)
    | replace map => exact absurd trivial (h [])
    | _ => rfl
  | receiveToken token =>
    simp only [exec]
    split <;> rfl
  | dropTemp p =>
    simp only [exec]
    split <;> rfl
  | _ => rfl

/-- A task that changes no entry leaves the index. -/
theorem yields_of_never {cfg : Config} {t : Tid} {E : Env → Prop} {s : AppState} {α : Type} {p : Async α} (hp : p.Uses Req.Never) :
    p.Yields (exec cfg t) E (fun _ s' => s'.index = s.index) s :=
  (Task.Within.yields (I := fun s' : AppState => s'.index = s.index) hp
    (fun _ e s' hr h => (index_exec_of_never hr e s').trans h) rfl).mono fun _ _ h => h.2

/-- A request that inspects changes no entry. -/
theorem Req.inspects.never {r : Req} (h : r.inspects) : r.Never := by
  intro sha256 hm
  cases r with
  | index r => cases r <;> first | exact h.elim | exact hm.elim
  | _ => exact hm.elim

/-- A request that inspects changes no entry, and no session. -/
theorem Req.inspects.only {r : Req} (h : r.inspects) (sha256 : Str) : r.Only sha256 := by
  refine ⟨fun other hm => absurd hm (h.never other), fun hr => ?_⟩
  cases r with
  | sessions r => exact h
  | reserveTemp dir namePrefix extension => exact h
  | _ => exact hr

/-- The location whose bytes a request removes. -/
def Req.removes : Req → Option FileLocation
  | .fs (.removeFile p) | .dropTemp p => some (.localFile p)
  | .s3 (.deleteObject key) => some (.s3 key)
  | _ => none

/-- A request that removes the bytes of one location and does nothing else. -/
def Req.Disposes (location : FileLocation) : Req → Prop
  | .fs (.removeFile p) => location = .localFile p
  | .s3 (.deleteObject key) => location = .s3 key
  | _ => False

/-- A disposal changes no entry. -/
theorem Req.Disposes.never {r : Req} {location : FileLocation} (h : r.Disposes location) : r.Never := by
  intro sha256 hm
  cases r with
  | index r => exact h.elim
  | _ => exact hm.elim

/-- A disposal changes no entry, and no session. -/
theorem Req.Disposes.only {r : Req} {location : FileLocation} (h : r.Disposes location) (sha256 : Str) : r.Only sha256 := by
  refine ⟨fun other hm => absurd hm (h.never other), fun hr => ?_⟩
  cases r with
  | sessions r => exact h
  | reserveTemp dir namePrefix extension => exact h
  | _ => exact hr

/-- A disposal removes what it says. -/
theorem Req.Disposes.removes {r : Req} {location : FileLocation} (h : r.Disposes location) : r.removes = some location := by
  cases r with
  | fs r => cases r <;> first | exact h.elim | exact congrArg some h.symm
  | s3 r => cases r <;> first | exact h.elim | exact congrArg some h.symm
  | _ => exact h.elim

/-- A request that inspects removes nothing. -/
theorem Req.inspects.removes {r : Req} (h : r.inspects) : r.removes = none := by
  cases r with
  | fs r => cases r <;> first | exact h.elim | rfl
  | s3 r => cases r <;> first | exact h.elim | rfl
  | _ => first | exact h.elim | rfl

namespace NativeStorage

/-- What an entry for a listed object says: it is an upload, and its key is one of the hash. -/
def Listed (sha256 : Str) (metadata : FileMetadata) : Prop :=
  metadata.origin = .upload ∧ ∃ key parsed, metadata.location = .s3 key ∧ parseObjectKey key = some parsed ∧ parsed.hash = sha256

/-- The entries of a page are for listed objects. -/
theorem listed_of_mem_pageEntries {libs : Libs} {objects : List (Str × S3Object)} {e : Str × FileMetadata}
    (h : e ∈ pageEntries libs objects) : Listed e.1 e.2 := by
  obtain ⟨⟨key, object⟩, _, he⟩ := List.mem_filterMap.1 h
  obtain ⟨parsed, hp, rfl⟩ := Option.map_eq_some_iff.1 he
  exact ⟨rfl, key, parsed, rfl, hp, rfl⟩

/-- What a page yields for a hash is a listed object of the hash. -/
theorem listed_of_firstOf {libs : Libs} {sha256 : Str} {objects : List (Str × S3Object)} {m : FileMetadata}
    (h : firstOf libs sha256 objects = some m) : Listed sha256 m := by
  obtain ⟨e, he, rfl⟩ := Option.map_eq_some_iff.1 h
  have hk : e.1 = sha256 := by simpa using List.find?_some he
  exact hk ▸ listed_of_mem_pageEntries (List.mem_of_find?_eq_some he)

/-- A search only lists pages, and finds listed objects of its hash. -/
theorem findInPages_within (libs : Libs) (sha256 keyPrefix : Str) (pages : List PageToken) :
    (findInPages libs sha256 keyPrefix pages).run.Within Req.inspects
      fun x => ∀ m, x = .ok (some m) → Listed sha256 m := by
  induction pages with
  | nil => exact nofun
  | cons page pages ih =>
    refine Task.Within.run_bind (R := fun _ => True)
      (within_orErr (within_request trivial fun _ => trivial) fun _ _ => trivial) (fun _ _ => nofun) fun objects _ => ?_
    cases hf : firstOf libs sha256 objects with
    | none => exact ih
    | some m =>
      intro m' hm
      cases hm
      exact listed_of_firstOf hf

/-- Finding an object only inspects, and finds listed objects of its hash. -/
theorem find_within (libs : Libs) (sha256 : Str) :
    (find libs sha256).run.Within Req.inspects fun x => ∀ m, x = .ok (some m) → Listed sha256 m := by
  refine Task.Within.run_bind (R := fun _ => True) (p := ofResult _) trivial (fun _ _ => nofun) fun keyPrefix _ => ?_
  exact Task.Within.run_bind (R := fun _ => True) (Task.Within.lift (within_request trivial fun _ => trivial))
    (fun _ _ => nofun) fun pages _ => findInPages_within libs sha256 keyPrefix pages

/-- Looking at the status of the bucket only inspects. -/
theorem ensureAvailable_uses : ensureAvailable.run.Uses Req.inspects := by
  refine Task.Uses.lift_bind (uses_request trivial) fun status => ?_
  cases status <;> exact trivial

end NativeStorage

namespace FileStorage

/-- Looking through the quarantine only inspects. -/
theorem inspectEntries_uses (quarantine : Path) (sha256 : Str) (names : List Str) :
    (inspectEntries quarantine sha256 names).run.Uses Req.inspects := by
  induction names with
  | nil => exact uses_orErr (uses_request trivial)
  | cons name names ih =>
    refine Task.Uses.run_bind (uses_orErr (uses_request trivial)) fun _ => ?_
    cases hm : quarantineNameMatches sha256 name with
    | true => exact trivial
    | false => exact ih

/-- The quarantine check only inspects. -/
theorem ensureNotQuarantined_uses (layout : StorageLayout) (sha256 : Str) :
    (ensureNotQuarantined layout sha256).run.Uses Req.inspects := by
  refine Task.Uses.run_bind (p := ofResult _) trivial fun _ => ?_
  refine Task.Uses.lift_bind (uses_request trivial) fun names => ?_
  cases names with
  | ok names => exact inspectEntries_uses layout.quarantine sha256 names
  | error error =>
    by_cases hk : error.kind = .notFound
    · simp only [hk, if_true]
      exact trivial
    · simp only [hk, if_false]
      exact trivial

/-- Removing a file disposes of it. -/
theorem removeLocalFile_uses (p : Path) : (removeLocalFile p).run.Uses (Req.Disposes (.localFile p)) := by
  refine Task.Uses.lift_bind (uses_request rfl) fun x => ?_
  cases x with
  | ok _ => exact trivial
  | error error =>
    by_cases hk : error.kind = .notFound
    · simp only [hk, if_true]
      exact trivial
    · simp only [hk, if_false]
      exact trivial

/-- Removing the bytes of an entry disposes of its location. -/
theorem removePhysicalFile_uses (cfg : Config) (m : FileMetadata) :
    (removePhysicalFile cfg m).run.Uses (Req.Disposes m.location) := by
  unfold removePhysicalFile
  cases hl : m.location with
  | localFile p => exact removeLocalFile_uses p
  | s3 key =>
    cases hc : cfg.nativeS3 with
    | true => exact uses_orErr (uses_request (P := Req.Disposes (.s3 key)) rfl)
    | false => exact trivial

end FileStorage

namespace Upload

/-- A request of a body on its way to a temporary file. -/
def Streams (temp : Path) : Req → Prop
  | .fs (.createFile p) => p = temp
  | .fs (.writeAll _ _) | .fs (.syncAll _) | .nextFrame => True
  | .closeFile p => p = temp
  | _ => False

/-- Streaming a body changes no entry. -/
theorem Streams.never {temp : Path} {r : Req} (h : Streams temp r) : r.Never := by
  intro sha256 hm
  cases r with
  | index r => exact h.elim
  | _ => exact hm.elim

/-- Writing the pieces of a frame only writes. -/
theorem writePieces_uses (temp : Path) (ino : Ino) (maxBytes : Nat) (pieces : List Bytes) (received : Bytes) :
    (writePieces ino maxBytes pieces received).run.Uses (Streams temp) := by
  induction pieces generalizing received with
  | nil => exact trivial
  | cons piece rest ih =>
    unfold writePieces
    cases checkedAdd received.length piece.length with
    | none => exact trivial
    | some nextTotal =>
      by_cases hm : nextTotal > maxBytes
      · simp only [hm, if_true]
        exact trivial
      · simp only [hm, if_false]
        exact Task.Uses.run_bind (uses_orErr (uses_request trivial)) fun _ => ih _

/-- Writing a body only writes. -/
theorem writeFrames_uses (temp : Path) (ino : Ino) (maxBytes : Nat) (body : Body) (received : Bytes) :
    (writeFrames ino maxBytes body received).run.Uses (Streams temp) := by
  induction body generalizing received with
  | nil => exact ⟨trivial, fun _ _ => trivial⟩
  | cons frame frames ih =>
    refine Task.Uses.lift_bind (uses_request trivial) fun _ => ?_
    cases frame with
    | error _ => exact trivial
    | ok data => exact Task.Uses.run_bind (writePieces_uses temp ino maxBytes _ received) fun _ => ih _

/-- Streaming a body only creates, writes, syncs and closes its temporary file. -/
theorem streamToTempFile_uses (libs : Libs) (body : Body) (temp : Path) (maxBytes : Nat) :
    (streamToTempFile libs body temp maxBytes).run.Uses (Streams temp) := by
  refine Task.Uses.run_bind (uses_orErr (uses_request rfl)) fun ino => ?_
  refine Task.Uses.run_bind (uses_attempt ?_) fun written => Task.Uses.lift_bind (uses_request rfl) fun _ => trivial
  refine Task.Uses.run_bind (writeFrames_uses temp ino maxBytes body []) fun received => ?_
  exact Task.Uses.run_bind (uses_orErr (uses_request trivial)) fun _ => trivial

end Upload

namespace Serving

/-- Serving a file only reads it. -/
theorem serveFileWithRange_uses (path : Path) (headers : Headers) (etag : Str) :
    (serveFileWithRange path headers etag).run.Uses Req.inspects := by
  refine Task.Uses.lift_bind (uses_request trivial) fun file => ?_
  cases file with
  | error error =>
    simp only
    split <;> exact trivial
  | ok file =>
    refine Task.Uses.lift_bind (uses_request trivial) fun size => ?_
    cases size with
    | error error =>
      simp only
      split <;> exact trivial
    | ok size =>
      simp only
      split
      · exact Task.Uses.run_bind (uses_orErr (uses_request trivial)) fun _ => trivial
      · exact trivial

/-- Serving an object only reads it. -/
theorem serveS3WithRange_uses (key : Str) (size : Nat) (headers : Headers) (etag : Str) :
    (serveS3WithRange key size headers etag).run.Uses Req.inspects := by
  simp only [serveS3WithRange]
  split
  · exact trivial
  · exact Task.Uses.run_bind (uses_orErr (uses_request trivial)) fun _ => trivial

end Serving

end Almond
