import Almond.Lemmas.Footprints

/-! # What the guarded parts of publication and removal touch

Under the mutation guard of a hash no other hash's entry changes. -/

namespace Almond

open Conc FileStorage

/-- A request that moves a temporary file into the bucket. -/
def Req.Stores (temp : Path) : Req → Prop
  | .fs (.openFile _) | .s3 (.putObject _ _) => True
  | .fs (.removeFile p) => p = temp
  | _ => False

/-- Storing a file changes no entry. -/
theorem Req.Stores.never {temp : Path} {r : Req} (h : r.Stores temp) : r.Never := by
  intro sha256 hm
  cases r with
  | index r => exact h.elim
  | _ => exact hm.elim

/-- Storing a file removes at most the file. -/
theorem Req.Stores.removes {temp : Path} {r : Req} {loc : FileLocation} (h : r.Stores temp) (hr : r.removes = some loc) :
    loc = .localFile temp := by
  cases r with
  | fs r =>
    cases r with
    | removeFile p => exact (Option.some.inj hr).symm.trans (congrArg _ h)
    | _ => first | exact h.elim | nomatch hr
  | s3 r => cases r <;> first | exact h.elim | nomatch hr
  | _ => exact h.elim

/-- A request of a publication: it works on objects and on files that are written, moves a file only to a completed path of its hash, and
makes at most the entry of the hash. -/
def Req.Places (layout : StorageLayout) (sha256 : Str) : Req → Prop
  | .fs (.createFile _) | .fs (.writeAll _ _) => False
  | .fs (.rename _ p) => ∃ origin extension expiration, completedPath layout origin sha256 extension expiration = .ok p
  | .fs _ | .s3 _ | .intoPublished _ | .dropTemp _ | .queueSuperseded _ _ => True
  | .index (.publish key _) => key = sha256
  | r => r.inspects

section

variable {layout : StorageLayout} {sha256 : Str} {r : Req}

/-- A publication changes no entry but that of its hash. -/
theorem Req.Places.only (h : r.Places layout sha256) : r.Only sha256 := by
  cases r with
  | index r =>
    cases r with
    | publish key m => exact ⟨fun other hm => hm.symm.trans h, id⟩
    | _ =>
      refine Req.inspects.only ?_ sha256
      exact h
  | fs r => exact ⟨fun _ => False.elim, id⟩
  | s3 r => exact ⟨fun _ => False.elim, id⟩
  | intoPublished p => exact ⟨fun _ => False.elim, id⟩
  | dropTemp p => exact ⟨fun _ => False.elim, id⟩
  | queueSuperseded sha256 m => exact ⟨fun _ => False.elim, id⟩
  | _ =>
    refine Req.inspects.only ?_ sha256
    exact h

/-- Reading is a part of a publication. -/
theorem Req.inspects.places (h : r.inspects) : r.Places layout sha256 := by
  cases r with
  | index r => cases r <;> first | exact h | exact h.elim
  | fs r => cases r <;> first | exact trivial | exact h.elim
  | _ => first | exact trivial | exact h

/-- A disposal is a part of a publication. -/
theorem Req.Disposes.places {location : FileLocation} (h : r.Disposes location) : r.Places layout sha256 := by
  cases r with
  | fs r => cases r <;> first | exact trivial | exact h.elim
  | s3 r => exact trivial
  | _ => exact h.elim

/-- Storing a file is a part of a publication. -/
theorem Req.Stores.places {temp : Path} (h : r.Stores temp) : r.Places layout sha256 := by
  cases r with
  | fs r => cases r <;> first | exact trivial | exact h.elim
  | s3 r => exact trivial
  | _ => exact h.elim

end

namespace FileStorage

/-- The requests of making metadata visible. -/
theorem publishMetadata_places (cfg : Config) (sha256 : Str) (m : FileMetadata) :
    (publishMetadata cfg sha256 m).run.Uses (Req.Places cfg.storage sha256) := by
  refine Task.Uses.lift_bind (uses_request rfl) fun outcome => ?_
  cases outcome with
  | retained existing => exact trivial
  | published displaced =>
    refine Task.Uses.lift_bind (uses_request trivial) fun published => ?_
    cases published with
    | none => exact trivial
    | some published =>
      cases displaced with
      | none => exact trivial
      | some displaced =>
        refine Task.Uses.run_bind (uses_attempt ?_) fun removed => ?_
        · exact (removePhysicalFile_uses cfg displaced).mono (fun r h => h.places) fun _ _ => trivial
        · cases removed with
          | ok _ => exact trivial
          | error _ => exact Task.Uses.lift_bind (uses_request trivial) fun _ => trivial

/-- The creation of the metadata of a publication only reads the clock. -/
theorem metadata_uses (publication : BlobPublication) (loc : FileLocation) :
    (publication.metadata loc).Uses Req.inspects :=
  ⟨trivial, fun _ _ => trivial⟩

/-- Storing a file in the bucket opens it, puts it and removes it. -/
theorem put_uses (temp : Path) (sha256 : Str) (extension : Option Str) (expiration : Option Nat) :
    (NativeStorage.put temp sha256 extension expiration).run.Uses (Req.Stores temp) := by
  refine Task.Uses.run_bind (p := ofResult _) trivial fun key => ?_
  refine Task.Uses.run_bind (uses_orErr (uses_request trivial)) fun ino => ?_
  refine Task.Uses.run_bind (uses_orErr (uses_request trivial)) fun _ => ?_
  exact Task.Uses.run_bind (uses_orErr (uses_request rfl)) fun _ => trivial

/-- The requests of the publication of a file to the bucket. -/
theorem publishToS3_places (cfg : Config) (temp : Path) (publication : BlobPublication) :
    (publishToS3 cfg temp publication).run.Uses (Req.Places cfg.storage publication.sha256) := by
  refine Task.Uses.run_bind ?_ fun _ => ?_
  · exact NativeStorage.ensureAvailable_uses.mono (fun r h => h.places) fun _ _ => trivial
  refine Task.Uses.run_bind ((put_uses ..).mono (fun r h => h.places) fun _ _ => trivial) fun key => ?_
  refine Task.Uses.lift_bind (uses_request trivial) fun _ => ?_
  refine Task.Uses.lift_bind ((metadata_uses ..).mono (fun r h => h.places) fun _ _ => trivial) fun m => ?_
  exact publishMetadata_places cfg publication.sha256 m

/-- The requests of the publication of a file to its completed path. -/
theorem publishToDisk_places (cfg : Config) (temp : Path) (publication : BlobPublication) :
    (publishToDisk cfg temp publication).run.Uses (Req.Places cfg.storage publication.sha256) := by
  refine Task.Within.run_bind (p := ofResult _) (R := fun x => x = completedPath cfg.storage publication.origin publication.sha256
    publication.extension publication.expiration) rfl (fun _ _ => trivial) fun finalPath hfinal => ?_
  refine Task.Uses.run_bind (uses_orErr (uses_request trivial)) fun _ => ?_
  refine Task.Uses.run_bind (uses_orErr (uses_request trivial)) fun present => ?_
  have hrest : ((do
      orIoErr (fun error => s!"Failed to publish {display temp} to {display finalPath}: {error.message}")
        (fs (.rename temp finalPath))
      request (.intoPublished temp)
      let metadata ← publication.metadata (.localFile finalPath)
      publishMetadata cfg publication.sha256 metadata : AsyncResult StoredBlob)).run.Uses (Req.Places cfg.storage publication.sha256) := by
    refine Task.Uses.run_bind (uses_orErr (uses_request ⟨_, _, _, hfinal.symm⟩)) fun _ => ?_
    refine Task.Uses.lift_bind (uses_request trivial) fun _ => ?_
    refine Task.Uses.lift_bind ((metadata_uses ..).mono (fun r h => h.places) fun _ _ => trivial) fun m => ?_
    exact publishMetadata_places cfg publication.sha256 m
  cases present with
  | false => exact hrest
  | true =>
    exact Task.Uses.run_bind ((removeLocalFile_uses finalPath).mono (fun r h => h.places) fun _ _ => trivial)
      fun _ => hrest

/-- The requests of the guarded part of a publication. -/
theorem publishLocked_places (cfg : Config) (temp : Path) (publication : BlobPublication) :
    (publishLocked cfg temp publication).run.Uses (Req.Places cfg.storage publication.sha256) := by
  refine Task.Uses.run_bind
    ((ensureNotQuarantined_uses ..).mono (fun r h => h.places) fun _ _ => trivial) fun _ => ?_
  have hstore : ((if publication.origin = .upload ∧ cfg.nativeS3 = true then publishToS3 cfg temp publication
      else publishToDisk cfg temp publication : AsyncResult StoredBlob)).run.Uses (Req.Places cfg.storage publication.sha256) := by
    split
    · exact publishToS3_places cfg temp publication
    · exact publishToDisk_places cfg temp publication
  refine Task.Uses.lift_bind (uses_request trivial) fun existing => ?_
  cases existing with
  | none => exact hstore
  | some existing =>
    cases hk : keepsIncumbent publication existing with
    | true => simp only [hk, if_true]; exact trivial
    | false => simp only [hk]; exact hstore

/-- The requests of a publication. -/
theorem publishBlob_places (cfg : Config) (temp : Path) (publication : BlobPublication) :
    (publishBlob cfg temp publication).run.Issues (Req.Places cfg.storage publication.sha256) := by
  have hdrop : ∀ x : AppResult StoredBlob, ((do request (.dropTemp temp); ofResult x : AsyncResult StoredBlob)).run.Issues
      (Req.Places cfg.storage publication.sha256) := fun x => ⟨trivial, fun _ _ => rfl⟩
  refine Task.Issues.lift_bind (p := ExceptT.run _) ?_ hdrop
  refine Task.Issues.run_bind (p := ofResult _) rfl fun _ => ?_
  exact (publishLocked_places cfg temp publication).issues_withLock

/-- The requests of indexing what was found in the bucket. -/
theorem publishExistingMetadata_places (cfg : Config) (sha256 : Str) (m : FileMetadata) :
    (publishExistingMetadata cfg sha256 m).run.Issues (Req.Places cfg.storage sha256) :=
  Task.Issues.run_bind (publishMetadata_places cfg sha256 m).issues_withLock fun _ => rfl

/-- Making metadata visible changes no other entry. -/
theorem publishMetadata_uses (cfg : Config) (sha256 : Str) (m : FileMetadata) :
    (publishMetadata cfg sha256 m).run.Uses (Req.Only sha256) :=
  (publishMetadata_places cfg sha256 m).mono (fun _ h => h.only) fun _ _ => trivial

/-- The guarded part of a publication changes no other entry. -/
theorem publishLocked_uses (cfg : Config) (temp : Path) (publication : BlobPublication) :
    (publishLocked cfg temp publication).run.Uses (Req.Only publication.sha256) :=
  (publishLocked_places cfg temp publication).mono (fun _ h => h.only) fun _ _ => trivial

/-- A publication changes no other entry. -/
theorem publishBlob_issues (cfg : Config) (temp : Path) (publication : BlobPublication) :
    (publishBlob cfg temp publication).run.Issues (Req.Only publication.sha256) :=
  (publishBlob_places cfg temp publication).mono fun _ h => h.only

/-- Indexing what was found in the bucket changes no other entry. -/
theorem publishExistingMetadata_issues (cfg : Config) (sha256 : Str) (m : FileMetadata) :
    (publishExistingMetadata cfg sha256 m).run.Issues (Req.Only sha256) :=
  (publishExistingMetadata_places cfg sha256 m).mono fun _ h => h.only

end FileStorage

end Almond
