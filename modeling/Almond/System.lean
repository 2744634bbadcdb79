import Almond.Handlers
import Almond.Serving
import Almond.Startup

/-! # The running application

The operations that the server starts, each as one task, over the application state: the programs of the requests it serves and of
its background jobs. -/

namespace Almond

open Conc

/-- The operations of the server. -/
inductive Op where
  /-- `build_state`. -/
  | boot
  /-- A `GET` or a `HEAD` of a blob. -/
  | get (headers : Headers) (head : Bool) (filename : Str)
  /-- `PUT /upload`. -/
  | upload (headers : Headers) (body : Body)
  /-- `PUT /mirror`. -/
  | mirror (headers : Headers) (body : Body)
  /-- `PATCH /upload`. -/
  | patch (headers : Headers) (body : Body)
  /-- A cache fill or a mirrored segment: a body from another server that is received and published. -/
  | publish (publication : FileStorage.BlobPublication) (body : Body)
  /-- A `DELETE`, a resolved report or an eviction. -/
  | remove (sha256 : Str) (removal : FileStorage.Removal) (expected : Option FileMetadata)
  /-- One attempt of the S3 recovery job. -/
  | syncIndex
  /-- One pass of the cleanup job. -/
  | enforceStorageLimits
  /-- One pass of the chunk cleanup job. -/
  | cleanupAbandonedChunks

/-- What the operations return. -/
inductive Outcome where
  | done (result : AppResult Unit)
  | response (result : AppResult Response)
  | stored (result : AppResult FileStorage.StoredBlob)
  | removed (result : AppResult Bool)
  deriving DecidableEq

/-- The program of an operation. -/
def program (cfg : Config) : Op → Async Outcome
  | .boot => .done <$> (Startup.buildState cfg).run
  | .get headers head filename => .response <$> (Serving.handleFileRequest cfg headers head filename).run
  | .upload headers body => .response <$> (Handlers.uploadFile cfg headers body).run
  | .mirror headers body => .response <$> (Handlers.mirrorBlob cfg headers body).run
  | .patch headers body => .response <$> (Handlers.patchUpload cfg headers body).run
  | .publish publication body => .stored <$> (Upload.receiveAndPublish cfg body publication).run
  | .remove sha256 removal expected => .removed <$> (FileStorage.removeIndexedBlob cfg sha256 removal expected).run
  | .syncIndex => .done <$> (NativeStorage.syncIndex cfg.libs).run
  | .enforceStorageLimits => .done <$> (Startup.enforceStorageLimits cfg).run
  | .cleanupAbandonedChunks => (fun _ => .done (.ok ())) <$> Handlers.cleanupAbandonedChunks cfg

/-- The hash that an operation names, if it names one. -/
def Op.target (cfg : Config) : Op → Option Str
  | .get _ _ filename => Serving.getSha256HashFromFilename filename
  | .upload headers _ => (Handlers.extractDeclaredUploadHash headers).toOption
  | .mirror headers _ =>
    ((Http.str headers "authorization").bind fun h => (Auth.parseAuthHeader cfg.libs h).toOption).bind
      Auth.extractSha256FromEvent
  | .patch headers _ => Http.str headers "x-sha-256"
  | .publish publication _ => some publication.sha256
  | .remove sha256 _ _ => some sha256
  | _ => none

/-- Whether an operation is a `GET`. -/
def Op.isGet : Op → Bool
  | .get _ _ _ => true
  | _ => false

/-- Whether an operation receives a blob. -/
def Op.isUpload : Op → Bool
  | .upload _ _ | .mirror _ _ | .patch _ _ | .publish _ _ => true
  | _ => false

/-- The record and the outcome of a finished operation. -/
abbrev Report := List (Task.Event Req Resp) × Outcome

/-- Whether an operation can start: the server must be up, and the bucket can only be listed where there is one. -/
def enabled (cfg : Config) (s : AppState) : Op → Bool
  | .boot => false
  | .syncIndex => s.up && cfg.nativeS3
  | _ => s.up

/-- The server as a machine. -/
def machine (cfg : Config) : Machine Req Resp Str Env AppState Op Report where
  body op := (program cfg op).traced
  exec := exec cfg
  discard := discard
  enabled op s := enabled cfg s op
  tick := tick
  crash := crash
  boot := .boot

@[simp] theorem machine_body (cfg : Config) (op : Op) : (machine cfg).body op = (program cfg op).traced := rfl
@[simp] theorem machine_exec (cfg : Config) : (machine cfg).exec = exec cfg := rfl
@[simp] theorem machine_discard (cfg : Config) : (machine cfg).discard = discard := rfl
@[simp] theorem machine_tick (cfg : Config) : (machine cfg).tick = tick := rfl
@[simp] theorem machine_crash (cfg : Config) : (machine cfg).crash = crash := rfl
@[simp] theorem machine_boot (cfg : Config) : (machine cfg).boot = .boot := rfl

/-- A server with its tasks. -/
abbrev Server := Sys Req Resp Str AppState Op Report

/-- A server without tasks. -/
def Server.idle (s : AppState) : Server :=
  ⟨⟨s, fun _ => none, 0⟩, fun _ => none⟩

end Almond
