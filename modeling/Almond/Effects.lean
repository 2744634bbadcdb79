import Almond.Conc.Logic
import Almond.BlobIndex
import Almond.ChunkSessions
import Almond.Disk
import Almond.Bucket
import Almond.Http

/-! # The application state and the requests of its tasks

An `async` function of the program is a task over these requests. Between two requests of one task the others run; one request is
atomic. A dropped future's pending request either has taken effect or never does. -/

namespace Almond

open Conc (Tid Task)

/-- The two clocks of the process, in nanoseconds. -/
structure Clock where
  /-- `SystemTime`: it can be set to anything. -/
  system : Nat
  /-- `Instant`: it never goes back. -/
  instant : Nat
  deriving DecidableEq, Repr

/-- The whole seconds of a time in nanoseconds. -/
def asSecs (ns : Nat) : Nat :=
  ns / 1000000000

/-- The mutable state: the disk, the bucket and the wallet outside the process, and what the process keeps in memory. `tickets`,
`temps` and `writing` are the values with an owner that the running futures hold: session reservations, temporary blobs and files
open for writing. -/
structure AppState where
  disk : Disk
  bucket : Bucket
  clock : Clock
  /-- The number of identifiers that were generated. -/
  uuids : Nat
  /-- The amounts the wallet received, with the request that sent them. -/
  receipts : List (Tid × Nat)
  s3Status : S3Status
  index : BlobIndex
  superseded : List (Str × FileMetadata)
  sessions : SessionState
  trustedPubkeys : List PublicKey
  dvmPubkeys : List PublicKey
  /-- The events of destructive requests that were seen, with their expirations. -/
  destructiveEventReplays : AList fun _ : Str => Nat
  tickets : List (Tid × ChunkUploadKey)
  temps : List (Tid × Path)
  writing : List (Tid × Path)
  /-- Whether the server accepts requests. -/
  up : Bool

/-! ## Requests -/

/-- The operations on the index, one lock acquisition each. -/
inductive IndexReq where
  | get (sha256 : Str)
  | contains (sha256 : Str)
  | insert (key : Str) (metadata : FileMetadata)
  | publish (key : Str) (metadata : FileMetadata)
  | removeIfLocationMatches (sha256 : Str) (location : FileLocation)
  | replace (map : AList fun _ : Str => FileMetadata)
  | stats
  | snapshot
  | page (since until' : Nat) (author : Option PublicKey) (cursor : Option Str) (limit : Nat)

/-- What each operation on the index returns. -/
@[reducible] def IndexReq.Resp : IndexReq → Type
  | .get _ => Option FileMetadata
  | .contains _ | .removeIfLocationMatches _ _ => Bool
  | .insert _ _ | .replace _ => Unit
  | .publish _ _ => PublishResult
  | .stats => IndexStats
  | .snapshot | .page _ _ _ _ _ => List (Str × FileMetadata)

/-- One operation on the index. -/
def IndexReq.exec (i : BlobIndex) : (r : IndexReq) → r.Resp × BlobIndex
  | .get sha256 => (i.get sha256, i)
  | .contains sha256 => (i.contains sha256, i)
  | .insert key metadata => ((), i.insert key metadata)
  | .publish key metadata => i.publish key metadata
  | .removeIfLocationMatches sha256 location => i.removeIfLocationMatches sha256 location
  | .replace map => ((), i.replace map)
  | .stats => (i.stats, i)
  | .snapshot => (i.snapshot, i)
  | .page since until' author cursor limit => (i.page since until' author cursor limit, i)

/-- The operations on the session registry, one lock acquisition each. -/
inductive SessionReq where
  | reserve (key : ChunkUploadKey)
  | release (key : ChunkUploadKey)
  | commit (key : ChunkUploadKey) (params : SessionParams) (chunk : ChunkInfo)
  | restore (key : ChunkUploadKey) (upload : ChunkUpload)
  | evictOlderThan (age : Nat)

/-- What each operation on the session registry returns. -/
@[reducible] def SessionReq.Resp : SessionReq → Type
  | .reserve _ => Reservation
  | .release _ => Unit
  | .commit _ _ _ => Commit
  | .restore _ _ => Bool
  | .evictOlderThan _ => List ChunkUpload

/-- One operation on the session registry, with the tickets it hands out and takes back. -/
def SessionReq.exec (limits : SessionLimits) (t : Tid) (now : Nat) (st : SessionState)
    (tickets : List (Tid × ChunkUploadKey)) : (r : SessionReq) → r.Resp × SessionState × List (Tid × ChunkUploadKey)
  | .reserve key =>
    match st.reserve limits key with
    | (.granted, st) => (.granted, st, (t, key) :: tickets)
    | (refused, st) => (refused, st, tickets)
  | .release key => ((), st.release key, tickets.erase (t, key))
  | .commit key params chunk =>
    let (outcome, st) := st.commit key params chunk now
    (outcome, st, tickets.erase (t, key))
  | .restore key upload =>
    let (restored, st) := st.restore key upload
    (restored, st, tickets)
  | .evictOlderThan age =>
    let (evicted, st) := st.evictOlderThan age now
    (evicted, st, tickets)

/-- A response to a fetch from another server: its headers and its body, frame by frame. -/
structure Fetched where
  contentType : Str
  contentLength : Option Nat
  frames : List (Except AppError Bytes)

/-- The requests of the tasks. -/
inductive Req where
  | fs (r : FsReq)
  /-- The end of the scope of a file that was open for writing. -/
  | closeFile (p : Path)
  | s3 (r : S3Req)
  | s3Status
  | setS3Status (status : S3Status)
  | index (r : IndexReq)
  | takeSuperseded
  | queueSuperseded (sha256 : Str) (metadata : FileMetadata)
  | extendSuperseded (retry : List (Str × FileMetadata))
  | sessions (r : SessionReq)
  /-- `TempBlob::reserve`. -/
  | reserveTemp (dir : Path) (namePrefix : Str) (extension : Option Str)
  /-- `TempBlob::adopt`. -/
  | adoptTemp (p : Path)
  /-- `TempBlob::into_published`. -/
  | intoPublished (p : Path)
  /-- The end of the scope of a `TempBlob`: it is unlinked unless it was published. -/
  | dropTemp (p : Path)
  | uuid
  /-- The wall clock, in nanoseconds. -/
  | systemTime
  /-- Waiting for the next frame of a body. -/
  | nextFrame
  | isTrusted (pubkey : PublicKey)
  | isDvm (pubkey : PublicKey)
  | checkDvmAnnouncement (pubkey : PublicKey)
  | insertDvm (pubkey : PublicKey)
  /-- The critical section of `consume_single_use`; returns whether the event was seen before. -/
  | consumeReplay (eventId : Str) (expiresAt now : Nat)
  /-- The swap of a token at the mint. -/
  | receiveToken (token : Str)
  | fetchFromUrl (url : Str)
  | getServeFile (sha256 : Str)
  /-- The walk over the upstream servers: a response, or the error of a miss. -/
  | fetchFromUpstream (filename : Str)
  /-- The end of the initialization. -/
  | ready

/-- What each request returns. -/
@[reducible] def Resp : Req → Type
  | .fs r => r.Resp
  | .s3 r => r.Resp
  | .s3Status => S3Status
  | .index r => r.Resp
  | .takeSuperseded => List (Str × FileMetadata)
  | .sessions r => r.Resp
  | .reserveTemp _ _ _ => Path
  | .uuid | .systemTime => Nat
  | .isTrusted _ | .isDvm _ | .consumeReplay _ _ _ => Bool
  | .checkDvmAnnouncement _ => Except String Bool
  | .receiveToken _ => Except String Nat
  | .fetchFromUrl _ => AppResult Fetched
  | .getServeFile _ => Option ServeFile
  | .fetchFromUpstream _ => AppResult Response
  | .closeFile _ | .setS3Status _ | .queueSuperseded _ _ | .extendSuperseded _ | .adoptTemp _ | .intoPublished _
  | .dropTemp _ | .nextFrame | .insertDvm _ | .ready => Unit

/-- What the outside decides of one step. -/
structure Env where
  fs : FsEnv
  s3 : S3Env
  /-- The answer of the relays about a DVM. -/
  announced : Except String Bool
  /-- What the mint settles. -/
  settled : Except String Nat
  /-- The answer of another server. -/
  fetched : AppResult Fetched
  /-- The file that is served from outside the storage roots. -/
  serveFile : Option ServeFile
  /-- What the walk over the upstream servers ends with. -/
  upstream : AppResult Response
  /-- The wall clock after the step, and the time that passed on the monotonic one. -/
  system : Nat
  elapsed : Nat

/-- The queue of superseded copies after one more was queued, unless it is there already. -/
def queued (pending : List (Str × FileMetadata)) (sha256 : Str) (metadata : FileMetadata) : List (Str × FileMetadata) :=
  if pending.any fun p => p.1 = sha256 && p.2.location = metadata.location then pending
  else pending ++ [(sha256, metadata)]

/-- The name of a temporary blob. -/
def tempName (namePrefix : Str) (uuid : Nat) (extension : Option Str) : Str :=
  namePrefix ++ '_' :: decimal uuid ++ match extension with
    | some extension => '.' :: extension
    | none => []

/-- The files open for writing after a file operation. -/
def writers (t : Tid) (env : Env) (s : AppState) : FsReq → List (Tid × Path)
  | .createFile p =>
    if (s.disk.exec env.fs s.clock.system (.createFile p)).1.isOk then (t, p) :: s.writing else s.writing
  | _ => s.writing

/-- One request of a task. -/
def exec (cfg : Config) (t : Tid) : (r : Req) → Env → AppState → Resp r × AppState
  | .fs r, env, s =>
    let (x, disk) := s.disk.exec env.fs s.clock.system r
    (x, { s with disk := disk, writing := writers t env s r })
  | .closeFile p, _, s => ((), { s with writing := s.writing.erase (t, p) })
  | .s3 r, env, s =>
    let (x, bucket) := Bucket.exec s.bucket env.s3 (asSecs s.clock.system) (fun ino => (s.disk.nodes ino).data) r
    (x, { s with bucket := bucket })
  | .s3Status, _, s => (s.s3Status, s)
  | .setS3Status status, _, s => ((), { s with s3Status := status })
  | .index r, _, s =>
    let (x, index) := r.exec s.index
    (x, { s with index := index })
  | .takeSuperseded, _, s => (s.superseded, { s with superseded := [] })
  | .queueSuperseded sha256 metadata, _, s => ((), { s with superseded := queued s.superseded sha256 metadata })
  | .extendSuperseded retry, _, s => ((), { s with superseded := s.superseded ++ retry })
  | .sessions r, _, s =>
    let (x, sessions, tickets) := r.exec cfg.sessionLimits t s.clock.instant s.sessions s.tickets
    (x, { s with sessions := sessions, tickets := tickets })
  | .reserveTemp dir namePrefix extension, _, s =>
    let p := dir ++ [tempName namePrefix s.uuids extension]
    (p, { s with uuids := s.uuids + 1, temps := (t, p) :: s.temps })
  | .adoptTemp p, _, s => ((), { s with temps := (t, p) :: s.temps })
  | .intoPublished p, _, s => ((), { s with temps := s.temps.erase (t, p) })
  | .dropTemp p, _, s =>
    ((), if s.temps.contains (t, p) then { s with disk := s.disk.unlink p, temps := s.temps.erase (t, p) } else s)
  | .uuid, _, s => (s.uuids, { s with uuids := s.uuids + 1 })
  | .systemTime, _, s => (s.clock.system, s)
  | .nextFrame, _, s => ((), s)
  | .isTrusted pubkey, _, s => (s.trustedPubkeys.contains pubkey, s)
  | .isDvm pubkey, _, s => (s.dvmPubkeys.contains pubkey, s)
  | .checkDvmAnnouncement _, env, s => (env.announced, s)
  | .insertDvm pubkey, _, s => ((), { s with dvmPubkeys := pubkey :: s.dvmPubkeys })
  | .receiveToken _, env, s =>
    (env.settled, match env.settled with
      | .ok amount => { s with receipts := (t, amount) :: s.receipts }
      | .error _ => s)
  | .consumeReplay eventId expiresAt now, _, s =>
    let seen := retain (fun _ expiry => now ≤ expiry) s.destructiveEventReplays
    ((seen.lookup eventId).isSome, { s with destructiveEventReplays := seen.insert eventId expiresAt })
  | .fetchFromUrl _, env, s => (env.fetched, s)
  | .getServeFile _, env, s => (env.serveFile, s)
  | .fetchFromUpstream _, env, s => (env.upstream, s)
  | .ready, _, s => ((), { s with up := true })

/-- The drop of a future: its temporary blobs are unlinked and its files closed. A session reservation has no destructor, so its
ticket is lost while the registry still counts it. -/
def discard (t : Tid) (s : AppState) : AppState :=
  { s with
    disk := (s.temps.filter (·.1 = t)).foldl (fun d p => d.unlink p.2) s.disk
    temps := s.temps.filter (·.1 ≠ t)
    writing := s.writing.filter (·.1 ≠ t)
    tickets := s.tickets.filter (·.1 ≠ t) }

/-- The passing of time. -/
def tick (env : Env) (s : AppState) : AppState :=
  { s with clock := ⟨env.system, s.clock.instant + env.elapsed⟩ }

/-- What survives the end of the process: the disk, the bucket, the wallet and the clocks. -/
def crash (s : AppState) : AppState where
  disk := s.disk
  bucket := s.bucket
  clock := s.clock
  uuids := s.uuids
  receipts := s.receipts
  s3Status := .available
  index := .empty
  superseded := []
  sessions := .empty
  trustedPubkeys := []
  dvmPubkeys := []
  destructiveEventReplays := ∅
  tickets := []
  temps := []
  writing := []
  up := false

/-! ## Tasks -/

/-- An `async` function: its locks are the per-hash mutation guards. -/
abbrev Async := Task Req Resp Str

/-- An `async` function that returns an `AppResult`. -/
abbrev AsyncResult := ExceptT AppError Async

/-- Await a request. -/
def request (r : Req) : Async (Resp r) :=
  .perform r

/-- `map_err` and `?` on an awaited operation. -/
def orErr {ε α : Type} (message : ε → AppError) (p : Async (Except ε α)) : AsyncResult α :=
  p.bind fun x => .ret (x.mapError message)

/-- Await a file operation; its error becomes an `IoError`. -/
def orIoErr {α : Type} (message : IoError → String) (p : Async (Except IoError α)) : AsyncResult α :=
  orErr (fun error => .ioError (message error)) p

/-- Await an operation on the bucket; its error becomes a `ServiceUnavailable`. -/
def orS3Err {α : Type} (message : String) (p : Async (Except String α)) : AsyncResult α :=
  orErr (fun error => .serviceUnavailable (message ++ error)) p

/-- Await a file operation. -/
def fs (r : FsReq) : Async r.Resp :=
  request (.fs r)

/-- Await an operation on the bucket. -/
def s3 (r : S3Req) : Async r.Resp :=
  request (.s3 r)

/-- Await an operation on the index. -/
def index (r : IndexReq) : Async r.Resp :=
  request (.index r)

/-- Await an operation on the session registry. -/
def sessions (r : SessionReq) : Async r.Resp :=
  request (.sessions r)

/-- The wall clock, in seconds. -/
def nowSecs : Async Nat := do
  return asSecs (← request .systemTime)

/-- Run a fallible task and go on with its result, whatever it is. -/
def attempt {α : Type} (p : AsyncResult α) : AsyncResult (AppResult α) :=
  ExceptT.mk (p.run.bind fun x => .ret (.ok x))

/-- Return a result, or fail with its error. -/
def ofResult {α : Type} (x : AppResult α) : AsyncResult α :=
  ExceptT.mk (Task.ret x)

/-- Run a fallible task while holding the mutation guard of a hash. -/
def guarded {α : Type} (sha256 : Str) (p : AsyncResult α) : AsyncResult α :=
  ExceptT.mk (Task.withLock sha256 p.run)

end Almond
