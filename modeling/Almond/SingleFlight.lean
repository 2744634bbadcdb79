import Almond.UpstreamServers

/-! # Requests for missing blobs, side by side

Any number of requests run `try_upstream_servers` over the two tables. A request holds the guard of a negotiation that it leads, and that of
a download that it has prepared, until it lets go of them or ends. -/

namespace Almond.SingleFlight

open Conc (Tid HandleId Handles)
open Coalescing Fetch UpstreamServers

/-! ## Requests -/

/-- A request that can share a download: it has no range, or one that starts early enough. -/
structure Request where
  /-- The rounds that the loop of its negotiation is unrolled to. -/
  rounds : Nat
  filename : Str
  headers : Headers
  head : Bool
  customOrigin : Option Str
  xsServers : Option (List Str)
  authorPubkey : Option PublicKey
  coalesces : ((Http.get headers "range").isNone || (coalescibleRangeStart headers).isSome) = true

namespace Request

/-- The key of the blob in the tables. -/
def fileHash (request : Request) : Str :=
  (Serving.getSha256HashFromFilename request.filename).getD request.filename

/-- The program that a request runs. -/
def body (cfg : UpstreamConfig) (request : Request) : Net Answered :=
  tryUpstreamServers cfg request.rounds request.filename request.headers request.head request.customOrigin request.xsServers
    request.authorPubkey

end Request

/-- Whether the headers of a request to a server ask for all bytes of a blob that has so many. -/
def asksForAll (length : Nat) (headers : Headers) : Bool :=
  match Http.str headers "range" with
  | none => true
  | some range =>
    match Http.parseRangeHeader range length with
    | .satisfiable start «end» => start = 0 && «end» + 1 = length
    | .unsatisfiable => length = 0
    | .ignore => true

/-! ## What the requests share -/

/-- The tables with their downloads, and the guards that each request holds. -/
structure Shared where
  registries : Registries
  /-- The downloads that were prepared. -/
  handles : HandleId → DownloadHandle
  written : HandleId → { n : Nat // n ≤ u64Max }
  /-- The guard of the negotiation that a request leads. -/
  negotiation : Tid → Option HandleId
  /-- The guard of the download that a request has prepared. -/
  download : Tid → Option HandleId

namespace Shared

/-- A new process. -/
def empty : Shared :=
  ⟨.empty, fun id => ⟨id, [], none⟩, fun _ => ⟨0, Nat.zero_le _⟩, fun _ => none, fun _ => none⟩

/-- The tables with other negotiations. -/
def setNegotiations (s : Shared) (negotiations : Handles Str NegotiationPhase) : Shared :=
  { s with registries := { s.registries with upstreamNegotiations := negotiations } }

/-- The tables with other downloads. -/
def setDownloads (s : Shared) (downloads : Handles Str DownloadPhase) : Shared :=
  { s with registries := { s.registries with ongoingDownloads := downloads } }

/-- A request holds the guard of the negotiation that it leads. -/
def lead (s : Shared) (t : Tid) : NegotiationClaim → Shared
  | .leader id => { s with negotiation := Function.update s.negotiation t (some id) }
  | .follower _ => s

/-- A request claims the negotiation. -/
def claim (s : Shared) (t : Tid) (fileHash : Str) : NegotiationClaim × Shared :=
  let (claim, negotiations) := claimUpstreamNegotiation s.registries.upstreamNegotiations fileHash
  (claim, (s.setNegotiations negotiations).lead t claim)

/-- A request publishes the last phase of its negotiation; what is left is to remove it from its table. -/
def finish (s : Shared) (t : Tid) (id : HandleId) (phase : NegotiationPhase) : Shared :=
  { s.setNegotiations (s.registries.upstreamNegotiations.finish id phase) with negotiation := Function.update s.negotiation t none }

/-- A request registers a download. -/
def prepare (s : Shared) (t : Tid) (fileHash contentType : Str) (totalLen : Option Nat) : DownloadHandle × Shared :=
  let (id, downloads) := prepareDownloadState s.registries.ongoingDownloads fileHash
  (⟨id, contentType, totalLen⟩,
    { s.setDownloads downloads with
      handles := Function.update s.handles id ⟨id, contentType, totalLen⟩
      written := Function.update s.written id ⟨0, Nat.zero_le _⟩
      download := Function.update s.download t (some id) })

/-- A request lets another task go on with its download. -/
def handOver (s : Shared) (t : Tid) : Shared :=
  { s with download := Function.update s.download t none }

/-- A request drops the download that it has prepared. -/
def dropPrepared (s : Shared) (t : Tid) (id : HandleId) : Shared :=
  (s.setDownloads (s.registries.ongoingDownloads.abandon downloadDropped id)).handOver t

/-- A request ends, and drops the guards that it holds. -/
def release (s : Shared) (t : Tid) : Shared :=
  let s := (s.download t).elim s (s.dropPrepared t)
  { (s.negotiation t).elim s fun id => s.setNegotiations (s.registries.upstreamNegotiations.abandon negotiationDropped id) with
    negotiation := Function.update s.negotiation t none }

end Shared

/-- What the outside decides of one step. -/
structure Outside where
  lookup : Except LookupError (List SocketAddr)
  built : Except String Unit
  sent : Sent
  servers : Except Unit (List Str)
  /-- A wait for a negotiation that is pending times out. -/
  timesOut : Bool
  /-- A file, a stream or a response can be made. -/
  succeeds : Bool

/-- The response to what a task awaits, and what is shared after it. There is none as long as a negotiation is pending and the wait for it
does not time out, and none after the end of an unrolled loop. -/
def exec (t : Tid) (s : Shared) (outside : Outside) : (r : NetReq) → Option (NetResp r × Shared)
  | .lookupHost _ _ => some (outside.lookup, s)
  | .buildClient _ => some (outside.built, s)
  | .send _ _ _ _ => some (outside.sent, s)
  | .fetchUserServerList _ => some (outside.servers, s)
  | .ongoing fileHash => some ((s.registries.ongoingDownloads.entries.lookup fileHash).map s.handles, s)
  | .claim fileHash => some (s.claim t fileHash)
  | .wait id =>
    match s.registries.upstreamNegotiations.phase id with
    | .pending => if outside.timesOut then some (.pending, s) else none
    | phase => some (phase, s)
  | .finishNegotiation id phase => some ((), s.finish t id phase)
  | .progress id => some (⟨s.written id, s.registries.ongoingDownloads.phase id, (s.written id).2⟩, s)
  | .openDownload _ | .tail _ _ _ | .respond => some (outside.succeeds, s)
  | .prepare fileHash contentType totalLen =>
    if outside.succeeds then
      let (handle, s) := s.prepare t fileHash contentType totalLen
      some (some handle, s)
    else some (none, s)
  | .dropPrepared id _ => some ((), s.dropPrepared t id)
  | .runDownload _ _ => some ((), s.handOver t)
  | .panic _ | .nextRound => none

/-! ## The system -/

/-- What the requests share, and what is left of each of them. -/
structure System where
  shared : Shared
  tasks : Tid → Option (Request × Net Answered)

/-- What a step did. -/
inductive Label where
  | arrived (t : Tid) (request : Request)
  | called (t : Tid) (r : NetReq) (x : NetResp r)
  | ended (t : Tid)
  /-- A task of its own did something with a guard, or a download went on. -/
  | settled

namespace System

/-- The process before any request. -/
def init : System :=
  ⟨.empty, fun _ => none⟩

/-- The system in which one request has moved. -/
def put (c : System) (t : Tid) (request : Request) (p : Net Answered) (s : Shared) : System :=
  ⟨s, Function.update c.tasks t (some (request, p))⟩

/-- The system without one request. -/
def erase (c : System) (t : Tid) : System :=
  ⟨c.shared.release t, Function.update c.tasks t none⟩

/-- The step of a request that awaits something. -/
def call (c : System) (t : Tid) (outside : Outside) : Option (Label × System) :=
  match c.tasks t with
  | some (request, .call r k) =>
    (exec t c.shared outside r).map fun (x, s) => (.called t r x, c.put t request (k x) s)
  | _ => none

end System

/-- The steps of the requests, of the downloads that go on without them, and of the tasks that remove handles. -/
inductive Moves (cfg : UpstreamConfig) : System → Label → System → Prop
  | arrive {c t} (request : Request) (ht : c.tasks t = none) :
    Moves cfg c (.arrived t request) (c.put t request (request.body cfg) c.shared)
  | call {c t l c'} (outside : Outside) (h : c.call t outside = some (l, c')) : Moves cfg c l c'
  /-- A request returns, or is dropped. -/
  | stop {c t x} (ht : c.tasks t = some x) : Moves cfg c (.ended t) (c.erase t)
  /-- A guard that a request has begun to finish, or has dropped. -/
  | negotiation {c id negotiations} (hs : NegotiationStep id c.shared.registries.upstreamNegotiations negotiations)
      (hfree : ∀ t, c.shared.negotiation t ≠ some id) : Moves cfg c .settled { c with shared := c.shared.setNegotiations negotiations }
  /-- A guard of a download that goes on without its request. -/
  | download {c id downloads} (hs : DownloadStep id c.shared.registries.ongoingDownloads downloads)
      (hfree : ∀ t, c.shared.download t ≠ some id) : Moves cfg c .settled { c with shared := c.shared.setDownloads downloads }
  /-- A download writes. -/
  | write {c} (id : HandleId) (n : { n : Nat // n ≤ u64Max }) :
      Moves cfg c .settled { c with shared := { c.shared with written := Function.update c.shared.written id n } }

/-- The systems that steps of a kind lead to. -/
inductive Runs (cfg : UpstreamConfig) (ok : System → Label → Prop) : System → Prop
  | init : Runs cfg ok .init
  | step {c l c'} (h : Runs cfg ok c) (hok : ok c l) (hs : Moves cfg c l c') : Runs cfg ok c'

/-! ## Conditions on runs -/

/-- No wait for a negotiation times out. -/
def Patient (_ : System) : Label → Prop
  | .called _ (.wait _) phase => phase ≠ .pending
  | _ => True

/-- A `GET` whose own range asks for all bytes of its blob. -/
structure Request.RangesOverAll (length : Nat) (request : Request) : Prop where
  get : request.head = false
  range : (Http.get request.headers "range").isSome = true
  all : asksForAll length request.headers = true

/-- A response to a request of a task that leaves it nothing to ask for once more: no wait times out; a `GET` whose own range asks for all
bytes finds no download of unknown length; and when it asks a server, the answer tells a length that can be stored. -/
def Agreeable (cfg : UpstreamConfig) (length : Nat) (request : Request) : (r : NetReq) → NetResp r → Prop
  | .wait _, phase => phase ≠ .pending
  | .ongoing _, some handle => request.RangesOverAll length → handle.totalLen.isSome = true
  | .send _ _ _ _, sent => request.RangesOverAll length → ∀ response, sent.result = .ok response → response.isSuccess = true →
      ∃ totalLen, upstreamResponseTotalLen response = some totalLen ∧ totalLen ≤ cfg.maxSizeBytes
  | _, _ => True

/-- A claim does not make its request the leader for a blob that is being downloaded. -/
def Coordinates (st : Registries) : (r : NetReq) → NetResp r → Prop
  | .claim fileHash, .leader _ => ¬ st.Downloading fileHash
  | _, _ => True

/-- Every response is agreeable, and every claim is coordinated. Blobs have the given lengths. -/
def Coordinated (cfg : UpstreamConfig) (lengths : Str → Nat) (c : System) : Label → Prop
  | .called t r x => Coordinates c.shared.registries r x ∧
      ∀ request p, c.tasks t = some (request, p) → Agreeable cfg (lengths request.fileHash) request r x
  | _ => True

end Almond.SingleFlight
