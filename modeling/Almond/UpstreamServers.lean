import Almond.Serving
import Almond.UpstreamCandidates

/-! # Walking the upstream servers

A blob that is not held here is looked for on other servers: those that the request names, those of the configuration, and those of the
author. One server after another is validated and asked. -/

namespace Almond.UpstreamServers

open Conc (HandleId Task)
open Coalescing (NegotiationClaim NegotiationPhase)
open Fetch UpstreamCandidates

/-- The loop `while let Some(candidate) = walk.next().await` as long as candidates are pending, until the caller has an answer. Each round
takes a candidate, so there are no more rounds than candidates. -/
def tryPending {α : Type} (libs : NetLibs) (attempt : Candidate → Net (Option α)) : Nat → Walk → Net (Option α × Walk)
  | 0, walk => return (none, walk)
  | rounds + 1, walk => do
    match ← Walk.popPending libs walk.pending walk with
    | (none, walk) => return (none, walk)
    | (some candidate, walk) =>
      match ← attempt candidate with
      | some answer => return (some answer, walk)
      | none => tryPending libs attempt rounds walk

/-- A walk: the first three tiers, and then the servers of the author. -/
def walk {α : Type} (cfg : UpstreamConfig) (filename : Str) (customOrigin : Option Str) (xsServers : Option (List Str))
    (authorPubkey : Option PublicKey) (attempt : Candidate → Net (Option α)) : Net (Option α) := do
  let walk := Walk.new cfg.upstreamServers filename customOrigin xsServers authorPubkey
  match ← tryPending cfg.libs attempt walk.pending.length walk with
  | (some answer, _) => return some answer
  | (none, walk) =>
    match ← walk.takeUserServers with
    | (false, _) => return none
    | (true, walk) => return (← tryPending cfg.libs attempt walk.pending.length walk).1

/-! ## Requests to a server -/

/-- `SEEK_AHEAD_LIMIT`. -/
def seekAheadLimit : Nat :=
  8 * 1024 * 1024

/-- The start of a range that a sequential download can serve. -/
def coalescibleRangeStart (headers : Headers) : Option Nat := do
  let value ← Http.str headers "range"
  let range ← stripPrefix "bytes=".toList value
  if ',' ∈ range then none
  else
    let (start, _) ← splitOnce '-' range
    let start ← parseU64 start
    if start ≤ seekAheadLimit then some start else none

/-- The first values of some headers, as they are copied to another request. -/
def copyHeaders (names : List String) (headers : Headers) : Headers :=
  names.filterMap fun name => (Http.get headers name).map fun value => (name.toList, value)

/-- `copy_headers_to_reqwest`. -/
def copyHeadersToReqwest (headers : Headers) : Headers :=
  copyHeaders ["user-agent", "accept", "range", "if-range", "if-match", "if-none-match", "if-modified-since", "if-unmodified-since"] headers

/-- `copy_headers_without_range`. -/
def copyHeadersWithoutRange (headers : Headers) : Headers :=
  copyHeaders ["user-agent", "accept", "if-range", "if-match", "if-none-match", "if-modified-since", "if-unmodified-since"] headers

/-- The headers of the first request for a blob: a range that a download can serve becomes the whole blob. -/
def copyHeadersForColdFetch (headers : Headers) : Headers :=
  if (coalescibleRangeStart headers).isSome then copyHeadersWithoutRange headers ++ [("range".toList, "bytes=0-".toList)]
  else copyHeadersToReqwest headers

/-- The client of the upstream servers: it follows no redirects and pins nothing. -/
def upstreamClient : Client :=
  ⟨false, ∅⟩

/-- Send a request to a URL; a text that is no URL is an error of the request. -/
def sendTo (libs : NetLibs) (method : Fetch.Method) (url : Str) (headers : Headers) : Net (Except SendError HttpResponse) := do
  match libs.parse url with
  | none => return .error ⟨false⟩
  | some parsed => return (← ask (.send upstreamClient method parsed headers)).result

/-! ## Answers -/

/-- What a request is answered with. -/
inductive Answer where
  /-- The headers of a download. -/
  | head (handle : DownloadHandle)
  /-- The bytes of a download from a start to an end. -/
  | attached (handle : DownloadHandle) (start : Nat) (limit : Option Nat)
  /-- The range lies outside of the blob. -/
  | unsatisfiable (totalLen : Nat)
  /-- The response of a server. -/
  | proxied (response : HttpResponse)
  /-- A redirect to a server. -/
  | redirected (url : Str)
  deriving DecidableEq, Repr

/-- An answer, or a status code. -/
abbrev Answered := Except Nat Answer

/-- Build a response. -/
def respond (answer : Answer) : Net Answered := do
  if ← ask .respond then return .ok answer else return .error 500

/-- `serve_head_download`. -/
def serveHeadDownload (handle : DownloadHandle) : Net Answered :=
  respond (.head handle)

/-- Open a download and follow it. -/
def serveTail (handle : DownloadHandle) (start : Nat) (limit : Option Nat) : Net Answered := do
  if ← ask (.openDownload handle.id) then
    if ← ask (.tail handle.id start limit) then respond (.attached handle start limit) else return .error 500
  else return .error 500

/-- `serve_non_range_download`. -/
def serveNonRangeDownload (handle : DownloadHandle) : Net Answered :=
  serveTail handle 0 handle.totalLen

/-- Serve a range of a download, unless its length is unknown or the range starts far ahead of what was written. -/
def serveRangeDownload (handle : DownloadHandle) (headers : Headers) : Net (Option Answered) := do
  match handle.totalLen, Http.str headers "range" with
  | some totalLen, some range =>
    match Http.parseRangeHeader range totalLen with
    | .satisfiable start «end» =>
      let snapshot ← ask (.progress handle.id)
      if snapshot.phase = .running ∧ start > saturatingAdd snapshot.written seekAheadLimit then return none
      else return some (← serveTail handle start (some («end» + 1)))
    | .unsatisfiable => return some (← respond (.unsatisfiable totalLen))
    | .ignore => return some (← serveNonRangeDownload handle)
  | _, _ => return none

/-- `serve_existing_download`. -/
def serveExistingDownload (handle : DownloadHandle) (headers : Headers) (head : Bool) : Net (Option Answered) := do
  if head then return some (← serveHeadDownload handle)
  else if (Http.get headers "range").isNone then return some (← serveNonRangeDownload handle)
  else serveRangeDownload handle headers

/-- `proxy_upstream_response`. -/
def proxyUpstreamResponse (response : HttpResponse) : Net Answered :=
  respond (.proxied response)

/-- `proxy_request_to_upstream`: the request of the client is sent to the servers as it is. -/
def proxyRequestToUpstream (cfg : UpstreamConfig) (filename : Str) (headers : Headers) (customOrigin : Option Str)
    (xsServers : Option (List Str)) (authorPubkey : Option PublicKey) : Net Answered := do
  let answer ← walk cfg filename customOrigin xsServers authorPubkey fun candidate => do
    match ← sendTo cfg.libs .get candidate.url (copyHeadersToReqwest headers) with
    | .ok response => if response.isSuccess then return some (← proxyUpstreamResponse response) else return none
    | .error _ => return none
  return answer.getD (.error 404)

/-! ## A server that has the blob -/

/-- `str::rsplit_once`, the text after the last separator. -/
def afterLast (c : Char) (s : Str) : Option Str :=
  (splitOnce c s.reverse).map fun parts => parts.1.reverse

/-- The length of the blob that a response is, or is a part of. -/
def upstreamResponseTotalLen (response : HttpResponse) : Option Nat :=
  (((Http.str response.headers "content-range").bind (afterLast '/')).bind parseU64).or response.contentLength

/-- `extract_content_type_from_response`. -/
def extractContentTypeFromResponse (response : HttpResponse) : Str :=
  (Http.str response.headers "content-type").getD Http.defaultContentType

/-- Finish the negotiation that a request leads, if it leads one. -/
def finishNegotiation (negotiation : Option HandleId) (phase : NegotiationPhase) : Net Unit := do
  match negotiation with
  | some id => ask (.finishNegotiation id phase)
  | none => return ()

/-- Ask a server again, with the range of the client. -/
def proxyOriginalRange (cfg : UpstreamConfig) (fileUrl : Str) (headers : Headers) (negotiation : Option HandleId) : Net Answered := do
  finishNegotiation negotiation .failed
  match ← sendTo cfg.libs .get fileUrl (copyHeadersToReqwest headers) with
  | .ok response => proxyUpstreamResponse response
  | .error _ => return .error 502

/-- `stream_and_save_from_upstream`: serve a response while it is downloaded, or proxy it when it is too large to be stored. -/
def streamAndSaveFromUpstream (cfg : UpstreamConfig) (response : HttpResponse) (prepared : DownloadHandle) (negotiation : Option HandleId) :
    Net Answered := do
  if response.contentLength.any (· > cfg.maxSizeBytes) then
    ask (.dropPrepared prepared.id true)
    finishNegotiation negotiation .failed
    proxyUpstreamResponse response
  else if ← ask (.openDownload prepared.id) then
    if ← ask (.tail prepared.id 0 response.contentLength) then
      match ← respond (.attached prepared 0 response.contentLength) with
      | .ok answer =>
        finishNegotiation negotiation .ready
        ask (.runDownload prepared.id true)
        return .ok answer
      | .error status =>
        ask (.dropPrepared prepared.id false)
        return .error status
    else
      ask (.dropPrepared prepared.id false)
      return .error 500
  else
    ask (.dropPrepared prepared.id true)
    return .error 500

/-- Answer from a download that was just prepared, which then goes on in the background. -/
def answerInBackground (prepared : DownloadHandle) (negotiation : Option HandleId) (answer : Answered) : Net Answered := do
  match answer with
  | .ok answer =>
    finishNegotiation negotiation .ready
    ask (.runDownload prepared.id false)
    return .ok answer
  | .error status =>
    ask (.dropPrepared prepared.id false)
    return .error status

/-- `handle_successful_upstream_response`. -/
def handleSuccessfulUpstreamResponse (cfg : UpstreamConfig) (response : HttpResponse) (fileUrl fileHash : Str) (headers : Headers)
    (head : Bool) (negotiation : Option HandleId) : Net Answered := do
  let contentType := extractContentTypeFromResponse response
  if head then
    match ← ask (.prepare fileHash contentType (upstreamResponseTotalLen response)) with
    | none => return .error 500
    | some prepared => answerInBackground prepared negotiation (← serveHeadDownload prepared)
  else if (Http.get headers "range").isNone then
    match ← ask (.prepare fileHash contentType response.contentLength) with
    | none => return .error 500
    | some prepared => streamAndSaveFromUpstream cfg response prepared negotiation
  else if (coalescibleRangeStart headers).isNone then proxyUpstreamResponse response
  else
    match upstreamResponseTotalLen response with
    | none => proxyOriginalRange cfg fileUrl headers negotiation
    | some totalLen =>
      if totalLen > cfg.maxSizeBytes then proxyOriginalRange cfg fileUrl headers negotiation
      else
        match ← ask (.prepare fileHash contentType (some totalLen)) with
        | none => return .error 500
        | some prepared => answerInBackground prepared negotiation ((← serveRangeDownload prepared headers).getD (.error 416))

/-! ## The walks -/

/-- Answer from a download under way, or proxy a request that it cannot serve. -/
def attachOrProxy (cfg : UpstreamConfig) (handle : DownloadHandle) (filename : Str) (headers : Headers) (head : Bool)
    (customOrigin : Option Str) (xsServers : Option (List Str)) (authorPubkey : Option PublicKey) : Net Answered := do
  match ← serveExistingDownload handle headers head with
  | some answer => return answer
  | none => proxyRequestToUpstream cfg filename headers customOrigin xsServers authorPubkey

/-- The loop that claims the negotiation, unrolled to a number of rounds: it returns an answer, or the negotiation to lead. -/
def negotiate (fileHash : Str) (attach : DownloadHandle → Net Answered) : Nat → Net (Except Answered (Option HandleId))
  | 0 => .call .nextRound nofun
  | rounds + 1 => do
    match ← ask (.claim fileHash) with
    | .leader id => return .ok (some id)
    | .follower id =>
      match ← ask (.wait id) with
      | .ready =>
        match ← ask (.ongoing fileHash) with
        | some handle => return .error (← attach handle)
        | none => negotiate fileHash attach rounds
      | .failed => negotiate fileHash attach rounds
      | .pending => return .ok none

/-- `try_upstream_servers`. -/
def tryUpstreamServers (cfg : UpstreamConfig) (rounds : Nat) (filename : Str) (headers : Headers) (head : Bool)
    (customOrigin : Option Str) (xsServers : Option (List Str)) (authorPubkey : Option PublicKey) : Net Answered := do
  let fileHash := (Serving.getSha256HashFromFilename filename).getD filename
  match ← ask (.ongoing fileHash) with
  | some handle => attachOrProxy cfg handle filename headers head customOrigin xsServers authorPubkey
  | none =>
    let shouldCoalesce := (Http.get headers "range").isNone || (coalescibleRangeStart headers).isSome
    let attach := fun handle => attachOrProxy cfg handle filename headers head customOrigin xsServers authorPubkey
    let negotiation : Net (Except Answered (Option HandleId)) :=
      if shouldCoalesce then negotiate fileHash attach rounds else .ret (.ok none)
    match ← negotiation with
    | .error answer => return answer
    | .ok negotiation =>
      let answer ← walk cfg filename customOrigin xsServers authorPubkey fun candidate => do
        match ← sendTo cfg.libs .get candidate.url (copyHeadersForColdFetch headers) with
        | .ok response =>
          if response.isSuccess then
            return some (← handleSuccessfulUpstreamResponse cfg response candidate.url fileHash headers head negotiation)
          else return none
        | .error _ => return none
      return answer.getD (.error 404)

/-- `start_background_download_for_redirect`. -/
def startBackgroundDownloadForRedirect (cfg : UpstreamConfig) (fileUrl fileHash contentType : Str) : Net Unit := do
  match ← sendTo cfg.libs .get fileUrl [] with
  | .ok response =>
    if response.isSuccess then
      match ← ask (.prepare fileHash contentType response.contentLength) with
      | some prepared => ask (.runDownload prepared.id false)
      | none => return ()
    else return ()
  | .error _ => return ()

/-- `try_head_and_redirect`. The task that downloads in the background is run in place: nothing waits for it, and what it does comes
between the other requests at any place. -/
def tryHeadAndRedirect (cfg : UpstreamConfig) (fileUrl fileHash : Str) (cacheInBackground : Bool) : Net (Option Answered) := do
  match ← sendTo cfg.libs .head fileUrl [] with
  | .ok response =>
    if response.isSuccess then
      if cacheInBackground then
        if (← ask (.ongoing fileHash)).isNone ∧ ¬ response.contentLength.any (· > cfg.maxSizeBytes) then
          startBackgroundDownloadForRedirect cfg fileUrl fileHash (extractContentTypeFromResponse response)
      match ← respond (.redirected fileUrl) with
      | .ok answer => return some (.ok answer)
      | .error _ => return none
    else return none
  | .error _ => return none

/-- `try_upstream_redirect`. -/
def tryUpstreamRedirect (cfg : UpstreamConfig) (filename : Str) (customOrigin : Option Str) (xsServers : Option (List Str))
    (authorPubkey : Option PublicKey) (cacheInBackground : Bool) : Net Answered := do
  let fileHash := (Serving.getSha256HashFromFilename filename).getD filename
  let _ ← ask (.ongoing fileHash)
  let answer ← walk cfg filename customOrigin xsServers authorPubkey fun candidate =>
    tryHeadAndRedirect cfg candidate.url fileHash cacheInBackground
  return answer.getD (.error 404)

end Almond.UpstreamServers
