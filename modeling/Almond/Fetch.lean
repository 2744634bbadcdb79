import Almond.Coalescing
import Almond.Conc.Protocol
import Almond.Http

/-! # Fetching from other servers

The program looks a host name up, keeps the addresses that are public, and pins the connection to them. What the resolver, the HTTP client
and the other servers do comes from outside. -/

namespace Almond.Fetch

open Conc (HandleId Task)
open Coalescing (NegotiationClaim NegotiationPhase)

/-! ## Addresses -/

/-- `IpAddr`, by its octets or its segments. -/
inductive IpAddr where
  | v4 (octets : Vector UInt8 4)
  | v6 (segments : Vector UInt16 8)
  deriving DecidableEq, Repr

/-- `SocketAddr`. -/
structure SocketAddr where
  ip : IpAddr
  port : Nat
  deriving DecidableEq, Repr

/-- `Ipv6Addr::to_ipv4_mapped`. -/
def toIpv4Mapped (segments : Vector UInt16 8) : Option (Vector UInt8 4) :=
  if segments[0] = 0 && segments[1] = 0 && segments[2] = 0 && segments[3] = 0 && segments[4] = 0 && segments[5] = 0xffff then
    some #v[(segments[6] >>> 8).toUInt8, segments[6].toUInt8, (segments[7] >>> 8).toUInt8, segments[7].toUInt8]
  else none

/-- The IPv4 addresses that are not globally routable enough for an untrusted fetch target. -/
def isPrivateIpv4 (octets : Vector UInt8 4) : Bool :=
  let a := octets[0]
  let b := octets[1]
  let c := octets[2]
  a = 0 || a = 10 || a = 127 || a ≥ 224 || (a = 100 && (64 ≤ b && b ≤ 127)) || (a = 169 && b = 254) || (a = 172 && (16 ≤ b && b ≤ 31)) ||
    (a = 192 && (b = 0 || b = 168)) || (a = 192 && b = 0 && c = 2) || (a = 198 && (b = 18 || b = 19 || b = 51)) ||
    (a = 203 && b = 0 && c = 113)

/-- Whether an address is not globally routable enough for an untrusted fetch target. -/
def isPrivateIp : IpAddr → Bool
  | .v4 octets => isPrivateIpv4 octets
  | .v6 segments =>
    match toIpv4Mapped segments with
    | some v4 => isPrivateIpv4 v4
    | none =>
      let zeros := segments[0] = 0 && segments[1] = 0 && segments[2] = 0 && segments[3] = 0 && segments[4] = 0 && segments[5] = 0 &&
        segments[6] = 0
      -- `is_loopback`, `is_unspecified`, `is_multicast`, link-local, unique-local, documentation
      (zeros && segments[7] = 1) || (zeros && segments[7] = 0) || segments[0] &&& 0xff00 = 0xff00 || segments[0] &&& 0xffc0 = 0xfe80 ||
        segments[0] &&& 0xfe00 = 0xfc00 || (segments[0] = 0x2001 && segments[1] = 0x0db8)

/-- Whether a host name is one of the FIPS overlay: its last label is `fips`. -/
def isFipsHostname (host : Str) : Bool :=
  ".fips".toList.isSuffixOf ((trimEndMatches '.' host).map Char.toLower)

/-- Whether an address is in `fd00::/8`. -/
def isFipsOverlayIp : IpAddr → Bool
  | .v4 _ => false
  | .v6 segments => segments[0] &&& 0xff00 = 0xfd00

/-- The exemption of the overlay: its host names may lead to its addresses. -/
def isAllowedPrivateUpstreamIp (host : Str) (ip : IpAddr) : Bool :=
  isFipsHostname host && isFipsOverlayIp ip

/-- Whether the program may connect to an address for a host. -/
def admits (host : Str) (ip : IpAddr) : Bool :=
  !isPrivateIp ip || isAllowedPrivateUpstreamIp host ip

/-! ## Requests -/

/-- A URL: what the program and the client read of it, and its text. -/
structure Url where
  scheme : Str
  hostStr : Option Str
  portOrKnownDefault : Option Nat
  serialization : Str
  deriving DecidableEq, Repr

/-- The functions of the libraries for URLs and addresses. -/
structure NetLibs where
  /-- `Url::parse`. -/
  parse : Str → Option Url
  /-- `Url::join`. -/
  join : Url → Str → Option Url
  /-- The address that a text without brackets spells. -/
  parseIp : Str → Option IpAddr
  /-- A status code with its reason phrase. -/
  showStatus : Nat → String

/-- The address of a URL's host that is an address: an IPv6 address is in brackets. -/
def NetLibs.hostAddress (libs : NetLibs) : Str → Option IpAddr
  | '[' :: rest => libs.parseIp (trimEndMatches ']' rest)
  | host => libs.parseIp host

/-- An HTTP client. -/
structure Client where
  /-- Whether it follows redirects. -/
  redirects : Bool
  /-- The addresses that host names are pinned to. -/
  pins : AList fun _ : Str => SocketAddr

/-- `ClientBuilder::resolve`: a later address for a host name takes the place of an earlier one. -/
def Client.resolve (client : Client) (host : Str) (address : SocketAddr) : Client :=
  { client with pins := client.pins.insert host address }

/-- A response of another server. -/
structure HttpResponse where
  status : Nat
  headers : Headers
  contentLength : Option Nat
  deriving DecidableEq, Repr

/-- `StatusCode::is_success`. -/
def HttpResponse.isSuccess (response : HttpResponse) : Bool :=
  200 ≤ response.status && response.status < 300

/-- `StatusCode::is_redirection`. -/
def HttpResponse.isRedirection (response : HttpResponse) : Bool :=
  300 ≤ response.status && response.status < 400

/-- A failed request to another server. -/
structure SendError where
  isTimeout : Bool
  deriving DecidableEq, Repr

/-- What became of a request to another server. -/
structure Sent where
  /-- The answer to the lookup that the client made of its own. -/
  dns : List SocketAddr
  /-- The addresses that the client connected to. -/
  connected : List IpAddr
  result : Except SendError HttpResponse

/-- Why a lookup has no addresses. -/
inductive LookupError where
  | timeout
  | failed
  deriving DecidableEq, Repr

/-- The methods that the program sends. -/
inductive Method where
  | get
  | head
  deriving DecidableEq, Repr

/-- A download as a request finds it in its table. -/
structure DownloadHandle where
  id : HandleId
  contentType : Str
  totalLen : Option Nat
  deriving DecidableEq, Repr

/-- The requests of the code that talks to other servers. -/
inductive NetReq where
  | lookupHost (host : Str) (port : Nat)
  | buildClient (client : Client)
  | send (client : Client) (method : Method) (url : Url) (headers : Headers)
  /-- `fetch_user_server_list`. -/
  | fetchUserServerList (pubkey : PublicKey)
  /-- A look into `ongoing_downloads`. -/
  | ongoing (fileHash : Str)
  | claim (fileHash : Str)
  /-- `wait_for_negotiation`; a wait that times out sees `pending`. -/
  | wait (id : HandleId)
  | finishNegotiation (id : HandleId) (phase : NegotiationPhase)
  /-- The progress of a download. -/
  | progress (id : HandleId)
  /-- The opening of the file of a download; whether it succeeds. -/
  | openDownload (id : HandleId)
  /-- `create_tailing_stream`; whether it succeeds. -/
  | tail (id : HandleId) (start : Nat) (limit : Option Nat)
  /-- `prepare_download_state`; it fails when the file cannot be created. -/
  | prepare (fileHash contentType : Str) (totalLen : Option Nat)
  /-- The end of the scope of a prepared download, whose file is removed if it says so. -/
  | dropPrepared (id : HandleId) (removeFile : Bool)
  /-- `run_download` in a task of its own. -/
  | runDownload (id : HandleId) (countAsServed : Bool)
  /-- The building of a response; whether it succeeds. -/
  | respond
  /-- `panic!`. -/
  | panic (message : String)
  /-- One more round of a loop than the program was unrolled to. -/
  | nextRound

/-- What each request returns. -/
@[reducible] def NetResp : NetReq → Type
  | .lookupHost _ _ => Except LookupError (List SocketAddr)
  | .buildClient _ => Except String Unit
  | .send _ _ _ _ => Sent
  | .fetchUserServerList _ => Except Unit (List Str)
  | .ongoing _ => Option DownloadHandle
  | .claim _ => NegotiationClaim
  | .wait _ => NegotiationPhase
  | .progress _ => DownloadProgress
  | .prepare _ _ _ => Option DownloadHandle
  | .openDownload _ | .tail _ _ _ | .respond => Bool
  | .finishNegotiation _ _ | .dropPrepared _ _ | .runDownload _ _ => Unit
  | .panic _ | .nextRound => Empty

/-- An `async` function that talks to other servers. -/
abbrev Net := Task NetReq NetResp Empty

/-- An `async` function that talks to other servers and returns an `AppResult`. -/
abbrev NetResult := ExceptT AppError Net

/-- Await a request. -/
def ask (r : NetReq) : Net (NetResp r) :=
  .perform r

/-- A panic. -/
def panicking {α : Type} (message : String) : Net α :=
  .call (.panic message) nofun

/-- `map_err` and `?` on an awaited operation. -/
def orErr {ε α : Type} (message : ε → AppError) (p : Net (Except ε α)) : NetResult α :=
  p.bind fun x => .ret (x.mapError message)

/-! ## The mirror fetch -/

/-- What `resolve_public_target` found. -/
structure ResolvedTarget where
  url : Url
  host : Str
  addresses : List SocketAddr
  deriving DecidableEq, Repr

/-- The error of a lookup. -/
def lookupError (host : Str) : LookupError → AppError
  | .timeout => .timeout s!"DNS resolution timeout for {text host}"
  | .failed => .badRequest s!"DNS resolution failed for {text host}"

/-- Whether a URL may be fetched: over HTTPS, or over HTTP in the FIPS overlay. -/
def allowedScheme (scheme host : Str) : Bool :=
  scheme = "https".toList || (scheme = "http".toList && isFipsHostname host)

/-- Parse and resolve a URL once, and keep the addresses that are public. -/
def resolvePublicTarget (libs : NetLibs) (url : Str) : NetResult ResolvedTarget := do
  let some parsed := libs.parse url | throw (.badRequest "Invalid URL format")
  let some host := parsed.hostStr | throw (.badRequest "URL has no hostname")
  if ¬ allowedScheme parsed.scheme host then throw (.badRequest "Only HTTPS URLs are allowed")
  let port := parsed.portOrKnownDefault.getD 443
  let found ← orErr (lookupError host) (ask (.lookupHost host port))
  let addresses := found.filter fun address => admits host address.ip
  if addresses.isEmpty then throw (.badRequest "URL does not resolve to a publicly routable address")
  return ⟨parsed, host, addresses⟩

/-- `validate_url_for_ssrf`. -/
def validateUrlForSsrf (libs : NetLibs) (url : Str) : NetResult Unit := do
  let _ ← resolvePublicTarget libs url
  return ()

/-- `resolve_redirect_url`. -/
def resolveRedirectUrl (libs : NetLibs) (base : Url) (location : Str) : AppResult Str :=
  match libs.join base location with
  | some url => .ok url.serialization
  | none => .error (.badGateway "Upstream redirect has an invalid Location")

/-- `HTTP_REQUEST_MAX_REDIRECTS`. -/
def httpRequestMaxRedirects : Nat :=
  5

/-- The client that is pinned to the addresses of a target. -/
def pinnedClient (target : ResolvedTarget) : Client :=
  target.addresses.foldl (fun client address => client.resolve target.host address) ⟨false, ∅⟩

/-- The error of a request of `fetch_from_url`. -/
def fetchError (error : SendError) : AppError :=
  if error.isTimeout then .badGateway "Upstream request timed out" else .badGateway "Failed to fetch upstream URL"

/-- The loop of `fetch_from_url`, over the numbers of redirects that are left of its range. -/
def fetchHops (libs : NetLibs) : List Nat → Str → NetResult HttpResponse
  | [], _ => ExceptT.mk (panicking "internal error: entered unreachable code: redirect limit returns above")
  | redirects :: range, nextUrl => do
    let target ← resolvePublicTarget libs nextUrl
    let client := pinnedClient target
    orErr (fun error => .internalError s!"Failed to build pinned HTTP client: {error}") (ask (.buildClient client))
    let sent ← ask (.send client .get target.url [])
    let response ← ExceptT.mk (.ret (sent.result.mapError fetchError))
    if response.isSuccess then return response
    if ¬ response.isRedirection then throw (.badGateway s!"Upstream returned status {libs.showStatus response.status}")
    if redirects = httpRequestMaxRedirects then throw (.badGateway "Upstream exceeded redirect limit")
    let some location := Http.str response.headers "location" | throw (.badGateway "Upstream redirect has no valid Location")
    let url ← ExceptT.mk (.ret (resolveRedirectUrl libs target.url location))
    fetchHops libs range url

/-- Fetch a URL over pinned connections, and follow its redirects. -/
def fetchFromUrl (libs : NetLibs) (url : Str) : NetResult HttpResponse :=
  fetchHops libs (List.range (httpRequestMaxRedirects + 1)) url

/-! ## What is known of the resolver and the client -/

/-- The resolver knows no host name in brackets, and an address leads to itself. A client connects to a host that is an address at that
address, to a host name that is pinned at the pinned address, and to another host name at an address that it has looked up. -/
def Answers (libs : NetLibs) : (r : NetReq) → NetResp r → Prop
  | .lookupHost host _, .ok found =>
    (∀ rest, host ≠ '[' :: rest) ∧ ∀ ip, libs.parseIp host = some ip → ∀ address ∈ found, address.ip = ip
  | .send client _ url _, x =>
    ∀ ip ∈ x.connected, ∃ host, url.hostStr = some host ∧
      match libs.hostAddress host, client.pins.lookup host with
      | some literal, _ => ip = literal
      | none, some address => ip = address.ip
      | none, none => ∃ address ∈ x.dns, address.ip = ip
  | _, _ => True

/-- The number of requests that were sent. -/
def sends : List (Task.Event NetReq NetResp) → Nat
  | [] => 0
  | ⟨.send _ _ _ _, _⟩ :: past => sends past + 1
  | _ :: past => sends past

end Almond.Fetch
