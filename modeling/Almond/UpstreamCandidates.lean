import Almond.Fetch

/-! # One candidate at a time

A walk hands out one upstream server after another: the planned candidates first, and then those of the author, whose list is fetched
when it is needed. -/

namespace Almond.UpstreamServers

open Fetch

/-- How blobs that other servers hold are served. -/
inductive UpstreamMode where
  | proxy
  | redirect
  | redirectAndCache
  deriving DecidableEq, Repr

/-- The configured part of the application state that the walks read. -/
structure UpstreamConfig where
  libs : NetLibs
  upstreamServers : List Str
  upstreamMode : UpstreamMode
  featureCustomUpstreamOriginEnabled : FeatureMode
  /-- The most this server stores for a blob that it fetches. -/
  maxSizeBytes : Nat

/-! ## Candidates -/

/-- Where a candidate came from. -/
inductive Tier where
  | customOrigin
  | xsServer
  | configured
  | userServer
  deriving DecidableEq, Repr

/-- One server worth trying, validated and normalized. -/
structure Candidate where
  tier : Tier
  base : Str
  url : Str
  deriving DecidableEq, Repr

/-- Whether a text begins with a scheme. -/
def hasScheme (url : Str) : Bool :=
  "http://".toList.isPrefixOf url || "https://".toList.isPrefixOf url

/-- `normalize_server_url`. -/
def normalizeServerUrl (url : Str) : Str :=
  if hasScheme (trim url) then trim url else "https://".toList ++ trim url

/-- The HTTPS and then the HTTP form of a hint without a scheme. -/
def serverUrlCandidates (url : Str) : List Str :=
  if hasScheme (trim url) then [trim url] else ["https://".toList ++ trim url, "http://".toList ++ trim url]

/-- `validate_upstream_url`. -/
def validateUpstreamUrl (libs : NetLibs) (serverUrl : Str) : NetResult Str := do
  validateUrlForSsrf libs (normalizeServerUrl serverUrl)
  return normalizeServerUrl serverUrl

/-- Add the candidates of one hint that were not seen. -/
def pushHint (planned : List (Tier × Str)) (hint : Tier × Str) : List (Tier × Str) :=
  (serverUrlCandidates hint.2).foldl (fun planned candidate =>
    if planned.any fun e => e.2 = candidate then planned else planned ++ [(hint.1, candidate)]) planned

/-- The raw candidates of the first three tiers, in the order to try. -/
def plan (customOrigin : Option Str) (xsServers : Option (List Str)) (configured : List Str) : List (Tier × Str) :=
  (customOrigin.toList.map (Tier.customOrigin, ·) ++ (xsServers.getD []).map (Tier.xsServer, ·) ++
    configured.map (Tier.configured, ·)).foldl pushHint []

/-- The URL of a blob on a server. -/
def blobUrl (base filename : Str) : Str :=
  trimEndMatches '/' base ++ '/' :: filename

end Almond.UpstreamServers

namespace Almond.UpstreamCandidates

open Fetch UpstreamServers

/-- Where a walk stands. -/
structure Walk where
  filename : Str
  authorPubkey : Option PublicKey
  pending : List (Tier × Str)
  /-- The bases that were handed out. -/
  tried : List Str
  userServersPending : Bool

namespace Walk

/-- The start of a walk. -/
def new (configured : List Str) (filename : Str) (customOrigin : Option Str) (xsServers : Option (List Str))
    (authorPubkey : Option PublicKey) : Walk where
  filename := filename
  authorPubkey := authorPubkey
  pending := plan customOrigin xsServers configured
  tried := []
  userServersPending := authorPubkey.isSome

/-- The candidates of a list of servers. -/
def userCandidates (servers : List Str) : List (Tier × Str) :=
  (servers.flatMap serverUrlCandidates).map (Tier.userServer, ·)

/-- Append the server list of the author, at most once per walk; returns whether anything was added. -/
def takeUserServers (walk : Walk) : Net (Bool × Walk) := do
  if !walk.userServersPending then return (false, walk)
  else
    let walk := { walk with userServersPending := false }
    match walk.authorPubkey with
    | none => return (false, walk)
    | some pubkey =>
      match ← ask (.fetchUserServerList pubkey) with
      | .ok servers =>
        if servers.isEmpty then return (false, walk)
        else return (true, { walk with pending := walk.pending ++ userCandidates servers })
      | .error () => return (false, walk)

/-- The loop of `next` as long as candidates are pending. -/
def popPending (libs : NetLibs) : List (Tier × Str) → Walk → Net (Option Candidate × Walk)
  | [], walk => return (none, { walk with pending := [] })
  | (tier, hint) :: pending, walk => do
    match ← (validateUpstreamUrl libs hint).run with
    | .error _ => popPending libs pending walk
    | .ok base =>
      if base ∈ walk.tried then popPending libs pending walk
      else return (some ⟨tier, base, blobUrl base walk.filename⟩, { walk with pending := pending, tried := base :: walk.tried })

/-- The next server worth trying. The list of the author is taken once, so the loop ends when its candidates are used up. -/
def next (libs : NetLibs) (walk : Walk) : Net (Option Candidate × Walk) := do
  match ← popPending libs walk.pending walk with
  | (some candidate, walk) => return (some candidate, walk)
  | (none, walk) =>
    match ← walk.takeUserServers with
    | (false, walk) => return (none, walk)
    | (true, walk) => popPending libs walk.pending walk

end Walk

end Almond.UpstreamCandidates
