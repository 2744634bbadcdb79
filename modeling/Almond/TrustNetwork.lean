import Almond.Data.Counting
import Almond.Data.Maps
import Almond.Models

/-! # The web of trust

The keys that the owners of the server trust are found from contact lists: those of the owners name the keys one hop away, and the
lists of these are counted. The relays that hold the contact lists are outside. -/

namespace Almond.TrustNetwork

open Counting

/-- A request for events. -/
structure Filter where
  kinds : List Nat
  authors : List PublicKey
  limit : Nat

/-- `Kind::ContactList`. -/
def contactList : Nat := 3

/-- A pool of relays: what `fetch_events` returns for one filter after another. -/
abbrev Client := Nat → Filter → Except String (List Event)

/-- The texts of a public key, as the Nostr library reads them. -/
structure Keys where
  /-- `PublicKey::parse`: hexadecimal or bech32. -/
  parse : Str → Option PublicKey
  /-- `PublicKey::from_hex`. -/
  fromHex : Str → Option PublicKey

/-- Why a refresh ends without a result. -/
inductive Failure where
  | error (message : String)
  | panicked
  deriving DecidableEq, Repr

/-! ## Contact lists -/

/-- `followers.sort(); followers.dedup()`. -/
def sortAndDedup (followers : List Str) : List Str :=
  sortDedup (fun a b => strLe a b = true) followers

/-- The texts of the `p` tags of an event. -/
def followersOf (event : Event) : List Str :=
  (event.tags.filter fun t => t.kind = "p".toList).filterMap Tag.content

/-- The followers of an event join those that its author has already. -/
def aggregate (followersByPubkey : AList fun _ : PublicKey => List Str) (event : Event) : AList fun _ : PublicKey => List Str :=
  let existing := (followersByPubkey.lookup event.pubkey).getD []
  followersByPubkey.insert event.pubkey (existing ++ sortAndDedup (followersOf event))

/-- Fetch the contact lists of several keys, by key. -/
def getFollowers (fetchEvents : Filter → Except String (List Event)) (pubkeys : List PublicKey) :
    Except String (AList fun _ : PublicKey => List Str) := do
  let events ← fetchEvents { kinds := [contactList], authors := pubkeys, limit := 300 }
  return Maps.mapValues sortAndDedup (events.foldl aggregate ∅)

/-! ## The graph -/

/-- Every follower of every author is counted once more. -/
def countFollowers (counts : AList fun _ : Str => Nat) (followersByPubkey : AList fun _ : PublicKey => List Str) :
    AList fun _ : Str => Nat :=
  (followersByPubkey.entries.map Sigma.snd).foldl (fun counts followers => followers.foldl increment counts) counts

/-- One batch of the keys one hop away. A batch that cannot be fetched is passed over. -/
def queryBatch (keys : Keys) (client : Client) (counts : AList fun _ : Str => Nat) (batch : List Str × Nat) : AList fun _ : Str => Nat :=
  match getFollowers (client batch.2) (batch.1.filterMap keys.parse) with
  | .ok followersByPubkey => countFollowers counts followersByPubkey
  | .error _ => counts

/-- The keys with more than three followers. -/
def trustedPubkeys (keys : Keys) (counts : AList fun _ : Str => Nat) : AList fun _ : PublicKey => Nat :=
  ((counts.entries.filter fun e => e.2 > 3).filterMap fun e => (keys.fromHex e.1).map fun pk => (pk, e.2)).foldl
    (fun trusted e => trusted.insert e.1 e.2) ∅

/-- Refresh the web of trust. `pool` is what `create_pool` returns; the first request of its client is for the owners. -/
def refreshTrustNetwork (keys : Keys) (pool : Except String Client) (ownerPubkeys : List PublicKey) :
    Except Failure (AList fun _ : PublicKey => Nat) := do
  let client ← pool.mapError .error
  let oneHopNetwork ← (getFollowers (client 0) ownerPubkeys).mapError .error
  -- The keys one hop away are those of the first owner.
  let owner :: _ := ownerPubkeys | throw .panicked
  let followers := (oneHopNetwork.lookup owner).getD []
  return trustedPubkeys keys (((followers.toChunks 50).zipIdx 1).foldl (queryBatch keys client) ∅)

end Almond.TrustNetwork
