import Almond.Lemmas.TrustNetworkAux

/-! # Who is in the web of trust -/

namespace Almond.TrustNetwork

open Counting

/-- The keys that any of the owners follows. -/
def anyFollows (contacts : PublicKey → List PublicKey) (owners : List PublicKey) : Finset PublicKey :=
  (owners.flatMap contacts).toFinset

/-- The number of keys of a set that follow a key. -/
def followerCount (contacts : PublicKey → List PublicKey) (ks : Finset PublicKey) (p : PublicKey) : Nat :=
  (ks.filter fun k => p ∈ contacts k).card

/-- The refresh returns a trusted set. -/
def Returns (keys : Keys) (client : Client) (owners : List PublicKey) (trusted : PublicKey → Prop) : Prop :=
  ∃ m, refreshTrustNetwork keys (.ok client) owners = .ok m ∧ ∀ p, p ∈ m ↔ trusted p

variable {keys : Keys} {toHex : PublicKey → Str} {contacts : PublicKey → List PublicKey} {client : Client}

/-- The trusted keys are those that more than three keys of the first owner's list follow. -/
theorem returns_first (hkeys : keys.Lawful toHex) (h : Serves toHex contacts client) (owner : PublicKey) (owners : List PublicKey) :
    Returns keys client (owner :: owners) fun p => 3 < followerCount contacts (contacts owner).toFinset p := by
  obtain ⟨m, hm, hgrouped⟩ := getFollowers_of_serves h 0 (owner :: owners)
  have hnodup : (namedBy m owner).Nodup := hgrouped.nodup owner
  have hmem := hgrouped.mem_iff owner List.mem_cons_self
  obtain ⟨hparsed, hparse⟩ := nodup_filterMap_parse hkeys (fun text htext => (hmem text).1 htext) hnodup
  have hcount : ∀ text, count ((((namedBy m owner).toChunks 50).zipIdx 1).foldl (queryBatch keys client) ∅) text =
      ((namedBy m owner).filterMap keys.parse).countP fun a => text ∈ (contacts a).map toHex := by
    intro text
    have hflat := flatten_toChunks 50 (namedBy m owner)
    have hkeysOf : ∀ text ∈ ((namedBy m owner).toChunks 50).flatten, text ∈ (contacts owner).map toHex := by
      intro text htext
      rw [hflat] at htext
      exact (hmem text).1 htext
    have hbatches : ∀ batch ∈ (namedBy m owner).toChunks 50, batch.Nodup := by
      intro batch hbatch
      rw [← hflat] at hnodup
      exact (List.nodup_flatten.1 hnodup).1 batch hbatch
    rw [count_foldl_queryBatch hkeys h hkeysOf hbatches, hflat, count_empty, Nat.zero_add]
  refine ⟨trustedPubkeys keys ((((namedBy m owner).toChunks 50).zipIdx 1).foldl (queryBatch keys client) ∅), ?_, fun p => ?_⟩
  · unfold refreshTrustNetwork
    change (Except.mapError Failure.error (getFollowers (client 0) (owner :: owners))).bind _ = _
    rw [hm]
    rfl
  · change _ ↔ 3 < ((contacts owner).toFinset.filter fun k => p ∈ contacts k).card
    rw [mem_trustedPubkeys hkeys, hcount]
    · have hset : (((namedBy m owner).filterMap keys.parse).filter fun a => toHex p ∈ (contacts a).map toHex).toFinset =
          (contacts owner).toFinset.filter fun k => p ∈ contacts k := by
        ext a
        simp only [List.mem_toFinset, List.mem_filter, Finset.mem_filter, decide_eq_true_eq, hparse, hmem, List.mem_map_of_injective hkeys.injective]
      rw [← hset, List.toFinset_card_of_nodup (hparsed.filter _), List.countP_eq_length_filter]
    · intro text htext
      rw [hcount, List.countP_pos_iff] at htext
      obtain ⟨a, _, ha⟩ := htext
      obtain ⟨k, _, hk⟩ := List.mem_map.1 (of_decide_eq_true ha)
      exact ⟨k, hk.symm⟩

/-! ## A pool that serves every list -/

/-- The contact list of a key as an event. -/
def contactEvent (toHex : PublicKey → Str) (contacts : PublicKey → List PublicKey) (author : PublicKey) : Event where
  id := []
  pubkey := author
  createdAt := 0
  kind := contactList
  tags := (contacts author).map fun k => ⟨"p".toList, some (toHex k)⟩
  content := []
  sig := []

/-- A pool of relays that has the contact list of every key. -/
def serving (toHex : PublicKey → Str) (contacts : PublicKey → List PublicKey) : Client :=
  fun _ filter => .ok (filter.authors.map (contactEvent toHex contacts))

/-- Its events name the keys of the lists. -/
theorem followersOf_contactEvent (author : PublicKey) :
    followersOf (contactEvent toHex contacts author) = (contacts author).map toHex := by
  simp only [followersOf, contactEvent]
  induction contacts author with
  | nil => rfl
  | cons k ks ih =>
    simp only [List.map_cons, List.filter_cons, decide_true, if_true, List.filterMap_cons, ih]

/-- It returns the lists asked for. -/
theorem serving_serves : Serves toHex contacts (serving toHex contacts) := by
  refine ⟨fun i authors limit => ⟨authors.map (contactEvent toHex contacts), rfl, ?_, ?_⟩⟩
  · intro event hevent
    obtain ⟨author, hauthor, rfl⟩ := List.mem_map.1 hevent
    exact hauthor
  · intro author hauthor text
    constructor
    · rintro ⟨event, hevent, rfl, htext⟩
      obtain ⟨a, _, rfl⟩ := List.mem_map.1 hevent
      rwa [followersOf_contactEvent] at htext
    · intro htext
      refine ⟨contactEvent toHex contacts author, List.mem_map_of_mem hauthor, rfl, ?_⟩
      rwa [followersOf_contactEvent]

/-! ## The order of the owners -/

/-- More keys give more followers. -/
theorem followerCount_mono {ks ks' : Finset PublicKey} (h : ks ⊆ ks') (p : PublicKey) :
    followerCount contacts ks p ≤ followerCount contacts ks' p :=
  Finset.card_le_card (Finset.filter_subset_filter _ h)

/-- The web of trust is that of all owners, for every order of these, exactly when each key that more than three of the keys that any
owner follows follow is followed by more than three of those that each owner alone follows. -/
theorem trust_network_iff (hkeys : keys.Lawful toHex) {owners : List PublicKey} (hne : owners ≠ []) :
    (∀ client, Serves toHex contacts client → ∀ permuted : List PublicKey, permuted.Perm owners →
        Returns keys client permuted fun p => 3 < followerCount contacts (anyFollows contacts owners) p) ↔
      ∀ owner ∈ owners, ∀ p, 3 < followerCount contacts (anyFollows contacts owners) p →
        3 < followerCount contacts (contacts owner).toFinset p := by
  have hsub : ∀ owner ∈ owners, (contacts owner).toFinset ⊆ anyFollows contacts owners := by
    intro owner howner k hk
    exact List.mem_toFinset.2 (List.mem_flatMap.2 ⟨owner, howner, List.mem_toFinset.1 hk⟩)
  constructor
  · intro h owner howner p hp
    -- Every owner is the first one in some order.
    obtain ⟨m, hm, hall⟩ := h _ serving_serves (owner :: owners.erase owner) (List.perm_cons_erase howner).symm
    have hserves : Serves toHex contacts (serving toHex contacts) := serving_serves
    obtain ⟨m', hm', hfirst⟩ := returns_first hkeys hserves owner (owners.erase owner)
    rw [hm, Except.ok.injEq] at hm'
    subst hm'
    exact (hfirst p).1 ((hall p).2 hp)
  · intro h client hclient permuted hperm
    cases permuted with
    | nil => exact absurd hperm.symm.eq_nil hne
    | cons owner others =>
      have howner : owner ∈ owners := hperm.subset List.mem_cons_self
      obtain ⟨m, hm, hfirst⟩ := returns_first hkeys hclient owner others
      exact ⟨m, hm, fun p => (hfirst p).trans ⟨fun hp => lt_of_lt_of_le hp (followerCount_mono (hsub owner howner) p), h owner howner p⟩⟩

end Almond.TrustNetwork

namespace Almond.Sample

open TrustNetwork

/-- Keys that are given by their hexadecimal texts. -/
def hexKeys : Keys := ⟨some, some⟩

/-- They are read as they are written. -/
theorem hexKeys_lawful : hexKeys.Lawful id := ⟨fun _ => rfl, fun _ => rfl⟩

/-- A key, by a digit of its text. -/
def pubkey (digit : Char) : PublicKey := List.replicate 64 digit

/-- The owner `b` follows four keys, all of which follow `1`, and the owner `a` follows nobody. -/
def twoOwners (k : PublicKey) : List PublicKey :=
  if k = pubkey 'b' then [pubkey '2', pubkey '3', pubkey '4', pubkey '5']
  else if k ∈ [pubkey '2', pubkey '3', pubkey '4', pubkey '5'] then [pubkey '1']
  else []

end Almond.Sample

namespace Almond.TrustNetwork

open Sample in
/-- The owner `b` alone. -/
theorem trust_network_iff_single :
    (∀ client, Serves id twoOwners client → ∀ permuted : List PublicKey, permuted.Perm [pubkey 'b'] →
        Returns hexKeys client permuted fun p => 3 < followerCount twoOwners (anyFollows twoOwners [pubkey 'b']) p) ↔
      ∀ owner ∈ [pubkey 'b'], ∀ p, 3 < followerCount twoOwners (anyFollows twoOwners [pubkey 'b']) p →
        3 < followerCount twoOwners (twoOwners owner).toFinset p :=
  trust_network_iff hexKeys_lawful (List.cons_ne_nil _ _)

open Sample in
/-- With the owner `a` first, the keys that the owner `b` follows do not count. -/
theorem trust_network_false :
    ¬ ∀ client, Serves id twoOwners client → ∀ permuted : List PublicKey, permuted.Perm [pubkey 'a', pubkey 'b'] →
      Returns hexKeys client permuted fun p => 3 < followerCount twoOwners (anyFollows twoOwners [pubkey 'a', pubkey 'b']) p := by
  intro h
  obtain ⟨m, hm, hall⟩ := h _ serving_serves [pubkey 'a', pubkey 'b'] (List.Perm.refl _)
  have hserves : Serves id twoOwners (serving id twoOwners) := serving_serves
  obtain ⟨m', hm', hfirst⟩ := returns_first hexKeys_lawful hserves (pubkey 'a') [pubkey 'b']
  rw [hm, Except.ok.injEq] at hm'
  subst hm'
  have hfour : 3 < followerCount twoOwners (anyFollows twoOwners [pubkey 'a', pubkey 'b']) (pubkey '1') := by decide
  exact absurd ((hfirst _).1 ((hall _).2 hfour)) (by decide)

end Almond.TrustNetwork
