import Almond.Lemmas.IndexAux
import Almond.TrustNetwork
import Mathlib.Data.Finset.Card

/-! # Contact lists and the counts of followers -/

namespace Almond.TrustNetwork

open Counting

instance : Std.Total fun a b : Str => strLe a b = true := ⟨strLe_total⟩

instance : IsTrans Str fun a b : Str => strLe a b = true := ⟨fun _ _ _ => strLe_trans⟩

instance : Std.Antisymm fun a b : Str => strLe a b = true := ⟨fun _ _ => strLe_antisymm⟩

/-! ## The answers of the relays -/

/-- How the Nostr library reads the hexadecimal text of a key. -/
structure Keys.Lawful (keys : Keys) (toHex : PublicKey → Str) : Prop where
  parse : ∀ k, keys.parse (toHex k) = some k
  fromHex : ∀ k, keys.fromHex (toHex k) = some k

/-- Different keys have different texts. -/
theorem Keys.Lawful.injective {keys : Keys} {toHex : PublicKey → Str} (h : keys.Lawful toHex) : Function.Injective toHex := by
  intro k k' hk
  have hsome := h.fromHex k
  rw [hk, h.fromHex] at hsome
  exact (Option.some.inj hsome).symm

/-- The relays return the contact lists asked for: the events are of the authors asked for, and those of one author name the keys of
its list. -/
structure Serves (toHex : PublicKey → Str) (contacts : PublicKey → List PublicKey) (client : Client) : Prop where
  answers : ∀ i authors limit, ∃ events, client i { kinds := [contactList], authors, limit } = .ok events ∧
    (∀ event ∈ events, event.pubkey ∈ authors) ∧
    ∀ author ∈ authors, ∀ text, (∃ event ∈ events, event.pubkey = author ∧ text ∈ followersOf event) ↔ text ∈ (contacts author).map toHex

/-- The followers that a map has for a key. -/
def namedBy (followersByPubkey : AList fun _ : PublicKey => List Str) (pubkey : PublicKey) : List Str :=
  (followersByPubkey.lookup pubkey).getD []

/-- The followers after one more event. -/
theorem mem_namedBy_aggregate {m : AList fun _ : PublicKey => List Str} {event : Event} {a : PublicKey} {text : Str} :
    text ∈ namedBy (aggregate m event) a ↔ text ∈ namedBy m a ∨ event.pubkey = a ∧ text ∈ followersOf event := by
  by_cases ha : event.pubkey = a
  · subst ha
    simp only [namedBy, aggregate, AList.lookup_insert, Option.getD_some, List.mem_append, sortAndDedup, mem_sortDedup, true_and]
  · simp only [namedBy, aggregate, AList.lookup_insert_ne (Ne.symm ha), ha, false_and, or_false]

/-- The followers after several events, by induction on these. -/
theorem mem_namedBy_foldl_aggregate {events : List Event} {m : AList fun _ : PublicKey => List Str} {a : PublicKey} {text : Str} :
    text ∈ namedBy (events.foldl aggregate m) a ↔
      text ∈ namedBy m a ∨ ∃ event ∈ events, event.pubkey = a ∧ text ∈ followersOf event := by
  induction events generalizing m with
  | nil => simp
  | cons event events ih =>
    rw [List.foldl_cons, ih, mem_namedBy_aggregate, or_assoc]
    simp only [List.exists_mem_cons_iff]

/-- The authors of a map are those of its events. -/
theorem mem_foldl_aggregate {events : List Event} {m : AList fun _ : PublicKey => List Str} {a : PublicKey}
    (h : a ∈ events.foldl aggregate m) : a ∈ m ∨ ∃ event ∈ events, event.pubkey = a := by
  induction events generalizing m with
  | nil => exact .inl h
  | cons event events ih =>
    rcases ih h with h | ⟨e, he, ha⟩
    · rcases (AList.mem_insert _).1 h with rfl | h
      · exact .inr ⟨event, List.mem_cons_self, rfl⟩
      · exact .inl h
    · exact .inr ⟨e, List.mem_cons_of_mem _ he, ha⟩

/-- What `getFollowers` returns when the relays return the contact lists: a map of the keys asked for, with each list once. -/
structure Grouped (toHex : PublicKey → Str) (contacts : PublicKey → List PublicKey) (pubkeys : List PublicKey)
    (followersByPubkey : AList fun _ : PublicKey => List Str) : Prop where
  asked : ∀ a ∈ followersByPubkey, a ∈ pubkeys
  nodup : ∀ a, (namedBy followersByPubkey a).Nodup
  mem_iff : ∀ a ∈ pubkeys, ∀ text, text ∈ namedBy followersByPubkey a ↔ text ∈ (contacts a).map toHex

variable {toHex : PublicKey → Str} {contacts : PublicKey → List PublicKey} {client : Client} {keys : Keys}

/-- The contact lists are fetched and grouped by key. -/
theorem getFollowers_of_serves (h : Serves toHex contacts client) (i : Nat) (pubkeys : List PublicKey) :
    ∃ m, getFollowers (client i) pubkeys = .ok m ∧ Grouped toHex contacts pubkeys m := by
  obtain ⟨events, hevents, hauthors, hlists⟩ := h.answers i pubkeys 300
  have hnamed : ∀ a, namedBy (Maps.mapValues sortAndDedup (events.foldl aggregate ∅)) a =
      sortAndDedup (namedBy (events.foldl aggregate ∅) a) := by
    intro a
    simp only [namedBy, Maps.lookup_mapValues]
    cases (events.foldl aggregate ∅).lookup a with
    | none => rfl
    | some followers => rfl
  refine ⟨Maps.mapValues sortAndDedup (events.foldl aggregate ∅), ?_, ?_, ?_, ?_⟩
  · simp only [getFollowers, hevents]
    rfl
  · intro a ha
    have hmem : a ∈ events.foldl aggregate ∅ := by
      rw [← AList.lookup_isSome, Maps.lookup_mapValues, Option.isSome_map] at ha
      exact AList.lookup_isSome.1 ha
    rcases mem_foldl_aggregate hmem with h | ⟨event, hevent, rfl⟩
    · exact absurd h (AList.notMem_empty a)
    · exact hauthors event hevent
  · intro a
    rw [hnamed]
    exact nodup_sortDedup _ _
  · intro a ha text
    rw [hnamed, sortAndDedup, mem_sortDedup, mem_namedBy_foldl_aggregate, ← hlists a ha]
    simp [namedBy]

/-! ## The counts -/

/-- The keys of a grouped map that name a text are the keys asked for whose list has it. -/
theorem countP_entries {m : AList fun _ : PublicKey => List Str} {pubkeys : List PublicKey} (h : Grouped toHex contacts pubkeys m)
    (hnodup : pubkeys.Nodup) (text : Str) :
    (m.entries.map Sigma.snd).countP (text ∈ ·) = pubkeys.countP fun a => text ∈ (contacts a).map toHex := by
  have hlookup : ∀ e ∈ m.entries, namedBy m e.1 = e.2 := by
    intro e he
    have hsome : m.lookup e.1 = some e.2 := AList.mem_lookup_iff.2 he
    simp only [namedBy, hsome, Option.getD_some]
  -- Both sides count keys without duplicates, so they are the sizes of two sets.
  have hleft : (m.entries.map Sigma.snd).countP (text ∈ ·) = (m.keys.filter fun a => text ∈ namedBy m a).length := by
    rw [AList.keys, List.keys, List.countP_map, ← List.countP_eq_length_filter, List.countP_map]
    exact List.countP_congr fun e he => by simp only [Function.comp, hlookup e he]
  rw [hleft, List.countP_eq_length_filter]
  apply List.Perm.length_eq
  rw [List.perm_ext_iff_of_nodup ((AList.keys_nodup m).filter _) (hnodup.filter _)]
  intro a
  simp only [List.mem_filter, decide_eq_true_eq]
  constructor
  · rintro ⟨ha, htext⟩
    have hasked := h.asked a ha
    exact ⟨hasked, (h.mem_iff a hasked text).1 htext⟩
  · rintro ⟨ha, htext⟩
    have hnamed := (h.mem_iff a ha text).2 htext
    refine ⟨?_, hnamed⟩
    rw [← AList.mem_keys, ← AList.lookup_isSome]
    by_contra hnone
    rw [Bool.not_eq_true, Option.isSome_eq_false_iff, Option.isNone_iff_eq_none] at hnone
    simp [namedBy, hnone] at hnamed

/-- A map whose lists have no duplicates adds the number of them that have the text. -/
theorem count_countFollowers {m : AList fun _ : PublicKey => List Str} {pubkeys : List PublicKey} (h : Grouped toHex contacts pubkeys m)
    (counts : AList fun _ : Str => Nat) (text : Str) :
    count (countFollowers counts m) text = count counts text + (m.entries.map Sigma.snd).countP (text ∈ ·) := by
  refine (count_foldl_lists _ (fun l hl => ?_) counts text).trans
    (congrArg _ (List.countP_congr fun l _ => by simp only [decide_eq_true_eq]))
  obtain ⟨e, he, rfl⟩ := List.mem_map.1 hl
  have hsome : m.lookup e.1 = some e.2 := AList.mem_lookup_iff.2 he
  have hnodup := h.nodup e.1
  simp only [namedBy, hsome, Option.getD_some] at hnodup
  exact hnodup

/-- Texts that are those of keys, each once, parse to these keys, each once. -/
theorem nodup_filterMap_parse (hkeys : keys.Lawful toHex) {ks : List PublicKey} {texts : List Str}
    (htexts : ∀ text ∈ texts, text ∈ ks.map toHex) (hnodup : texts.Nodup) :
    (texts.filterMap keys.parse).Nodup ∧ ∀ k, k ∈ texts.filterMap keys.parse ↔ toHex k ∈ texts := by
  have hback : (texts.filterMap keys.parse).map toHex = texts := by
    clear hnodup
    induction texts with
    | nil => rfl
    | cons text texts ih =>
      obtain ⟨htext, hrest⟩ := List.forall_mem_cons.1 htexts
      obtain ⟨k, _, rfl⟩ := List.mem_map.1 htext
      rw [List.filterMap_cons_some (hkeys.parse k), List.map_cons, ih hrest]
  refine ⟨List.Nodup.of_map toHex (hback.symm ▸ hnodup), fun k => ?_⟩
  rw [← List.mem_map_of_injective hkeys.injective, hback]

/-- The counts of several batches, by induction on these. -/
theorem count_foldl_queryBatch (hkeys : keys.Lawful toHex) (h : Serves toHex contacts client) {ks : List PublicKey}
    {batches : List (List Str)} (htexts : ∀ text ∈ batches.flatten, text ∈ ks.map toHex) (hnodup : ∀ batch ∈ batches, batch.Nodup)
    (i : Nat) (counts : AList fun _ : Str => Nat) (text : Str) :
    count ((batches.zipIdx i).foldl (queryBatch keys client) counts) text =
      count counts text + (batches.flatten.filterMap keys.parse).countP fun a => text ∈ (contacts a).map toHex := by
  induction batches generalizing i counts with
  | nil => rfl
  | cons batch batches ih =>
    obtain ⟨hbatch, hbatches⟩ := List.forall_mem_cons.1 hnodup
    simp only [List.flatten_cons, List.mem_append, or_imp, forall_and] at htexts
    obtain ⟨m, hm, hgrouped⟩ := getFollowers_of_serves h i (batch.filterMap keys.parse)
    have hparsed := (nodup_filterMap_parse hkeys htexts.1 hbatch).1
    rw [List.zipIdx_cons, List.foldl_cons, ih htexts.2 hbatches, List.flatten_cons, List.filterMap_append, List.countP_append]
    simp only [queryBatch, hm, count_countFollowers hgrouped, countP_entries hgrouped hparsed]
    exact Nat.add_assoc ..

/-- The keys that a map of counts trusts, when it counts the texts of keys only. -/
theorem mem_trustedPubkeys (hkeys : keys.Lawful toHex) {counts : AList fun _ : Str => Nat}
    (htexts : ∀ text, 0 < count counts text → ∃ k, text = toHex k) {k : PublicKey} :
    k ∈ trustedPubkeys keys counts ↔ 3 < count counts (toHex k) := by
  have hinsert : ∀ (l : List (PublicKey × Nat)) (m : AList fun _ : PublicKey => Nat),
      k ∈ l.foldl (fun trusted e => trusted.insert e.1 e.2) m ↔ k ∈ m ∨ ∃ e ∈ l, e.1 = k := by
    intro l
    induction l with
    | nil => simp
    | cons e l ih =>
      intro m
      rw [List.foldl_cons, ih, AList.mem_insert, List.exists_mem_cons_iff, eq_comm (a := k), or_comm (a := e.1 = k), or_assoc]
  simp only [trustedPubkeys, hinsert, AList.notMem_empty, false_or, List.mem_filterMap, List.mem_filter, Option.map_eq_some_iff,
    decide_eq_true_eq]
  constructor
  · rintro ⟨_, ⟨e, ⟨he, hcount⟩, pk, hpk, rfl⟩, rfl⟩
    have hcounted : 3 < count counts e.1 := by
      have hsome : counts.lookup e.1 = some e.2 := AList.mem_lookup_iff.2 he
      simpa only [count, hsome, Option.getD_some] using hcount
    obtain ⟨k, hk⟩ := htexts e.1 (by omega)
    rw [hk, hkeys.fromHex] at hpk
    rw [← Option.some.inj hpk, ← hk]
    exact hcounted
  · intro h
    cases hlookup : counts.lookup (toHex k) with
    | none => simp [count, hlookup] at h
    | some n =>
      simp only [count, hlookup, Option.getD_some] at h
      exact ⟨(k, n), ⟨⟨toHex k, n⟩, ⟨AList.mem_lookup_iff.1 hlookup, h⟩, k, hkeys.fromHex k, rfl⟩, rfl⟩

end Almond.TrustNetwork
