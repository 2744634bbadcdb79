import Almond.Lemmas.IndexAux

/-! # Pages of the index

A page of the index is a page of the list of all results, and a removal takes one result away. -/

namespace Almond.BlobIndex

open Paging

variable {i : BlobIndex} {since until' : Nat} {author : Option PublicKey} {cursor : Option Str} {limit : Nat}

/-- The scan passes over exactly what is no result. -/
theorem isSkipped_eq (since until' : Nat) (author : Option PublicKey) (m : FileMetadata) :
    isSkipped since until' author m = !isResult since until' author m := by
  have hlt : ∀ a b : Nat, decide (a < b) = !decide (b ≤ a) := by
    intro a b
    rw [← decide_not, decide_eq_decide]
    omega
  cases author with
  | none => simp [isSkipped, isResult, hlt]
  | some a => simp [isSkipped, isResult, hlt]

/-- The scan past the cursor fills the page with results. -/
theorem collect_true (order : List (Nat × Str)) (page : List (Str × FileMetadata)) (h : page.length < limit) :
    i.collect since until' author cursor limit order true page =
      page ++ (order.filterMap (i.result? since until' author)).take (limit - page.length) := by
  induction order generalizing page with
  | nil => simp [collect]
  | cons e order ih =>
    obtain ⟨createdAt, sha256⟩ := e
    have hskip : i.result? since until' author (createdAt, sha256) = none →
        i.collect since until' author cursor limit order true page =
          page ++ (((createdAt, sha256) :: order).filterMap (i.result? since until' author)).take (limit - page.length) := by
      intro hnone
      rw [List.filterMap_cons_none hnone]
      exact ih _ h
    unfold collect
    cases hg : i.get sha256 with
    | none => exact hskip (by simp only [result?, hg, Option.bind_none])
    | some m =>
      cases hm : isResult since until' author m with
      | false =>
        simp only [isSkipped_eq, hm, Bool.not_false, if_true]
        refine hskip ?_
        simp only [result?, hg, Option.bind_some, hm]
        rfl
      | true =>
        have hr : i.result? since until' author (createdAt, sha256) = some (sha256, m) := by
          simp only [result?, hg, Option.bind_some, hm, if_true]
        obtain ⟨n, hn⟩ : ∃ n, limit - page.length = n + 1 := ⟨limit - page.length - 1, by omega⟩
        rw [List.filterMap_cons_some hr, hn, List.take_succ_cons]
        simp only [isSkipped_eq, hm, Bool.not_true, Bool.false_eq_true, if_false, List.length_append, List.length_singleton]
        split
        · rename_i hfull
          obtain rfl : n = 0 := by omega
          rw [List.take_zero]
        · rename_i hfull
          rw [ih _ (by rw [List.length_append, List.length_singleton]; omega), List.append_assoc, List.singleton_append]
          rw [List.length_append, List.length_singleton, show limit - (page.length + 1) = n by omega]

/-- The scan up to the cursor's entry passes over what comes before it. -/
theorem collect_false (order : List (Nat × Str)) {sha256 : Str} {m : FileMetadata} (hg : i.get sha256 = some m)
    (hm : isResult since until' author m = true) (h : 1 ≤ limit) :
    i.collect since until' author (some sha256) limit order false [] =
      (after Prod.fst sha256 (order.filterMap (i.result? since until' author))).take limit := by
  induction order with
  | nil => simp [collect, after]
  | cons e order ih =>
    obtain ⟨createdAt, k⟩ := e
    unfold collect
    by_cases hk : k = sha256
    · subst hk
      have hr : i.result? since until' author (createdAt, k) = some (k, m) := by
        simp only [result?, hg, Option.bind_some, hm, if_true]
      rw [decide_eq_true rfl, List.filterMap_cons_some hr, after, if_pos rfl, collect_true order [] h]
      rfl
    · rw [decide_eq_false fun he => hk (Option.some.inj he).symm, ih]
      cases hr : i.result? since until' author (createdAt, k) with
      | none => rw [List.filterMap_cons_none hr]
      | some x =>
        have hx : x.1 = k := by
          obtain ⟨m', _, hif⟩ := Option.bind_eq_some_iff.1 hr
          split at hif
          · exact (congrArg Prod.fst (Option.some.inj hif)).symm
          · cases hif
        rw [List.filterMap_cons_some hr, after, if_neg (hx ▸ hk)]

/-- What the results of a query are. -/
theorem Ordered.mem_listing (h : i.Ordered) {sha256 : Str} {m : FileMetadata} :
    (sha256, m) ∈ i.listing since until' author ↔ i.get sha256 = some m ∧ isResult since until' author m = true := by
  simp only [listing, List.mem_filterMap, result?, Option.bind_eq_some_iff]
  constructor
  · rintro ⟨⟨createdAt, k⟩, _, m', hg, hif⟩
    split at hif
    · rename_i hm
      cases hif
      exact ⟨hg, hm⟩
    · nomatch hif
  · rintro ⟨hg, hm⟩
    exact ⟨(m.createdAt, sha256), (h.mem_iff _ _).2 ⟨m, hg, rfl⟩, m, hg, if_pos hm⟩

/-- The results of a query come in their order. -/
theorem Ordered.sorted_listing (h : i.Ordered) :
    (i.listing since until' author).Pairwise fun a b => Before (a.2.createdAt, a.1) (b.2.createdAt, b.1) := by
  have hkey : ∀ {x : Nat × Str} {b : Str × FileMetadata}, x ∈ i.order → i.result? since until' author x = some b →
      x = (b.2.createdAt, b.1) := by
    rintro ⟨createdAt, k⟩ b hx hb
    obtain ⟨m, hg, hif⟩ := Option.bind_eq_some_iff.1 hb
    split at hif
    · cases hif
      obtain ⟨m', hm', ha⟩ := (h.mem_iff _ _).1 hx
      cases hg.symm.trans hm'
      exact Prod.ext ha.symm rfl
    · nomatch hif
  refine List.pairwise_filterMap.2 (List.Pairwise.imp_of_mem ?_ h.sorted)
  intro x y hx hy hxy a ha b hb
  rw [← hkey hx ha, ← hkey hy hb]
  exact hxy

/-- The results of a query are of different hashes. -/
theorem Ordered.nodup_listing (h : i.Ordered) (since until' : Nat) (author : Option PublicKey) :
    ((i.listing since until' author).map Prod.fst).Nodup := by
  refine List.pairwise_map.2 (List.Pairwise.imp_of_mem ?_ h.sorted_listing)
  rintro ⟨k, m⟩ ⟨k', m'⟩ ha hb hab (hk : k = k')
  subst hk
  have hm := (h.mem_listing.1 ha).1.symm.trans (h.mem_listing.1 hb).1
  cases hm
  exact hab.2 rfl

/-- A page of the index is a page of the list of all results. -/
theorem Ordered.page_eq (h : i.Ordered) (hlimit : 1 ≤ limit) :
    i.page since until' author cursor limit = Paging.page Prod.fst limit cursor (i.listing since until' author) := by
  have hall : i.collect since until' author cursor limit i.order true [] = (i.listing since until' author).take limit :=
    collect_true i.order [] hlimit
  have hmem : ∀ c, c ∈ (i.listing since until' author).map Prod.fst ↔ ∃ m, i.get c = some m ∧ isResult since until' author m = true := by
    intro c
    simp only [List.mem_map, Prod.exists, exists_and_right, exists_eq_right, h.mem_listing]
  unfold BlobIndex.page Paging.page Paging.rest
  cases cursor with
  | none => exact hall
  | some c =>
    simp only [Option.bind_some]
    cases hg : i.get c with
    | none =>
      have hno : c ∉ (i.listing since until' author).map Prod.fst := fun hm => by
        obtain ⟨m, hm, _⟩ := (hmem c).1 hm
        cases hg.symm.trans hm
      rw [if_neg hno]
      exact hall
    | some m =>
      cases hm : isResult since until' author m with
      | false =>
        have hno : c ∉ (i.listing since until' author).map Prod.fst := fun hc => by
          obtain ⟨m', hm', hr⟩ := (hmem c).1 hc
          cases hg.symm.trans hm'
          exact absurd (hm.symm.trans hr) (fun h => by cases h)
        rw [if_neg hno]
        simp only [Option.any_some, hm, Bool.not_false]
        exact hall
      | true =>
        rw [if_pos ((hmem c).2 ⟨m, hg, hm⟩)]
        simp only [Option.any_some, hm, Bool.not_true]
        exact collect_false i.order hg hm hlimit

/-! ## Walks over an index that does not change -/

/-- The pages of a client are the pages of a reader of the list of all results. -/
theorem Ordered.walk_of_pages (h : i.Ordered) (hlimit : 1 ≤ limit) {pages : List (List (Str × FileMetadata))}
    (hp : i.Pages since until' author limit cursor pages) :
    Walk Prod.fst limit (i.listing since until' author) cursor pages := by
  induction hp with
  | done hp => exact .done (h.page_eq hlimit ▸ hp)
  | more hp _ ih => exact .more (h.page_eq hlimit ▸ hp) ih

/-- The pages of a reader of the list of all results are the pages of a client. -/
theorem Ordered.pages_of_walk (h : i.Ordered) (hlimit : 1 ≤ limit) {pages : List (List (Str × FileMetadata))}
    (hw : Walk Prod.fst limit (i.listing since until' author) cursor pages) :
    i.Pages since until' author limit cursor pages := by
  induction hw with
  | done hp => exact .done ((h.page_eq hlimit).trans hp)
  | more hp _ ih => exact .more ((h.page_eq hlimit).trans hp) ih

/-! ## Walks over an index that loses entries -/

/-- A removal leaves the entries of a hash, or removes it. -/
theorem get_apply_of_removes (i : BlobIndex) {op : Mutation} (hop : op.removes = true) {sha256 : Str} {m : FileMetadata}
    (hg : (i.apply op).get sha256 = some m) : i.get sha256 = some m := by
  have hremove : ∀ {k : Str}, (i.remove k).1.get sha256 = some m → i.get sha256 = some m := by
    intro k hk
    by_cases hne : sha256 = k
    · subst hne
      rw [get_remove_self] at hk
      nomatch hk
    · rwa [get_remove_of_ne i hne] at hk
  cases op with
  | insert | publish | replace => nomatch hop
  | remove k => exact hremove hg
  | removeIfLocationMatches k location =>
    simp only [BlobIndex.apply] at hg
    obtain ⟨_, _, _, hp⟩ | ⟨_, hp⟩ := i.removeIf_cases k location
    · rw [hp] at hg
      exact hremove hg
    · rwa [hp] at hg

/-- Keys in order are part of other keys in order when each of them is one of those. -/
theorem sublist_of_sorted {l l' : List (Str × FileMetadata)}
    (h : l.Pairwise fun a b => Before (a.2.createdAt, a.1) (b.2.createdAt, b.1))
    (h' : l'.Pairwise fun a b => Before (a.2.createdAt, a.1) (b.2.createdAt, b.1)) (hsub : ∀ e ∈ l', e ∈ l) : l'.Sublist l := by
  induction l generalizing l' with
  | nil =>
    rw [List.eq_nil_iff_forall_not_mem.2 fun e he => List.not_mem_nil (hsub e he)]
  | cons a l ih =>
    rw [List.pairwise_cons] at h
    cases l' with
    | nil => exact List.nil_sublist _
    | cons b l' =>
      rw [List.pairwise_cons] at h'
      have hirr : ∀ e : Str × FileMetadata, ¬ Before (e.2.createdAt, e.1) (e.2.createdAt, e.1) := fun _ he => he.2 rfl
      have hasymm : ∀ {e f : Nat × Str}, Before e f → ¬ Before f e := fun he hf => he.2 (newer_antisymm he.1 hf.1)
      rcases List.mem_cons.1 (hsub b List.mem_cons_self) with rfl | hb
      · refine (ih h.2 h'.2 fun e he => ?_).cons_cons b
        rcases List.mem_cons.1 (hsub e (List.mem_cons_of_mem b he)) with rfl | hel
        · exact absurd (h'.1 e he) (hirr e)
        · exact hel
      · refine (ih h.2 (List.pairwise_cons.2 h') fun e he => ?_).cons a
        rcases List.mem_cons.1 (hsub e he) with rfl | hel
        · -- The first of the longer list would come after the first of the shorter one, which it comes before.
          rcases List.mem_cons.1 he with rfl | he
          · exact hb
          · exact absurd (h'.1 e he) (hasymm (h.1 b hb))
        · exact hel

/-- What holds of a client that walks a list from which entries are removed. -/
structure Walking (since until' : Nat) (author : Option PublicKey) (limit : Nat) (i₀ i : BlobIndex)
    (pages : List (List (Str × FileMetadata))) (cursor : Option Str) : Prop where
  ordered : i.Ordered
  shrunk : ∀ sha256 m, i.get sha256 = some m → i₀.get sha256 = some m
  received : ∀ e ∈ pages.flatten, i₀.get e.1 = some e.2 ∧ isResult since until' author e.2 = true
  last : ∀ sha256, cursor = some sha256 → ∃ m, (sha256, m) ∈ pages.flatten

namespace Walking

variable {i₀ i : BlobIndex} {pages : List (List (Str × FileMetadata))}

/-- A client at the beginning. -/
theorem start (h : i₀.Ordered) : Walking since until' author limit i₀ i₀ [] none :=
  ⟨h, fun _ _ hg => hg, nofun, nofun⟩

/-- A removal. -/
theorem remove (hw : Walking since until' author limit i₀ i pages cursor) {op : Mutation} (hop : op.removes = true) :
    Walking since until' author limit i₀ (i.apply op) pages cursor :=
  ⟨hw.ordered.apply op, fun k m hg => hw.shrunk k m (get_apply_of_removes i hop hg), hw.received, hw.last⟩

/-- A page. -/
theorem read (hw : Walking since until' author limit i₀ i pages cursor) (hlimit : 1 ≤ limit) {page : List (Str × FileMetadata)}
    {sha256 : Str} {m : FileMetadata} (hp : i.page since until' author cursor limit = page ++ [(sha256, m)]) :
    Walking since until' author limit i₀ i (pages ++ [page ++ [(sha256, m)]]) (some sha256) := by
  refine ⟨hw.ordered, hw.shrunk, ?_, ?_⟩
  · intro e he
    rw [List.flatten_append, List.flatten_singleton, List.mem_append] at he
    rcases he with he | he
    · exact hw.received e he
    · rw [← hp, hw.ordered.page_eq hlimit] at he
      have hmem := hw.ordered.mem_listing.1 ((rest_suffix _ cursor _).subset (List.mem_of_mem_take he))
      exact ⟨hw.shrunk _ _ hmem.1, hmem.2⟩
  · rintro _ ⟨⟩
    refine ⟨m, ?_⟩
    rw [List.flatten_append, List.flatten_singleton]
    exact List.mem_append_right _ (List.mem_append_right _ List.mem_cons_self)

/-- What was received is a result now exactly when its hash still has an entry. -/
theorem mem_listing_iff (hw : Walking since until' author limit i₀ i pages cursor) {e : Str × FileMetadata}
    (he : e ∈ pages.flatten) : e ∈ i.listing since until' author ↔ i.contains e.1 = true := by
  rw [hw.ordered.mem_listing, contains, Option.isSome_iff_exists]
  constructor
  · exact fun h => ⟨e.2, h.1⟩
  · rintro ⟨m, hm⟩
    have hreceived := hw.received e he
    rw [hw.shrunk _ _ hm] at hreceived
    obtain rfl := Option.some.inj hreceived.1
    exact ⟨hm, hreceived.2⟩

/-- The place of the cursor is known exactly when the reader of the list of all results finds it. -/
theorem findable_iff (hw : Walking since until' author limit i₀ i pages cursor) :
    Findable Prod.fst (i.listing since until' author) pages cursor ↔ CursorKnown i pages cursor := by
  unfold Findable CursorKnown
  refine forall₂_congr fun c hc => or_congr ?_ (forall₂_congr fun e he => ?_)
  · obtain ⟨m, hm⟩ := hw.last c hc
    rw [← hw.mem_listing_iff hm, List.mem_map]
    constructor
    · rintro ⟨⟨k, m'⟩, he, rfl⟩
      have hget := hw.shrunk _ _ (hw.ordered.mem_listing.1 he).1
      rw [(hw.received _ hm).1] at hget
      obtain rfl : m = m' := Option.some.inj hget
      exact he
    · exact fun he => ⟨_, he, rfl⟩
  · rw [hw.mem_listing_iff he, Bool.not_eq_true]

end Walking

/-- A client that walks a list from which entries are removed is a reader of a list that loses elements. -/
theorem Listing.drain (ok' : List (Str × FileMetadata) → List (List (Str × FileMetadata)) → Option Str → Prop)
    {ok : BlobIndex → List (List (Str × FileMetadata)) → Option Str → Prop} {i₀ i : BlobIndex}
    {pages : List (List (Str × FileMetadata))} (h : i₀.Ordered) (hlimit : 1 ≤ limit)
    (hcond : ∀ {i pages cursor}, Walking since until' author limit i₀ i pages cursor → ok i pages cursor →
      ok' (i.listing since until' author) pages cursor) (hl : Listing since until' author limit ok i₀ i pages cursor) :
    Walking since until' author limit i₀ i pages cursor ∧
      Drain Prod.fst limit ok' (i₀.listing since until' author) (i.listing since until' author) pages cursor := by
  induction hl with
  | start => exact ⟨.start h, .start⟩
  | @remove i pages cursor hl op hop ih =>
    obtain ⟨hw, hd⟩ := ih
    have hw' := hw.remove hop
    refine ⟨hw', hd.lose (sublist_of_sorted hw.ordered.sorted_listing hw'.ordered.sorted_listing ?_)⟩
    rintro ⟨k, m⟩ he
    obtain ⟨hg, hm⟩ := hw'.ordered.mem_listing.1 he
    exact hw.ordered.mem_listing.2 ⟨get_apply_of_removes i hop hg, hm⟩
  | read hl hok hp ih =>
    obtain ⟨hw, hd⟩ := ih
    exact ⟨hw.read hlimit hp, hd.read (hcond hw hok) ((hw.ordered.page_eq hlimit).symm.trans hp)⟩

/-- There are no more results than entries. -/
theorem Ordered.length_listing_le {i : BlobIndex} (h : i.Ordered) (since until' : Nat) (author : Option PublicKey) :
    (i.listing since until' author).length ≤ i.map.keys.length := by
  have hsub : (i.listing since until' author).map Prod.fst ⊆ i.map.keys := by
    intro k hk
    obtain ⟨⟨k', m⟩, he, rfl⟩ := List.mem_map.1 hk
    exact AList.mem_keys.1 (AList.lookup_isSome.1 (Option.isSome_iff_exists.2 ⟨m, (h.mem_listing.1 he).1⟩))
  have hlen := List.Nodup.length_le_of_subset (h.nodup_listing since until' author) hsub
  rwa [List.length_map] at hlen

end Almond.BlobIndex
