import Almond.BlobFilter
import Almond.Lemmas.IndexAux
import Almond.Sample

/-! # The filter is fresh -/

namespace Almond.BlobFilter

open Conc

variable {libs : FilterLibs} {algorithm : String} {fp : Option F64} {headers : Headers}

/-! ## What a request does -/

/-- A filter was rendered from keys that a task has read. -/
def Drawn (libs : FilterLibs) (algorithm : String) (past : List (Task.Event FilterReq FilterResp)) (rate : F64) (filter : CachedFilter) :
    Prop :=
  ∃ keys timestamp seed, ⟨.hashKeys, some (keys, filter.generation)⟩ ∈ past ∧
    rendered libs algorithm keys filter.generation timestamp rate seed = .ok filter

/-- A filter was found in the cache, and is of the generation and the rate that a task has looked for. -/
def Found (algorithm : String) (past : List (Task.Event FilterReq FilterResp)) (rate : F64) (filter : CachedFilter) : Prop :=
  ⟨.generation, filter.generation⟩ ∈ past ∧ ⟨.cached, some filter⟩ ∈ past ∧ filter.fpRateBits = fpRateBits algorithm rate

/-- A task may only cache what it has rendered. -/
def MayCache (libs : FilterLibs) (algorithm : String) (past : List (Task.Event FilterReq FilterResp)) (r : FilterReq) : Prop :=
  ∀ filter, r = .setCached filter → ∃ rate, Drawn libs algorithm past rate filter

/-- A request is answered with a filter that was found or rendered, of its rate. -/
def Answers (libs : FilterLibs) (algorithm : String) (fp : Option F64) (headers : Headers)
    (past : List (Task.Event FilterReq FilterResp)) : Outcome → Prop
  | .responded (.ok response) => ∃ rate filter, fpRate fp = some rate ∧
      (Found algorithm past rate filter ∨ Drawn libs algorithm past rate filter) ∧
      response = filterResponse headers filter.etag filter.body
  | _ => True

/-- The protocol of the tasks. -/
abbrev Caches (libs : FilterLibs) (algorithm : String) : Protocol FilterReq FilterResp Unit (List (Task.Event FilterReq FilterResp)) :=
  .recording (fun _ _ => True) (fun _ _ => True) (MayCache libs algorithm)

section

variable {past : List (Task.Event FilterReq FilterResp)} {rate : F64} {generation : Nat}

/-- What is not stored may be requested. -/
theorem mayCache_of_ne {r : FilterReq} (h : ∀ filter, r ≠ .setCached filter) : MayCache libs algorithm past r :=
  fun filter hr => absurd hr (h filter)

/-- A hit is a filter that was found. -/
theorem found_of_hit {filter : CachedFilter} {cached : Option CachedFilter}
    (h : hit generation (fpRateBits algorithm rate) cached = some filter) (hgeneration : ⟨.generation, generation⟩ ∈ past)
    (hcached : ⟨.cached, cached⟩ ∈ past) : Found algorithm past rate filter := by
  obtain ⟨rfl, hfilter⟩ := Option.filter_eq_some_iff.1 h
  simp only [decide_eq_true_eq] at hfilter
  obtain ⟨rfl, hbits⟩ := hfilter
  exact ⟨hgeneration, hcached, hbits⟩

/-- What was rendered is of the generation and the rate that it was rendered for. -/
theorem rendered_eq_ok {keys : List Str} {timestamp : Int} {seed : Nat} {filter : CachedFilter}
    (h : rendered libs algorithm keys generation timestamp rate seed = .ok filter) :
    filter.generation = generation ∧ filter.fpRateBits = rate ∧ filter.etag = etagOf libs filter.body ∧
      ∃ p, payload libs algorithm keys timestamp rate seed = .ok p ∧ libs.toVec p = .ok filter.body := by
  unfold rendered at h
  cases hp : payload libs algorithm keys timestamp rate seed with
  | error e =>
    rw [hp] at h
    nomatch h
  | ok p =>
    rw [hp] at h
    cases hbody : libs.toVec p with
    | error e =>
      simp only [bind, Except.bind, hbody] at h
      nomatch h
    | ok body =>
      simp only [bind, Except.bind, hbody, pure, Except.pure, Except.ok.injEq] at h
      subst h
      exact ⟨rfl, rfl, rfl, p, rfl, hbody⟩

/-- The part of a request that has the cache to itself. -/
theorem renderLocked_obeys (hrate : fpRate fp = some rate) (hgeneration : ⟨.generation, generation⟩ ∈ past) :
    (renderLocked libs algorithm rate generation headers).Obeys (Caches libs algorithm) (Answers libs algorithm fp headers) past := by
  refine ⟨mayCache_of_ne (by simp), fun cached _ => ?_⟩
  cases hhit : hit generation (fpRateBits algorithm rate) cached with
  | some filter =>
    simp only [Task.ret_bind, hhit]
    exact ⟨rate, filter, hrate, .inl (found_of_hit hhit (List.mem_cons_of_mem _ hgeneration) List.mem_cons_self), rfl⟩
  | none =>
    simp only [Task.ret_bind, hhit]
    refine ⟨mayCache_of_ne (by simp), fun found _ => ?_⟩
    cases found with
    | none => exact trivial
    | some found =>
      obtain ⟨keys, generation'⟩ := found
      refine ⟨mayCache_of_ne (by simp), fun timestamp _ => ⟨mayCache_of_ne (by simp), fun seed _ => ?_⟩⟩
      cases hr : rendered libs algorithm keys generation' timestamp rate seed with
      | error e =>
        simp only [Task.ret_bind, Task.pure_eq, hr]
        exact trivial
      | ok filter =>
        simp only [Task.ret_bind, Task.pure_eq, hr]
        obtain ⟨rfl, _⟩ := rendered_eq_ok hr
        have hdrawn : ∀ after, Drawn libs algorithm (after ++ ⟨.hashKeys, some (keys, filter.generation)⟩ :: ⟨.cached, cached⟩ :: past)
            rate filter := fun after => ⟨keys, timestamp, seed, List.mem_append_right _ List.mem_cons_self, hr⟩
        refine ⟨fun filter' hstored => ?_, fun x _ => ?_⟩
        · cases hstored
          exact ⟨rate, hdrawn [⟨.seed, seed⟩, ⟨.timestamp, timestamp⟩]⟩
        · exact ⟨rate, filter, hrate, .inr (hdrawn [⟨.setCached filter, x⟩, ⟨.seed, seed⟩, ⟨.timestamp, timestamp⟩]), rfl⟩

/-- A request keeps the protocol. -/
theorem getFilter_obeys : (getFilter libs algorithm fp headers).Obeys (Caches libs algorithm) (Answers libs algorithm fp headers) [] := by
  unfold getFilter
  cases hrate : fpRate fp with
  | none => exact trivial
  | some rate =>
    refine ⟨mayCache_of_ne (by simp), fun generation _ => ⟨trivial, mayCache_of_ne (by simp), fun cached _ => ⟨trivial, ?_⟩⟩⟩
    cases hhit : hit generation (fpRateBits algorithm rate) cached with
    | some filter =>
      simp only [Task.ret_bind, hhit]
      exact ⟨rate, filter, hrate, .inl (found_of_hit hhit (List.mem_cons_of_mem _ List.mem_cons_self) List.mem_cons_self), rfl⟩
    | none =>
      simp only [Task.ret_bind, hhit]
      refine ⟨trivial, (renderLocked_obeys hrate (List.mem_cons_of_mem _ List.mem_cons_self)).bind fun q out hout => ?_⟩
      exact ⟨trivial, hout⟩

/-- The tasks keep the protocol. -/
theorem body_obeys (libs : FilterLibs) (algorithm : String) (op : FilterOp) :
    ((machine libs algorithm).body op).Obeys (Caches libs algorithm)
    (fun past out => match op with | .getFilter fp headers => Answers libs algorithm fp headers past out | .mutate _ => True) [] := by
  cases op with
  | getFilter fp headers => exact getFilter_obeys
  | mutate op => exact ⟨mayCache_of_ne (by simp), fun _ _ => trivial⟩

end

/-! ## What the cache holds -/

/-- An index that is not older than another one: it has the same entries, or was changed since. -/
def NotOlder (i j : BlobIndex) : Prop :=
  j.generation ≤ i.generation ∧ (j.generation = i.generation → j = i)

/-- A change makes an index no older. -/
theorem notOlder_apply (i : BlobIndex) (op : BlobIndex.Mutation) : NotOlder (i.apply op) i := by
  cases htouches : i.touches op with
  | false =>
    rw [BlobIndex.apply_of_not_touches htouches]
    exact ⟨Nat.le_refl _, fun _ => rfl⟩
  | true =>
    have hgeneration := BlobIndex.generation_of_touches htouches
    exact ⟨by omega, fun h => by omega⟩

/-- One change after another. -/
theorem NotOlder.trans {i j k : BlobIndex} (h : NotOlder i j) (h' : NotOlder j k) : NotOlder i k := by
  refine ⟨Nat.le_trans h'.1 h.1, fun heq => ?_⟩
  have hk := h'.1
  have hj := h.1
  rw [h'.2 (by omega), h.2 (by omega)]

/-- A filter was rendered from the keys of an index. -/
def Of (libs : FilterLibs) (algorithm : String) (i : BlobIndex) (rate : F64) (filter : CachedFilter) : Prop :=
  ∃ keys timestamp seed, hashKeys i = some (keys, filter.generation) ∧
    rendered libs algorithm keys filter.generation timestamp rate seed = .ok filter

/-- A filter has the generation of its index. -/
theorem Of.generation_eq {i : BlobIndex} {rate : F64} {filter : CachedFilter} (h : Of libs algorithm i rate filter) :
    filter.generation = i.generation := by
  obtain ⟨keys, _, _, hkeys, _⟩ := h
  unfold hashKeys at hkeys
  cases hm : i.map.keys.mapM hashKey with
  | none => simp [hm] at hkeys
  | some found =>
    simp only [hm, Option.bind_eq_bind, Option.bind_some, Option.pure_def, Option.some.injEq, Prod.mk.injEq] at hkeys
    exact hkeys.2.symm

/-- A configuration of the tasks. -/
abbrev FilterSys := Sys FilterReq FilterResp Unit FilterState FilterOp Outcome

/-- The steps of a history. -/
abbrev FilterPast := List (FilterSys × Label FilterReq FilterResp Unit FilterOp Outcome)

/-- What holds in every history: the index only gets newer, and what was cached was rendered from an index of the history. -/
structure Kept (libs : FilterLibs) (algorithm : String) (past : FilterPast) (c : FilterSys) : Prop where
  newest : ∀ x ∈ past, NotOlder c.world.store.index x.1.world.store.index
  newer : past.Pairwise fun x y => NotOlder x.1.world.store.index y.1.world.store.index
  cached : ∀ filter, c.world.store.filterCache = some filter →
    ∃ x ∈ past, ∃ rate, Of libs algorithm x.1.world.store.index rate filter
  wasCached : ∀ x ∈ past, ∀ filter, x.1.world.store.filterCache = some filter →
    ∃ y ∈ past, ∃ rate, Of libs algorithm y.1.world.store.index rate filter

variable {w : World Unit FilterState} {past : FilterPast} {c c' : FilterSys} {l : Label FilterReq FilterResp Unit FilterOp Outcome}

/-- A step that changes the index as an operation does, and the cache only to what was rendered. -/
theorem Kept.step (h : Kept libs algorithm past c) (hindex : NotOlder c'.world.store.index c.world.store.index)
    (hcache : c'.world.store.filterCache = c.world.store.filterCache ∨ ∃ filter, c'.world.store.filterCache = some filter ∧
      ∃ x ∈ past, ∃ rate, Of libs algorithm x.1.world.store.index rate filter) : Kept libs algorithm ((c, l) :: past) c' := by
  have hgoes : ∀ filter, (∃ x ∈ past, ∃ rate, Of libs algorithm x.1.world.store.index rate filter) →
      ∃ x ∈ (c, l) :: past, ∃ rate, Of libs algorithm x.1.world.store.index rate filter := by
    rintro filter ⟨x, hx, hof⟩
    exact ⟨x, List.mem_cons_of_mem _ hx, hof⟩
  refine ⟨fun x hx => ?_, List.pairwise_cons.2 ⟨h.newest, h.newer⟩, fun filter hfilter => hgoes filter ?_, fun x hx filter hfilter =>
    hgoes filter ?_⟩
  · rcases List.mem_cons.1 hx with rfl | hx
    · exact hindex
    · exact hindex.trans (h.newest x hx)
  · rcases hcache with hsame | ⟨filter', hnew, hof⟩
    · exact h.cached filter (hsame ▸ hfilter)
    · cases hnew.symm.trans hfilter
      exact hof
  · rcases List.mem_cons.1 hx with rfl | hx
    · exact h.cached filter hfilter
    · exact h.wasCached x hx filter hfilter

/-- A process in which nothing is cached yet keeps to it. -/
theorem kept_of_history (h : History (machine libs algorithm) (fun _ _ l => l ≠ .crashed) ⟨w, fun _ => none⟩ past c)
    (hcache : w.store.filterCache = none) : Kept libs algorithm past c := by
  induction h with
  | start => exact ⟨by simp, .nil, by simp [hcache], by simp⟩
  | @step past c l c' h hok hs ih =>
    have hrefl : NotOlder c.world.store.index c.world.store.index := ⟨Nat.le_refl _, fun _ => rfl⟩
    cases hs with
    | @call t op r k e ht =>
      cases r with
      | mutate op => exact ih.step (notOlder_apply _ op) (.inl rfl)
      | setCached filter =>
        refine ih.step hrefl (.inr ⟨filter, rfl, ?_⟩)
        obtain ⟨es, hes, hobeys⟩ := h.obeys (body_obeys libs algorithm) (fun _ _ _ => trivial) ht
        obtain ⟨rate, keys, timestamp, seed, hread, hrendered⟩ := hobeys.1 filter rfl
        obtain ⟨c₁, hmem⟩ := Task.mem_record (hes ▸ List.mem_map_of_mem hread)
        obtain ⟨_, hkeys⟩ := h.called hmem
        exact ⟨_, hmem, rate, keys, timestamp, seed, hkeys.symm, hrendered⟩
      | _ => exact ih.step hrefl (.inl rfl)
    | crash => exact absurd rfl hok
    | _ => exact ih.step hrefl (.inl rfl)

/-- Two indexes of a process with the same generation are the same. -/
theorem Kept.index_eq (h : Kept libs algorithm past c) {x y : FilterSys × Label FilterReq FilterResp Unit FilterOp Outcome}
    (hx : x ∈ past) (hy : y ∈ past) (heq : x.1.world.store.index.generation = y.1.world.store.index.generation) :
    x.1.world.store.index = y.1.world.store.index := by
  let R := fun x y : FilterSys × Label FilterReq FilterResp Unit FilterOp Outcome =>
    x.1.world.store.index.generation = y.1.world.store.index.generation → x.1.world.store.index = y.1.world.store.index
  have hsymm : Std.Symm R := ⟨fun _ _ h heq => (h heq.symm).symm⟩
  have hpast : past.Pairwise R := h.newer.imp fun hn heq => (hn.2 heq.symm).symm
  exact hpast.forall_of_forall (fun _ _ _ => rfl) hx hy heq

/-- A bloom filter has the rate that it was rendered for. -/
theorem payload_bloom {keys : List Str} {timestamp : Int} {rate : F64} {seed : Nat} {p : Payload}
    (h : payload libs "bloom" keys timestamp rate seed = .ok p) : p.bloom.map (·.fp) = some rate := by
  have hstarts : "bloom".toList <+: "bloom".toList := List.prefix_refl _
  simp only [payload, hstarts, not_true_eq_false, and_false, if_false, buildFilter] at h
  cases hb : libs.bloom (max keys.length 1) rate seed keys with
  | none =>
    simp only [hb] at h
    nomatch h
  | some built =>
    obtain ⟨slice, k⟩ := built
    simp only [hb, bind, Except.bind, pure, Except.pure, Except.ok.injEq] at h
    rw [← h]
    rfl

/-! ## Freshness -/

/-- Every filter that a request is answered with was rendered from the keys that the index had at some moment of the request, with the
rate of the request when it is a bloom filter; when it is not sent, its validator is. -/
theorem filter_fresh (hcache : w.store.filterCache = none) {t : Tid} {response : FilterResponse}
    (h : History (machine libs algorithm) (fun _ _ l => l ≠ .crashed) ⟨w, fun _ => none⟩
      ((c, .returned t (.getFilter fp headers) (.responded (.ok response))) :: past) c') :
    ∃ between c₀ before, past = between ++ (c₀, .spawned t (.getFilter fp headers)) :: before ∧
      ∃ x ∈ between, ∃ keys generation, hashKeys x.1.world.store.index = some (keys, generation) ∧
        ∃ rate timestamp seed p body, payload libs algorithm keys timestamp rate seed = .ok p ∧ libs.toVec p = .ok body ∧
          (algorithm = "bloom" → p.bloom.map (·.fp) = fpRate fp) ∧ response = filterResponse headers (etagOf libs body) body := by
  cases h with
  | step h _ hs =>
  cases hs with
  | finish ht =>
  have hkept := kept_of_history h hcache
  obtain ⟨es, hes, rate, filter, hrate, hfrom, rfl⟩ :=
    h.obeys (body_obeys libs algorithm) (fun _ _ _ => trivial) ht
  obtain ⟨between, c₀, before, heq, hnone⟩ := h.started (fun _ _ _ => id) _ _ _ ht
  have hmoment : ∀ {r : FilterReq} {x : FilterResp r}, ⟨r, x⟩ ∈ es →
      ∃ c₁, (c₁, .called t (.getFilter fp headers) r x) ∈ between := by
    intro r x hx
    have hrecord : Task.record t past = Task.record t between := by
      rw [heq, Task.record_append]
      exact (congrArg _ hnone).trans (List.append_nil _)
    exact Task.mem_record (hrecord ▸ hes ▸ List.mem_map_of_mem hx)
  have hpast : ∀ x ∈ between, x ∈ past := fun x hx => heq ▸ List.mem_append_left _ hx
  refine ⟨between, c₀, before, heq, ?_⟩
  have hof : ∃ x ∈ between, ∃ rate', Of libs algorithm x.1.world.store.index rate' filter ∧ (algorithm = "bloom" → rate' = rate) := by
    rcases hfrom with ⟨hgeneration, hcached, hbits⟩ | ⟨keys, timestamp, seed, hread, hrendered⟩
    · -- The index was not changed between the rendering of the filter and the moment when the request read the generation.
      obtain ⟨c₁, hc₁⟩ := hmoment hgeneration
      obtain ⟨c₂, hc₂⟩ := hmoment hcached
      obtain ⟨_, hg⟩ := h.called (hpast _ hc₁)
      obtain ⟨_, hstored⟩ := h.called (hpast _ hc₂)
      obtain ⟨y, hy, rate', hof⟩ := hkept.wasCached _ (hpast _ hc₂) filter hstored.symm
      have hsame := hkept.index_eq hy (hpast _ hc₁) (hof.generation_eq.symm.trans hg)
      refine ⟨_, hc₁, rate', hsame ▸ hof, fun hbloom => ?_⟩
      obtain ⟨_, _, _, _, hrendered⟩ := hof
      rw [← (rendered_eq_ok hrendered).2.1, hbits, fpRateBits, if_pos hbloom]
    · obtain ⟨c₁, hc₁⟩ := hmoment hread
      obtain ⟨_, hkeys⟩ := h.called (hpast _ hc₁)
      exact ⟨_, hc₁, rate, ⟨keys, timestamp, seed, hkeys.symm, hrendered⟩, fun _ => rfl⟩
  obtain ⟨x, hx, rate', ⟨keys, timestamp, seed, hkeys, hrendered⟩, hbloom⟩ := hof
  obtain ⟨_, _, hetag, p, hp, hbody⟩ := rendered_eq_ok hrendered
  refine ⟨x, hx, keys, _, hkeys, rate', timestamp, seed, p, filter.body, hp, hbody, fun halgorithm => ?_, by rw [hetag]⟩
  rw [halgorithm] at hp
  rw [payload_bloom hp, hbloom halgorithm, hrate]

end Almond.BlobFilter

namespace Almond.Sample

open Conc BlobFilter

/-- Libraries of filters that build and encode them in a simple way. -/
def filterLibs : FilterLibs where
  bloom numItems _ seed _ := some (List.replicate numItems (UInt8.ofNat seed), 7)
  binaryFuse8 _ := none
  binaryFuse16 _ := none
  binaryFuse32 _ := none
  encodeBase64 bytes := bytes.map fun byte => Char.ofNat byte.toNat
  toVec p := .ok [UInt8.ofNat p.count]
  sha256 bytes := bytes

/-- A request for a bloom filter that an upload overtakes after the request has read the generation. -/
def overtakenRequest : List (Move FilterEnv FilterOp) :=
  .spawn (.getFilter none []) :: List.replicate 6 (.step 0 ⟨1700000000, 3⟩) ++
    .spawn (.mutate (.insert hash (metadata hash))) :: List.replicate 2 (.step 1 ⟨1700000000, 3⟩) ++
    List.replicate 6 (.step 0 ⟨1700000000, 3⟩)

/-- A step that is no crash. -/
def isAlive : Label FilterReq FilterResp Unit FilterOp BlobFilter.Outcome → Bool
  | .crashed => false
  | _ => true

/-- Whether the last step is an answer with a filter of one hash. -/
def answered (past : FilterPast) : Bool :=
  match past with
  | (_, .returned _ (.getFilter none []) (.responded (.ok response))) :: _ => response.status = 200 ∧ response.body = [1]
  | _ => false

end Almond.Sample

namespace Almond.BlobFilter

open Conc Sample in
/-- The filter is fresh of an index that is empty when the request arrives and gets an entry before the response. -/
theorem filter_fresh_overtaken : ∃ (response : FilterResponse) (between : FilterPast), (response.status = 200 ∧ response.body = [1]) ∧
    ∃ x ∈ between, ∃ keys generation, hashKeys x.1.world.store.index = some (keys, generation) ∧
      ∃ rate timestamp seed p body, payload filterLibs "bloom" keys timestamp rate seed = .ok p ∧ filterLibs.toVec p = .ok body ∧
        p.bloom.map (·.fp) = fpRate none ∧ response = filterResponse [] (etagOf filterLibs body) body := by
  obtain ⟨past, c', hhistory, hp⟩ := exists_history_of_replay (machine filterLibs "bloom")
    ⟨⟨⟨.empty, none⟩, fun _ => none, 0⟩, fun _ => none⟩ overtakenRequest (fun _ _ l => isAlive l) answered
    (by decide)
  have hlive : History (machine filterLibs "bloom") (fun _ _ l => l ≠ .crashed) _ past c' := hhistory.mono fun _ _ l hl heq => by
    subst heq
    cases hl
  unfold answered at hp
  split at hp
  · rename_i c t response past
    obtain ⟨between, _, _, _, x, hx, keys, generation, hkeys, rate, timestamp, seed, p, body, hpayload, hbody, hfp, hresponse⟩ :=
      filter_fresh rfl hlive
    exact ⟨response, between, of_decide_eq_true hp, x, hx, keys, generation, hkeys, rate, timestamp, seed, p, body, hpayload, hbody,
      hfp rfl, hresponse⟩
  · cases hp

end Almond.BlobFilter
