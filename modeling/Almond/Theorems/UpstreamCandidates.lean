import Almond.Lemmas.RangesAux
import Almond.Lemmas.UpstreamCandidatesAux
import Almond.Theorems.UpstreamServers

/-! # What a walk hands out -/

namespace Almond.UpstreamCandidates

open Conc Fetch UpstreamServers FirstOccurrences Trimming

/-! ## The candidates -/

/-- The order of the tiers. -/
def rank : Tier → Nat
  | .customOrigin => 0
  | .xsServer => 1
  | .configured => 2
  | .userServer => 3

/-- The hints of the first three tiers. -/
def hints (customOrigin : Option Str) (xsServers : Option (List Str)) (configured : List Str) : List (Tier × Str) :=
  customOrigin.toList.map (Tier.customOrigin, ·) ++ (xsServers.getD []).map (Tier.xsServer, ·) ++ configured.map (Tier.configured, ·)

/-- The servers that a walk is told of. -/
def named (customOrigin : Option Str) (xsServers : Option (List Str)) (configured servers : List Str) : List (Tier × Str) :=
  hints customOrigin xsServers configured ++ servers.map (Tier.userServer, ·)

/-- The candidates of one hint. -/
def expand (hint : Tier × Str) : List (Tier × Str) :=
  (serverUrlCandidates hint.2).map (hint.1, ·)

/-- The text before the first colon. -/
def scheme (url : Str) : Str :=
  url.takeWhile (· ≠ ':')

variable {libs : NetLibs} {customOrigin : Option Str} {xsServers : Option (List Str)} {configured servers : List Str}

/-- The plan is the candidates of the hints, each text once. -/
theorem plan_eq : plan customOrigin xsServers configured =
    firsts Prod.snd ((hints customOrigin xsServers configured).flatMap expand) [] := by
  have hpush : ∀ planned hint, pushHint planned hint =
      (expand hint).foldl (fun added a => if added.any fun b => b.2 = a.2 then added else added ++ [a]) planned := by
    intro planned hint
    rw [expand, List.foldl_map]
    rfl
  have hfold : ((hints customOrigin xsServers configured).flatMap expand).foldl
      (fun added a => if added.any fun b => b.2 = a.2 then added else added ++ [a]) [] = _ := foldl_push_eq []
  rw [List.foldl_flatMap, List.nil_append] at hfold
  rw [plan, ← hints]
  exact (congrArg (fun f => List.foldl f [] _) (funext fun planned => funext (hpush planned))).trans hfold

/-- A text with a scheme in front has it. -/
theorem hasScheme_append {front : Str} (hfront : front = "http://".toList ∨ front = "https://".toList) (s : Str) :
    hasScheme (front ++ s) = true := by
  rw [hasScheme, Bool.or_eq_true]
  rcases hfront with rfl | rfl
  · exact .inl (List.isPrefixOf_iff_prefix.2 (List.prefix_append _ s))
  · exact .inr (List.isPrefixOf_iff_prefix.2 (List.prefix_append _ s))

/-- A trimmed text with a scheme in front is trimmed. -/
theorem trim_append_trim {front : Str} (hfront : front = "http://".toList ∨ front = "https://".toList) (s : Str) :
    trim (front ++ trim s) = front ++ trim s := by
  have hend : (trim s).rdropWhile isWhitespace = trim s := List.rdropWhile_idempotent ..
  have hslash : ∀ a, a ++ '/' :: trim s = (a ++ '/' :: trim s).rdropWhile isWhitespace := by
    intro a
    rw [rdropWhile_append_cons rfl, hend]
  have hstart : ∀ a, trimBy isWhitespace ('h' :: a) = 'h' :: a.rdropWhile isWhitespace := fun a => trimBy_append_cons rfl [] a
  rcases hfront with rfl | rfl
  · exact (hstart _).trans (congrArg _ (hslash "ttp:/".toList).symm)
  · exact (hstart _).trans (congrArg _ (hslash "ttps:/".toList).symm)

/-- A candidate is trimmed and has a scheme, so it is its own normal form. -/
theorem normalizeServerUrl_candidate {hint text : Str} (h : text ∈ serverUrlCandidates hint) : normalizeServerUrl text = text := by
  have hown : ∀ text, trim text = text → hasScheme text = true → normalizeServerUrl text = text := by
    intro text htrim hscheme
    rw [normalizeServerUrl, htrim, if_pos hscheme]
  rw [serverUrlCandidates] at h
  split at h
  · rename_i hscheme
    obtain rfl := List.mem_singleton.1 h
    exact hown _ (trimBy_trimBy ..) hscheme
  · rcases List.mem_cons.1 h with rfl | h
    · exact hown _ (trim_append_trim (.inr rfl) hint) (hasScheme_append (.inr rfl) _)
    · obtain rfl := List.mem_singleton.1 h
      exact hown _ (trim_append_trim (.inl rfl) hint) (hasScheme_append (.inl rfl) _)

/-- What is appended to a text without its last slashes does not change its scheme. -/
theorem scheme_blobUrl {text : Str} (h : hasScheme text = true) (filename : Str) : scheme (blobUrl text filename) = scheme text := by
  have hcolon : ∃ a b, text = a ++ ':' :: b ∧ ∀ c ∈ a, (c ≠ ':') = true := by
    rw [hasScheme, Bool.or_eq_true, List.isPrefixOf_iff_prefix, List.isPrefixOf_iff_prefix] at h
    rcases h with ⟨b, rfl⟩ | ⟨b, rfl⟩
    · exact ⟨"http".toList, "//".toList ++ b, rfl, by simp⟩
    · exact ⟨"https".toList, "//".toList ++ b, rfl, by simp⟩
  obtain ⟨a, b, rfl, ha⟩ := hcolon
  have hscheme : ∀ b, scheme (a ++ ':' :: b) = a := by
    intro b
    rw [scheme, List.takeWhile_append_of_pos fun c hc => by simpa using ha c hc]
    simp
  have htrim : trimEndMatches '/' (a ++ ':' :: b) = a ++ ':' :: trimEndMatches '/' b := rdropWhile_append_cons rfl a b
  rw [blobUrl, htrim, List.append_assoc, List.cons_append, hscheme, hscheme]

/-! ## The order of the candidates -/

/-- The candidates of a walk, in the order in which they are validated. -/
def offered (customOrigin : Option Str) (xsServers : Option (List Str)) (configured servers : List Str) : List (Tier × Str) :=
  plan customOrigin xsServers configured ++ Walk.userCandidates servers

/-- The candidates of the author are those of its servers. -/
theorem userCandidates_eq (servers : List Str) : Walk.userCandidates servers = (servers.map (Tier.userServer, ·)).flatMap expand := by
  rw [Walk.userCandidates, List.map_flatMap, List.flatMap_map]
  rfl

/-- A candidate of a list of hints. -/
theorem mem_flatMap_expand {l : List (Tier × Str)} {e : Tier × Str} :
    e ∈ l.flatMap expand ↔ ∃ hint, (e.1, hint) ∈ l ∧ e.2 ∈ serverUrlCandidates hint := by
  rw [List.mem_flatMap]
  constructor
  · rintro ⟨⟨tier, hint⟩, hmem, he⟩
    obtain ⟨text, htext, rfl⟩ := List.mem_map.1 he
    exact ⟨hint, hmem, htext⟩
  · rintro ⟨hint, hmem, he⟩
    exact ⟨_, hmem, List.mem_map.2 ⟨_, he, rfl⟩⟩

/-- Each candidate is one of a server that the walk is told of. -/
theorem exists_named_of_mem_offered {e : Tier × Str} (h : e ∈ offered customOrigin xsServers configured servers) :
    ∃ hint, (e.1, hint) ∈ named customOrigin xsServers configured servers ∧ e.2 ∈ serverUrlCandidates hint := by
  rw [offered, plan_eq, userCandidates_eq, List.mem_append] at h
  rw [← mem_flatMap_expand, named, List.flatMap_append, List.mem_append]
  exact h.imp_left fun h => firsts_sublist.subset h

/-- The hints come in the order of their tiers. -/
theorem pairwise_hints : (hints customOrigin xsServers configured).Pairwise fun a b => rank a.1 ≤ rank b.1 := by
  have hsame : ∀ (tier : Tier) (l : List Str), (l.map (tier, ·)).Pairwise fun a b => rank a.1 ≤ rank b.1 := by
    intro tier l
    exact List.pairwise_map.2 (List.pairwise_of_forall fun _ _ => Nat.le_refl _)
  rw [hints, List.pairwise_append, List.pairwise_append]
  refine ⟨⟨hsame _ _, hsame _ _, ?_⟩, hsame _ _, ?_⟩
  · intro a ha b hb
    obtain ⟨x, _, rfl⟩ := List.mem_map.1 ha
    exact Nat.zero_le _
  · intro a ha b hb
    obtain ⟨y, _, rfl⟩ := List.mem_map.1 hb
    rcases List.mem_append.1 ha with ha | ha
    · obtain ⟨x, _, rfl⟩ := List.mem_map.1 ha
      exact Nat.zero_le _
    · obtain ⟨x, _, rfl⟩ := List.mem_map.1 ha
      exact Nat.le_succ _

/-- The candidates of hints in the order of their tiers come in that order. -/
theorem pairwise_flatMap_expand {l : List (Tier × Str)} (h : l.Pairwise fun a b => rank a.1 ≤ rank b.1) :
    (l.flatMap expand).Pairwise fun a b => rank a.1 ≤ rank b.1 := by
  have htier : ∀ {hint e : Tier × Str}, e ∈ expand hint → e.1 = hint.1 := by
    intro hint e he
    obtain ⟨_, _, rfl⟩ := List.mem_map.1 he
    rfl
  rw [List.pairwise_flatMap]
  constructor
  · intro hint _
    exact List.pairwise_map.2 (List.pairwise_of_forall fun _ _ => Nat.le_refl _)
  · refine h.imp fun hle a ha b hb => ?_
    rwa [htier ha, htier hb]

/-- The candidates come in the order of their tiers. -/
theorem pairwise_offered : (offered customOrigin xsServers configured servers).Pairwise fun a b => rank a.1 ≤ rank b.1 := by
  rw [offered, List.pairwise_append]
  refine ⟨?_, ?_, ?_⟩
  · rw [plan_eq]
    exact (pairwise_flatMap_expand pairwise_hints).sublist firsts_sublist
  · exact List.pairwise_map.2 (List.pairwise_of_forall fun _ _ => Nat.le_refl _)
  · intro a _ b hb
    obtain ⟨_, _, rfl⟩ := List.mem_map.1 hb
    have hlast : ∀ tier, rank tier ≤ rank .userServer := by
      intro tier
      cases tier <;> decide
    exact hlast a.1

/-- A candidate of a server is among those that are offered, in its tier or in an earlier one. -/
theorem exists_offered_of_named {e : Tier × Str} {text : Str} (he : e ∈ named customOrigin xsServers configured servers)
    (htext : text ∈ serverUrlCandidates e.2) :
    ∃ a ∈ offered customOrigin xsServers configured servers, a.2 = text ∧ rank a.1 ≤ rank e.1 := by
  have hmem : (e.1, text) ∈ (hints customOrigin xsServers configured).flatMap expand ∨ (e.1, text) ∈ Walk.userCandidates servers := by
    rw [userCandidates_eq, mem_flatMap_expand, mem_flatMap_expand]
    exact (List.mem_append.1 he).imp (fun h => ⟨_, h, htext⟩) fun h => ⟨_, h, htext⟩
  rcases hmem with h | h
  · have hseen : (e.1, text).2 ∉ ([] : List Str) := nofun
    obtain ⟨a, ha, hkey, hrank⟩ :=
      exists_firsts_before (fun a => Nat.le_refl (rank a.1)) (pairwise_flatMap_expand pairwise_hints) h hseen
    exact ⟨a, List.mem_append_left _ (plan_eq ▸ ha), hkey, hrank⟩
  · exact ⟨_, List.mem_append_right _ h, rfl, Nat.le_refl _⟩

/-! ## The end of a walk -/

/-- One walk hands out a candidate and becomes another. -/
def Continues (libs : NetLibs) (walk walk' : Walk) : Prop :=
  ∃ events candidate, (walk.next libs).Returns events (some candidate, walk')

/-- What is left to do: whether the list of the author is still to be fetched, and how many candidates are pending. -/
def left (walk : Walk) : Nat × Nat :=
  (walk.userServersPending.toNat, walk.pending.length)

/-- A candidate that is handed out is pending no more. -/
theorem pending_lt_of_popped {walk walk' : Walk} {candidate : Candidate} {events : Events}
    (h : Popped libs walk walk.pending events (some candidate, walk')) :
    walk'.userServersPending = walk.userServersPending ∧ walk'.pending.length < walk.pending.length := by
  generalize hpending : walk.pending = pending at h
  cases h with
  | @some before rest =>
    refine ⟨rfl, ?_⟩
    show rest.length < _
    rw [List.length_append, List.length_cons]
    omega

/-- With each candidate there is less left to do. -/
theorem Continues.left_lt {walk walk' : Walk} (h : Continues libs walk walk') :
    Prod.Lex (· < ·) (· < ·) (left walk') (left walk) := by
  obtain ⟨events, candidate, h⟩ := h
  obtain ⟨events₁, events₂, x, rfl, hpop, hnext⟩ := Task.returns_bind_iff.1 h
  obtain ⟨_ | found, walk₁⟩ := x
  · obtain ⟨checks, _, _, rfl⟩ := validates_of_popped (popped_of_returns hpop)
    obtain ⟨events₃, events₄, y, rfl, htake, hnext⟩ := Task.returns_bind_iff.1 hnext
    cases taken_of_returns htake with
    | settled hlist after => exact nomatch (congrArg Prod.fst hnext.2 : none = some candidate)
    | nothing hpending hauthor hanswer after => exact nomatch (congrArg Prod.fst hnext.2 : none = some candidate)
    | added hpending hauthor =>
      obtain ⟨hflag, _⟩ := pending_lt_of_popped (popped_of_returns hnext)
      have hpending : walk.userServersPending = true := hpending
      rw [left, left, hflag, hpending]
      exact .left _ _ Nat.zero_lt_one
  · obtain ⟨rfl, hx⟩ := hnext
    cases hx
    obtain ⟨hflag, hlt⟩ := pending_lt_of_popped (popped_of_returns hpop)
    rw [left, left, hflag]
    exact .right _ hlt

/-- Every walk comes to its end. -/
theorem acc_continues (libs : NetLibs) (walk : Walk) : Acc (fun w' w => Continues libs w w') walk := by
  have hwf : WellFounded (Prod.Lex (α := Nat) (β := Nat) (· < ·) (· < ·)) := WellFounded.prod_lex wellFounded_lt wellFounded_lt
  exact Subrelation.accessible Continues.left_lt ((InvImage.wf left hwf).apply walk)

/-! ## What a walk hands out -/

/-- A walk that is told of some servers, and which candidates are valid, keeps what is said about it. -/
structure WalksWell (libs : NetLibs) (walk : Walk) (named : List (Tier × Str)) (checks : List Check) (candidates : List Candidate) :
    Prop where
  terminates : Acc (fun w' w => Continues libs w w') walk
  tiers : candidates.Pairwise fun a b => rank a.tier ≤ rank b.tier
  /-- Each candidate is one of a server that the walk is told of, and a scheme of it stays. -/
  schemes : ∀ c ∈ candidates, ∃ hint, (c.tier, hint) ∈ named ∧ c.base ∈ serverUrlCandidates hint ∧
    (hasScheme (trim hint) = true → scheme c.url = scheme (trim hint))
  /-- The candidates of every server are validated. -/
  checked : ∀ e ∈ named, ∀ text ∈ serverUrlCandidates e.2, ∃ check ∈ checks, check.text = text ∧ rank check.tier ≤ rank e.1
  /-- What is valid is handed out, then or before. -/
  complete : ∀ check ∈ checks, check.valid = true → ∃ c ∈ candidates, c.base = check.text ∧ rank c.tier ≤ rank check.tier
  distinct : (candidates.map Candidate.url).Nodup

/-- A walk is told about the candidates that it has pending, and those of the author. -/
theorem Hears.map_eq {walk : Walk} {events : Events} {checks : List Check} (h : Hears libs walk events servers checks) :
    checks.map (fun check => (check.tier, check.text)) = walk.pending ++ Walk.userCandidates servers := by
  cases h with
  | settled hlist hchecks => exact hchecks.map_eq.trans (List.append_nil _).symm
  | fetches _ _ hchecks huser => rw [List.map_append, hchecks.map_eq, huser.map_eq]

/-- No two valid candidates differ in their last slashes alone. -/
def Separated (checks : List Check) : Prop :=
  ∀ a ∈ checks, ∀ b ∈ checks, a.valid = true → b.valid = true → trimEndMatches '/' a.text = trimEndMatches '/' b.text → a.text = b.text

/-- The bases that are handed out are the valid candidates. -/
theorem passing_eq {checks : List Check} (h : ∀ check ∈ checks, normalizeServerUrl check.text = check.text) :
    passing checks = (checks.filter Check.valid).map fun check => (check.tier, check.text) := by
  refine List.map_congr_left fun check hcheck => ?_
  rw [h check (List.mem_of_mem_filter hcheck)]

/-- The URLs that are handed out are distinct exactly when no two valid candidates differ in their last slashes alone. -/
theorem nodup_urls_iff {walk : Walk} {checks : List Check} (htried : walk.tried = [])
    (h : passing checks = (checks.filter Check.valid).map fun check => (check.tier, check.text)) :
    ((handsOut walk checks).map Candidate.url).Nodup ↔ Separated checks := by
  have hurls : (handsOut walk checks).map Candidate.url =
      ((firsts Prod.snd (passing checks) []).map Prod.snd).map (blobUrl · walk.filename) := by
    rw [handsOut, htried, List.map_map, List.map_map]
    rfl
  have hmem : ∀ text, text ∈ (firsts Prod.snd (passing checks) []).map Prod.snd ↔
      ∃ check ∈ checks, check.valid = true ∧ check.text = text := by
    intro text
    rw [mem_map_firsts, h, List.map_map, List.mem_map]
    simp only [List.mem_filter, Function.comp_apply, List.not_mem_nil, not_false_eq_true, and_true, and_assoc]
  rw [hurls, List.nodup_map_iff_inj_on nodup_map_firsts]
  simp only [hmem, blobUrl, List.append_left_inj]
  constructor
  · intro hinj a ha b hb hvalid hvalid' heq
    exact hinj _ ⟨a, ha, hvalid, rfl⟩ _ ⟨b, hb, hvalid', rfl⟩ heq
  · rintro hsep _ ⟨a, ha, hvalid, rfl⟩ _ ⟨b, hb, hvalid', rfl⟩ heq
    exact hsep a ha b hb hvalid hvalid' heq

/-- A walk from its start to its end keeps what is said about it exactly when no two valid candidates differ in their last slashes
alone. -/
theorem upstream_walk_iff {cfg : UpstreamConfig} {filename : Str} {customOrigin : Option Str} {xsServers : Option (List Str)}
    {authorPubkey : Option PublicKey} {events : Events} {candidates : List Candidate}
    (h : Ends cfg.libs (Walk.new cfg.upstreamServers filename customOrigin xsServers authorPubkey) events candidates) :
    ∃ servers checks, Hears cfg.libs (Walk.new cfg.upstreamServers filename customOrigin xsServers authorPubkey) events servers checks ∧
      (WalksWell cfg.libs (Walk.new cfg.upstreamServers filename customOrigin xsServers authorPubkey)
        (named customOrigin xsServers cfg.upstreamServers servers) checks candidates ↔ Separated checks) := by
  obtain ⟨servers, checks, hhears, rfl⟩ := h.spec
  have hmap : checks.map (fun check => (check.tier, check.text)) = offered customOrigin xsServers cfg.upstreamServers servers :=
    hhears.map_eq
  have hoffered : ∀ check ∈ checks, (check.tier, check.text) ∈ offered customOrigin xsServers cfg.upstreamServers servers := by
    intro check hcheck
    exact hmap ▸ List.mem_map_of_mem hcheck
  have hpassing : passing checks = (checks.filter Check.valid).map fun check => (check.tier, check.text) := by
    refine passing_eq fun check hcheck => ?_
    obtain ⟨hint, _, htext⟩ := exists_named_of_mem_offered (hoffered check hcheck)
    exact normalizeServerUrl_candidate htext
  have hordered : (passing checks).Pairwise fun a b => rank a.1 ≤ rank b.1 := by
    rw [hpassing]
    exact (hmap ▸ pairwise_offered).sublist ((List.filter_sublist).map _)
  refine ⟨servers, checks, hhears, fun hwell => (nodup_urls_iff rfl hpassing).1 hwell.distinct, fun hsep => ?_⟩
  refine ⟨acc_continues _ _, ?_, ?_, ?_, ?_, (nodup_urls_iff rfl hpassing).2 hsep⟩
  · exact List.pairwise_map.2 (hordered.sublist firsts_sublist)
  · intro c hc
    obtain ⟨e, he, rfl⟩ := List.mem_map.1 hc
    have hmem : e ∈ passing checks := firsts_sublist.subset he
    rw [hpassing] at hmem
    obtain ⟨check, hcheck, rfl⟩ := List.mem_map.1 hmem
    obtain ⟨hint, hnamed, htext⟩ := exists_named_of_mem_offered (hoffered check (List.mem_of_mem_filter hcheck))
    refine ⟨hint, hnamed, htext, fun hscheme => ?_⟩
    have hown : check.text = trim hint := by
      rw [serverUrlCandidates, if_pos hscheme] at htext
      exact List.mem_singleton.1 htext
    show scheme (blobUrl check.text _) = _
    rw [hown, scheme_blobUrl hscheme]
  · intro e he text htext
    obtain ⟨a, ha, htext, hrank⟩ := exists_offered_of_named he htext
    rw [← hmap] at ha
    obtain ⟨check, hcheck, rfl⟩ := List.mem_map.1 ha
    exact ⟨check, hcheck, htext, hrank⟩
  · intro check hcheck hvalid
    have hmem : (check.tier, check.text) ∈ passing checks := by
      rw [hpassing]
      exact List.mem_map.2 ⟨check, List.mem_filter.2 ⟨hcheck, hvalid⟩, rfl⟩
    have hseen : (check.tier, check.text).2 ∉ ([] : List Str) := nofun
    obtain ⟨e, he, htext, hrank⟩ := exists_firsts_before (fun a => Nat.le_refl (rank a.1)) hordered hmem hseen
    exact ⟨_, List.mem_map_of_mem he, htext, hrank⟩

/-- The start of a walk over some configured servers. -/
def overServers (configured : List Str) : Walk :=
  .new configured "x".toList none none none

/-- The libraries, on the URLs of two hosts. -/
def twoHosts : NetLibs :=
  { oneHost with
    parse s :=
      if "https://b.example".toList.isPrefixOf s then some ⟨"https".toList, some "b.example".toList, some 443, s⟩ else oneHost.parse s }

/-- A configuration with two servers. -/
def twoServers : UpstreamConfig :=
  { oneServer with libs := twoHosts, upstreamServers := ["https://a.example".toList, "https://b.example".toList] }

/-- The lookup of a host. -/
def found (host : Str) : Task.Event NetReq NetResp :=
  ⟨.lookupHost host 443, .ok [⟨.v4 (.replicate 4 8), 443⟩]⟩

/-- The URLs of the hosts are valid. -/
theorem validates_twoHosts {text host : Str} (h : (text, host) ∈ [("https://a.example".toList, "a.example".toList),
    ("https://a.example/".toList, "a.example".toList), ("https://b.example".toList, "b.example".toList)]) :
    (validateUpstreamUrl twoHosts text).run.Returns [found host] (.ok text) := by
  simp only [List.mem_cons, Prod.mk.injEq, List.not_mem_nil, or_false] at h
  rcases h with ⟨rfl, rfl⟩ | ⟨rfl, rfl⟩ | ⟨rfl, rfl⟩
  all_goals
    apply Task.Returns.of_call
    · rfl
    · exact ⟨rfl, rfl⟩

/-- A candidate that is valid and new is handed out. -/
theorem returns_next_cons {walk : Walk} {tier : Tier} {text base : Str} {pending : List (Tier × Str)} {events : Events}
    (hpending : walk.pending = (tier, text) :: pending) (hvalid : (validateUpstreamUrl libs text).run.Returns events (.ok base))
    (hnew : base ∉ walk.tried) :
    (walk.next libs).Returns events
      (some (handOut walk.filename (tier, base)), { walk with pending := pending, tried := base :: walk.tried }) := by
  have hpop : (walk.popPending libs walk.pending).Returns events
      (some (handOut walk.filename (tier, base)), { walk with pending := pending, tried := base :: walk.tried }) := by
    rw [hpending]
    refine Task.returns_bind_iff.2 ⟨events, [], .ok base, (List.append_nil _).symm, hvalid, ?_⟩
    simp only [hnew, if_false]
    exact ⟨rfl, rfl⟩
  exact Task.returns_bind_iff.2 ⟨events, [], _, (List.append_nil _).symm, hpop, rfl, rfl⟩

/-- A walk over two servers. -/
theorem ends_two : Ends twoHosts (overServers ["https://a.example".toList, "https://b.example".toList])
    ([found "a.example".toList] ++ ([found "b.example".toList] ++ []))
    [⟨.configured, "https://a.example".toList, "https://a.example/x".toList⟩,
      ⟨.configured, "https://b.example".toList, "https://b.example/x".toList⟩] :=
  .more (returns_next_cons rfl (validates_twoHosts (by decide)) nofun)
    (.more (returns_next_cons rfl (validates_twoHosts (by decide)) (by decide)) (.done ⟨rfl, rfl⟩))

/-- A walk over a server and the same one with a slash. -/
theorem ends_twice : Ends twoHosts (overServers ["https://a.example".toList, "https://a.example/".toList])
    ([found "a.example".toList] ++ ([found "a.example".toList] ++ []))
    [⟨.configured, "https://a.example".toList, "https://a.example/x".toList⟩,
      ⟨.configured, "https://a.example/".toList, "https://a.example/x".toList⟩] :=
  .more (returns_next_cons rfl (validates_twoHosts (by decide)) nofun)
    (.more (returns_next_cons rfl (validates_twoHosts (by decide)) (by decide)) (.done ⟨rfl, rfl⟩))

/-- Two servers on two hosts are tried one after the other. -/
theorem upstream_walk_iff_two : ∃ servers checks,
    Hears twoHosts (overServers ["https://a.example".toList, "https://b.example".toList])
        ([found "a.example".toList] ++ ([found "b.example".toList] ++ [])) servers checks ∧
      (WalksWell twoHosts (overServers ["https://a.example".toList, "https://b.example".toList])
        (named none none ["https://a.example".toList, "https://b.example".toList] servers) checks
        [⟨.configured, "https://a.example".toList, "https://a.example/x".toList⟩,
          ⟨.configured, "https://b.example".toList, "https://b.example/x".toList⟩] ↔ Separated checks) := by
  have hends : Ends twoServers.libs (Walk.new twoServers.upstreamServers "x".toList none none none) _ _ := ends_two
  exact upstream_walk_iff hends

/-- The same blob is asked for twice of a server that is configured with and without a slash. -/
theorem upstream_walk_false :
    ¬ ∀ (cfg : UpstreamConfig) (filename : Str) (customOrigin : Option Str) (xsServers : Option (List Str))
        (authorPubkey : Option PublicKey) (events : Events) (candidates : List Candidate),
      Ends cfg.libs (Walk.new cfg.upstreamServers filename customOrigin xsServers authorPubkey) events candidates →
        (candidates.map Candidate.url).Nodup := by
  intro hall
  have hnodup := hall { twoServers with upstreamServers := ["https://a.example".toList, "https://a.example/".toList] } "x".toList none none
    none _ _ ends_twice
  exact absurd hnodup (by decide)

end Almond.UpstreamCandidates
