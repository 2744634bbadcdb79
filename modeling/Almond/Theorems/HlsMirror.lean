import Almond.Lemmas.HlsGraphAux

/-! # The rounds of a mirror -/

namespace Almond.Hls

open Conc

/-! ## A mirror is bounded -/

/-- Whatever the playlists say and in whatever order the attempts finish: a mirror has few rounds, each attempts few references,
every attempt of a round has one result, and no hash is attempted twice. -/
theorem mirror_bounded (isWord : Char → Bool) (concurrency : Nat) {env : Nat → RoundEnv} (h : Fair concurrency env)
    (references : List HlsReference) :
    (mirrorHlsReferences isWord env references).length ≤ maxRecursionDepth ∧
      (∀ attempted ∈ mirrorHlsReferences isWord env references, attempted.length ≤ maxReferencesPerRound) ∧
      (∀ round attempted, (mirrorHlsReferences isWord env references)[round]? = some attempted →
        (((env round).results attempted).map Prod.fst).Perm attempted) ∧
      (hashes (mirrorHlsReferences isWord env references).flatten).Nodup := by
  obtain ⟨hq, _⟩ := retainUnseen_spec references ∅
  have hsub := List.take_sublist maxReferencesPerRound (retainUnseen references ∅).1
  have hseen : ∀ h ∈ hashes ((retainUnseen references ∅).1.take maxReferencesPerRound), h ∈ (retainUnseen references ∅).2 :=
    fun h hh => (hq.seen h).2 (.inr ((hsub.map _).subset hh))
  obtain ⟨hlength, hround, hnodup, _⟩ := mirrorRounds_bounded isWord maxRecursionDepth env (hq.nodup.sublist (hsub.map _)) hseen
  exact ⟨hlength, hround, fun round attempted _ => (h round attempted).perm, hnodup⟩

namespace Sample

/-- The results in the order of the attempts: each finds its blob stored. -/
def storedAll (references : List HlsReference) : List (HlsReference × Except String Bool) :=
  references.map fun r => (r, .ok false)

/-- A playlist. -/
def playlist : HlsReference := ⟨List.replicate 64 'a', some "m3u8".toList⟩

/-- The only playlist refers to itself. -/
def selfReferring (sha256 : Str) : Option Str :=
  some (sha256 ++ ".m3u8\n".toList)

end Sample

open Hls.Sample in
/-- A playlist that refers to itself is attempted once. -/
theorem mirror_bounded_cycle :
    (hashes (mirrorHlsReferences Char.isAlphanum (fun _ => ⟨storedAll, selfReferring⟩) [playlist]).flatten).Nodup ∧
      mirrorHlsReferences Char.isAlphanum (fun _ => ⟨storedAll, selfReferring⟩) [playlist] = [[playlist]] :=
  ⟨(mirror_bounded Char.isAlphanum 4 (fun _ _ => Buffered.in_order (by decide) _ _) [playlist]).2.2.2, by decide⟩

/-! ## A mirror is complete -/

section

variable (isWord : Char → Bool) (text : Str → Option Str) (env : Nat → RoundEnv) (references : List HlsReference)

/-- The graph of the stored playlists, within the limits of a mirror. -/
structure WithinLimits : Prop where
  /-- Few hashes can be reached. -/
  hashes : ∃ S : Finset Str, S.card ≤ maxReferencesTotal ∧
    ∀ n r, Reaches (collectPlaylistReferences isWord text) references n r → r.sha256 ∈ S
  /-- Each of them within few levels. -/
  depth : ∀ n r, Reaches (collectPlaylistReferences isWord text) references n r →
    ∃ m < maxRecursionDepth, Reaches (collectPlaylistReferences isWord text) references m r

/-- Everything that can be reached is attempted. -/
def Complete : Prop :=
  ∀ n r, Reaches (collectPlaylistReferences isWord text) references n r →
    r.sha256 ∈ Hls.hashes (mirrorHlsReferences isWord env references).flatten

/-- The rounds as they would be without any limit. -/
def unlimited : List (List HlsReference) :=
  wholeRounds (collectPlaylistReferences isWord text) maxRecursionDepth env (retainUnseen references ∅).1 (retainUnseen references ∅).2

end

section

variable {isWord : Char → Bool} {text : Str → Option Str} {env : Nat → RoundEnv} {references : List HlsReference} {concurrency : Nat}

/-- The list that the first round gets may be cut before. -/
theorem mirrorRounds_take (left : Nat) (allReferences : List HlsReference) (seen : Finset Str) :
    mirrorRounds isWord left env (allReferences.take maxReferencesPerRound) seen = mirrorRounds isWord left env allReferences seen := by
  cases left with
  | zero => rfl
  | succ left =>
    have hnil : allReferences.take maxReferencesPerRound = [] ↔ allReferences = [] := by
      rw [List.take_eq_nil_iff]
      exact or_iff_right (by decide)
    simp only [mirrorRounds_succ, afterRound, List.take_take, Nat.min_self, hnil]

/-- The rounds of a mirror. -/
theorem mirrorHlsReferences_eq : mirrorHlsReferences isWord env references =
    mirrorRounds isWord maxRecursionDepth env (retainUnseen references ∅).1 (retainUnseen references ∅).2 :=
  mirrorRounds_take ..

/-- The references of the first round can be reached. -/
theorem met_first {S : Finset Str} (hreach : ∀ n r, Reaches (collectPlaylistReferences isWord text) references n r → r.sha256 ∈ S) :
    Met (collectPlaylistReferences isWord text) references S (retainUnseen references ∅).1 (retainUnseen references ∅).2 := by
  obtain ⟨hq, _⟩ := retainUnseen_spec references ∅
  refine ⟨fun r hr => ⟨0, .listed ((retainUnseen_sublist ..).subset hr)⟩, hq.nodup, fun h hh => (hq.seen h).2 (.inr hh), ?_⟩
  exact retainUnseen_subset (fun r hr => hreach 0 r (.listed hr)) (Finset.empty_subset S)

/-- In a graph that names every blob in one way, the rounds would be the levels of the graph. -/
theorem unlimited_level (hfair : Fair concurrency env) (huniform : Uniform (collectPlaylistReferences isWord text) references) :
    ∀ i < maxRecursionDepth, ∃ round, (unlimited isWord text env references)[i]? = some round ∧ (hashes round).Nodup ∧
      ∀ h, h ∈ hashes round ↔ AtLevel (collectPlaylistReferences isWord text) references i h := by
  intro i hi
  obtain ⟨round, hround, hnodup, hlevel⟩ := wholeRounds_level maxRecursionDepth leveled_zero hfair huniform i hi
  exact ⟨round, hround, hnodup, fun h => by rw [hlevel, Nat.zero_add]⟩

/-- A graph that names every blob in one way is met by rounds that are not cut, and they are small exactly when its levels are. -/
theorem unlimited_of_uniform (hfair : Fair concurrency env) (hlimits : WithinLimits isWord text references)
    (huniform : Uniform (collectPlaylistReferences isWord text) references) :
    (∀ n r, Reaches (collectPlaylistReferences isWord text) references n r → r.sha256 ∈ hashes (unlimited isWord text env references).flatten) ∧
      ((∀ round ∈ unlimited isWord text env references, round.length ≤ maxReferencesPerRound) ↔
        ∀ i < maxRecursionDepth, ∀ S : Finset Str,
          (∀ h ∈ S, AtLevel (collectPlaylistReferences isWord text) references i h) → S.card ≤ maxReferencesPerRound) := by
  have hlevels := unlimited_level hfair huniform
  refine ⟨fun n r hr => ?_, fun hsmall i hi S hS => ?_, fun hsmall round hround => ?_⟩
  · obtain ⟨m, hm, hr⟩ := hlimits.depth n r hr
    obtain ⟨j, hj, hlevel⟩ := exists_atLevel hr
    obtain ⟨round, hround, _, hiff⟩ := hlevels j (Nat.lt_of_le_of_lt hj hm)
    obtain ⟨r', hr', heq⟩ := List.mem_map.1 ((hiff _).2 hlevel)
    rw [← heq]
    exact List.mem_map_of_mem (List.mem_flatten_of_mem (List.mem_of_getElem? hround) hr')
  · obtain ⟨round, hround, _, hiff⟩ := hlevels i hi
    have hsub : S ⊆ (hashes round).toFinset := fun h hh => List.mem_toFinset.2 ((hiff h).2 (hS h hh))
    refine (Finset.card_le_card hsub).trans ((List.toFinset_card_le _).trans ?_)
    rw [hashes, List.length_map]
    exact hsmall round (List.mem_of_getElem? hround)
  · obtain ⟨i, hi, heq⟩ := List.getElem_of_mem hround
    have hi' : i < maxRecursionDepth := by
      rw [unlimited, length_wholeRounds] at hi
      exact hi
    obtain ⟨round', hround', hnodup, hiff⟩ := hlevels i hi'
    rw [List.getElem?_eq_getElem hi, heq] at hround'
    obtain rfl := Option.some.inj hround'
    have hcard := hsmall i hi' (hashes round).toFinset fun h hh => (hiff h).1 (List.mem_toFinset.1 hh)
    rwa [List.toFinset_card_of_nodup hnodup, hashes, List.length_map] at hcard

/-- Of references to different blobs, all are retained. -/
theorem length_le_retainUnseen (h : (hashes references).Nodup) : references.length ≤ (retainUnseen references ∅).1.length := by
  obtain ⟨hq, hall⟩ := retainUnseen_spec references ∅
  have hsub : (hashes references).toFinset ⊆ (hashes (retainUnseen references ∅).1).toFinset := by
    intro x hx
    obtain ⟨r, hr, rfl⟩ := List.mem_map.1 (List.mem_toFinset.1 hx)
    exact List.mem_toFinset.2 (((hq.seen _).1 (hall r hr)).resolve_left (Finset.notMem_empty _))
  have hcard := Finset.card_le_card hsub
  rwa [List.toFinset_card_of_nodup h, List.toFinset_card_of_nodup hq.nodup, hashes, hashes, List.length_map, List.length_map] at hcard

/-- A list that names too many blobs is not mirrored as a whole. -/
theorem not_complete_of_large (hfair : Fair concurrency env) (hsucc : Succeeding text env) (hlimits : WithinLimits isWord text references)
    (hnodup : (hashes references).Nodup) (hlarge : maxReferencesPerRound < references.length) :
    ¬ Complete isWord text env references := by
  obtain ⟨S, hS, hreach⟩ := hlimits.hashes
  have hmet := met_first hreach
  rcases mirrorRounds_cases maxRecursionDepth hmet hfair hsucc hS hreach with ⟨hall, _⟩ | ⟨_, r, hr, hlost⟩
  · exact absurd (hall _ List.mem_cons_self) (Nat.not_le.2 (hlarge.trans_le (length_le_retainUnseen hnodup)))
  · intro hcomplete
    obtain ⟨n, hn⟩ := wholeRounds_reached maxRecursionDepth hmet hfair hreach r hr
    have hmem := hcomplete n r hn
    rw [mirrorHlsReferences_eq] at hmem
    exact hlost hmem

/-- A mirror whose attempts succeed attempts everything exactly when none of the rounds would be too large and together they would meet
everything; in a graph that names every blob in one way, exactly when no level of the graph is too large. -/
theorem mirror_complete_iff (hfair : Fair concurrency env) (hsucc : Succeeding text env) (hlimits : WithinLimits isWord text references) :
    (Complete isWord text env references ↔
      (∀ round ∈ unlimited isWord text env references, round.length ≤ maxReferencesPerRound) ∧
        ∀ n r, Reaches (collectPlaylistReferences isWord text) references n r →
          r.sha256 ∈ hashes (unlimited isWord text env references).flatten) ∧
      (Uniform (collectPlaylistReferences isWord text) references →
        (Complete isWord text env references ↔ ∀ i < maxRecursionDepth, ∀ S : Finset Str,
          (∀ h ∈ S, AtLevel (collectPlaylistReferences isWord text) references i h) → S.card ≤ maxReferencesPerRound)) := by
  obtain ⟨S, hS, hreach⟩ := hlimits.hashes
  have hmet := met_first hreach
  have hiff : Complete isWord text env references ↔
      (∀ round ∈ unlimited isWord text env references, round.length ≤ maxReferencesPerRound) ∧
        ∀ n r, Reaches (collectPlaylistReferences isWord text) references n r →
          r.sha256 ∈ hashes (unlimited isWord text env references).flatten := by
    rw [Complete, mirrorHlsReferences_eq]
    rcases mirrorRounds_cases maxRecursionDepth hmet hfair hsucc hS hreach with ⟨hall, heq⟩ | ⟨⟨round, hround, hlong⟩, r, hr, hlost⟩
    · rw [heq]
      exact ⟨fun hcomplete => ⟨hall, hcomplete⟩, And.right⟩
    · obtain ⟨n, hn⟩ := wholeRounds_reached maxRecursionDepth hmet hfair hreach r hr
      exact ⟨fun hcomplete => absurd (hcomplete n r hn) hlost, fun ⟨hall, _⟩ => absurd (hall round hround) (Nat.not_le.2 hlong)⟩
  refine ⟨hiff, fun huniform => ?_⟩
  obtain ⟨hcovers, hsmall⟩ := unlimited_of_uniform hfair hlimits huniform
  rw [hiff, ← hsmall]
  exact and_iff_left hcovers

end

namespace Sample

/-- The name of a segment. -/
def segmentName (n : Nat) : Str :=
  [Nat.digitChar (n / 100), Nat.digitChar (n / 10 % 10), Nat.digitChar (n % 10)] ++ List.replicate 61 '0'

/-- The number of a segment. -/
def segmentNumber (name : Str) : Nat :=
  digitsValue (name.take 3)

/-- The segments of a playlist. -/
def segments (n : Nat) : List HlsReference :=
  (List.range n).map fun i => ⟨segmentName i, some "ts".toList⟩

/-- A segment has its number in its name. -/
theorem segmentNumber_segmentName {n : Nat} (h : n < 1000) : segmentNumber (segmentName n) = n := by
  have hdigit : ∀ d < 10, digitValue (Nat.digitChar d) = d := by decide
  have hvalue : segmentNumber (segmentName n) =
      10 * (10 * (10 * 0 + digitValue (Nat.digitChar (n / 100))) + digitValue (Nat.digitChar (n / 10 % 10))) +
        digitValue (Nat.digitChar (n % 10)) := rfl
  rw [hvalue, hdigit _ (by omega), hdigit _ (by omega), hdigit _ (by omega)]
  omega

/-- Segments have different names. -/
theorem nodup_segments {n : Nat} (h : n ≤ 1000) : (hashes (segments n)).Nodup := by
  have hnames : hashes (segments n) = (List.range n).map segmentName := List.map_map
  rw [hnames]
  refine List.Nodup.map_on (fun i hi j hj heq => ?_) List.nodup_range
  rw [← segmentNumber_segmentName (Nat.lt_of_lt_of_le (List.mem_range.1 hi) h), heq,
    segmentNumber_segmentName (Nat.lt_of_lt_of_le (List.mem_range.1 hj) h)]

/-- What can be reached from segments are they. -/
theorem reaches_segments {children : Str → List HlsReference} {n m : Nat} {r : HlsReference} (h : Reaches children (segments n) m r) :
    m = 0 ∧ r ∈ segments n := by
  induction h with
  | listed h => exact ⟨rfl, h⟩
  | child _ hp _ ih =>
    obtain ⟨i, _, rfl⟩ := List.mem_map.1 ih.2
    nomatch hp

/-- Every attempt succeeds. -/
theorem storedAll_ok (references : List HlsReference) : ∀ x ∈ storedAll references, ∃ stored, x.2 = .ok stored := by
  intro x hx
  obtain ⟨r, _, rfl⟩ := List.mem_map.1 hx
  exact ⟨false, rfl⟩

/-- Segments are within the limits. -/
theorem withinLimits_segments {isWord : Char → Bool} {text : Str → Option Str} {n : Nat} (h : n ≤ maxReferencesTotal) :
    WithinLimits isWord text (segments n) where
  hashes := by
    refine ⟨(Hls.hashes (segments n)).toFinset, (List.toFinset_card_le _).trans ?_, fun m r hr => ?_⟩
    · simpa [Hls.hashes, segments] using h
    · exact List.mem_toFinset.2 (List.mem_map_of_mem (reaches_segments hr).2)
  depth m r hr := ⟨0, by decide, .listed (reaches_segments hr).2⟩

end Sample

open Hls.Sample in
/-- A playlist of 129 segments is not mirrored as a whole: a round attempts at most 128, and the one that was cut is never tried
again. -/
theorem mirror_complete_false : ∃ (env : Nat → RoundEnv) (text : Str → Option Str) (references : List HlsReference),
    Fair 4 env ∧ Succeeding text env ∧ WithinLimits Char.isAlphanum text references ∧ ¬ Complete Char.isAlphanum text env references := by
  refine ⟨fun _ => ⟨storedAll, fun _ => none⟩, fun _ => none, segments 129, fun _ _ => Buffered.in_order (by decide) _ _,
    fun _ => ⟨rfl, storedAll_ok⟩, withinLimits_segments (by decide), ?_⟩
  exact not_complete_of_large (fun _ _ => Buffered.in_order (n := max 4 1) (by decide) _ _) (fun _ => ⟨rfl, storedAll_ok⟩)
    (withinLimits_segments (by decide)) (nodup_segments (by decide)) (by simp [segments, maxReferencesPerRound])

open Hls.Sample in
/-- A short playlist is mirrored as a whole. -/
theorem mirror_complete_iff_short :
    Complete Char.isAlphanum (fun _ => none) (fun _ => ⟨storedAll, fun _ => none⟩) (segments 2) ↔
      ∀ i < maxRecursionDepth, ∀ S : Finset Str,
        (∀ h ∈ S, AtLevel (collectPlaylistReferences Char.isAlphanum fun _ => none) (segments 2) i h) → S.card ≤ maxReferencesPerRound := by
  have hsucc : Succeeding (fun _ => none) fun _ => ⟨storedAll, fun _ => none⟩ := fun _ => ⟨rfl, storedAll_ok⟩
  refine (mirror_complete_iff (fun _ _ => Buffered.in_order (n := max 4 1) (by decide) _ _) hsucc
    (withinLimits_segments (n := 2) (by decide))).2 fun n m r r' hr hr' _ => ?_
  obtain ⟨i, _, rfl⟩ := List.mem_map.1 (reaches_segments hr).2
  obtain ⟨j, _, rfl⟩ := List.mem_map.1 (reaches_segments hr').2
  rfl

end Almond.Hls
