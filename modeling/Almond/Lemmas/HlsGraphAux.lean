import Almond.Lemmas.HlsMirrorAux

/-! # The graph of the playlists

What can be reached from some references, and the rounds that would mirror it if no round were cut. -/

namespace Almond.Hls

open Conc

/-- What can be reached from some references: they themselves, and what the playlists refer to that were reached, level by level. -/
inductive Reaches (children : Str → List HlsReference) (references : List HlsReference) : Nat → HlsReference → Prop
  | listed {r : HlsReference} (h : r ∈ references) : Reaches children references 0 r
  | child {n : Nat} {p r : HlsReference} (h : Reaches children references n p) (hp : p.isPlaylist = true) (hr : r ∈ children p.sha256) :
      Reaches children references (n + 1) r

/-- The outside lets the attempts of a round finish in any order that a buffer allows. -/
def Fair (concurrency : Nat) (env : Nat → RoundEnv) : Prop :=
  ∀ round references, Buffered (max concurrency 1) references [] ((env round).results references)

/-- Every attempt succeeds, and what is stored is what the graph says. -/
def Succeeding (text : Str → Option Str) (env : Nat → RoundEnv) : Prop :=
  ∀ round, (env round).text = text ∧ ∀ references, ∀ x ∈ (env round).results references, ∃ stored, x.2 = .ok stored

/-- What the playlists of a round refer to. -/
def listed (children : Str → List HlsReference) (results : List (HlsReference × Except String Bool)) : List HlsReference :=
  results.flatMap fun x => if x.1.isPlaylist then children x.1.sha256 else []

/-- The rounds without any limit on their size. -/
def wholeRounds (children : Str → List HlsReference) : (left : Nat) → (Nat → RoundEnv) → List HlsReference → Finset Str →
    List (List HlsReference)
  | 0, _, _, _ => []
  | left + 1, env, allReferences, seen =>
    let (nextRound, seen) := retainUnseen (listed children ((env 0).results allReferences)) seen
    allReferences :: wholeRounds children left (fun n => env (n + 1)) nextRound seen

section

variable {children : Str → List HlsReference} {references allReferences : List HlsReference} {seen S : Finset Str} {h : Str}

/-! ## Queues that reach no limit -/

/-- One list after another. -/
theorem retainUnseen_append (a b : List HlsReference) (seen : Finset Str) :
    retainUnseen (a ++ b) seen = ((retainUnseen a seen).1 ++ (retainUnseen b (retainUnseen a seen).2).1,
      (retainUnseen b (retainUnseen a seen).2).2) := by
  induction a generalizing seen with
  | nil => rfl
  | cons r a ih =>
    rw [List.cons_append, retainUnseen, retainUnseen]
    split
    · exact ih seen
    · rw [ih]
      rfl

/-- What is retained is in the list. -/
theorem retainUnseen_sublist (a : List HlsReference) (seen : Finset Str) : (retainUnseen a seen).1.Sublist a := by
  induction a generalizing seen with
  | nil => exact .slnil
  | cons r a ih =>
    rw [retainUnseen]
    split
    · exact (ih seen).cons r
    · exact (ih _).cons_cons r

/-- The hashes that were seen stay within a set that has those of the references. -/
theorem retainUnseen_subset {a : List HlsReference} (ha : ∀ r ∈ a, r.sha256 ∈ S) (hseen : seen ⊆ S) : (retainUnseen a seen).2 ⊆ S := by
  intro h hh
  obtain ⟨hq, _⟩ := retainUnseen_spec a seen
  rcases (hq.seen h).1 hh with hh | hh
  · exact hseen hh
  · obtain ⟨r, hr, rfl⟩ := List.mem_map.1 hh
    exact ha r ((retainUnseen_sublist a seen).subset hr)

/-- Within few hashes, every reference of a playlist is queued that was not seen. -/
theorem queueChildren_eq {cs queued : List HlsReference} (hS : S.card ≤ maxReferencesTotal) (hcs : ∀ r ∈ cs, r.sha256 ∈ S)
    (hseen : seen ⊆ S) : queueChildren cs (queued, seen) = (queued ++ (retainUnseen cs seen).1, (retainUnseen cs seen).2) := by
  induction cs generalizing queued seen with
  | nil => rw [queueChildren, retainUnseen, List.append_nil]
  | cons c cs ih =>
    obtain ⟨hc, hcs'⟩ := List.forall_mem_cons.1 hcs
    rw [queueChildren, retainUnseen]
    split
    · rename_i hfull
      -- All hashes of the set were seen, so that nothing is left to queue.
      have hall : seen = S := Finset.eq_of_subset_of_card_le hseen (hS.trans hfull)
      have hnone : ∀ cs : List HlsReference, (∀ r ∈ cs, r.sha256 ∈ S) → retainUnseen cs S = ([], S) := by
        intro cs hcs
        induction cs with
        | nil => rfl
        | cons r cs ih =>
          obtain ⟨hr, hcs⟩ := List.forall_mem_cons.1 hcs
          rw [retainUnseen, if_pos hr]
          exact ih hcs
      subst hall
      rw [if_pos hc, hnone cs hcs', List.append_nil]
    · split
      · exact ih hcs' hseen
      · rw [ih hcs' (Finset.insert_subset hc hseen), List.append_assoc, List.singleton_append]

/-- Within few hashes, every reference of the playlists of a successful round is queued that was not seen. -/
theorem queueResults_eq {results : List (HlsReference × Except String Bool)} {queued : List HlsReference}
    (hS : S.card ≤ maxReferencesTotal) (hok : ∀ x ∈ results, ∃ stored, x.2 = .ok stored) (hcs : ∀ r ∈ listed children results, r.sha256 ∈ S)
    (hseen : seen ⊆ S) : queueResults children results (queued, seen) =
      (queued ++ (retainUnseen (listed children results) seen).1, (retainUnseen (listed children results) seen).2) := by
  induction results generalizing queued seen with
  | nil => simp [queueResults, listed, retainUnseen]
  | cons x results ih =>
    obtain ⟨r, x⟩ := x
    obtain ⟨⟨stored, hx⟩, hok'⟩ := List.forall_mem_cons.1 hok
    have hx : x = .ok stored := hx
    subst hx
    have hsplit : listed children ((r, .ok stored) :: results) =
        (if r.isPlaylist then children r.sha256 else []) ++ listed children results := List.flatMap_cons
    rw [hsplit] at hcs ⊢
    obtain ⟨hfirst, hrest⟩ := List.forall_mem_append.1 hcs
    rw [queueResults, retainUnseen_append]
    split
    · rename_i hp
      rw [if_pos hp] at hfirst
      rw [queueChildren_eq hS hfirst hseen, ih hok' hrest (retainUnseen_subset hfirst hseen), List.append_assoc]
    · exact ih hok' hrest hseen

/-! ## Rounds that are not cut -/

section

variable {concurrency left : Nat} {env : Nat → RoundEnv} {isWord : Char → Bool} {text : Str → Option Str} {k : Nat}

/-- The outside from the next round on. -/
theorem Fair.tail (h : Fair concurrency env) : Fair concurrency fun n => env (n + 1) :=
  fun round => h (round + 1)

/-- The outside from the next round on. -/
theorem Succeeding.tail (h : Succeeding text env) : Succeeding text fun n => env (n + 1) :=
  fun round => h (round + 1)

/-- What the playlists of a round refer to, by the references of the round. -/
theorem mem_listed_iff (hfair : Fair concurrency env) {r : HlsReference} :
    r ∈ listed children ((env 0).results allReferences) ↔
      ∃ p ∈ allReferences, p.isPlaylist = true ∧ r ∈ children p.sha256 := by
  have hperm := (hfair 0 allReferences).perm
  rw [List.nil_append] at hperm
  rw [listed, List.mem_flatMap]
  constructor
  · rintro ⟨x, hx, hr⟩
    split at hr
    · rename_i hp
      exact ⟨x.1, hperm.mem_iff.1 (List.mem_map_of_mem hx), hp, hr⟩
    · nomatch hr
  · rintro ⟨p, hmem, hp, hr⟩
    obtain ⟨x, hx, rfl⟩ := List.mem_map.1 (hperm.mem_iff.2 hmem)
    exact ⟨x, hx, by rw [if_pos hp]; exact hr⟩

/-- A round that is not cut. -/
theorem afterRound_eq (hfair : Fair concurrency env) (hsucc : Succeeding text env) (hS : S.card ≤ maxReferencesTotal)
    (hreach : ∀ n r, Reaches (collectPlaylistReferences isWord text) references n r → r.sha256 ∈ S)
    (hrefs : ∀ r ∈ allReferences, ∃ n, Reaches (collectPlaylistReferences isWord text) references n r) (hseen : seen ⊆ S)
    (hround : allReferences.length ≤ maxReferencesPerRound) :
    afterRound isWord (env 0) allReferences seen =
      retainUnseen (listed (collectPlaylistReferences isWord text) ((env 0).results allReferences)) seen := by
  rw [afterRound, (hsucc 0).1, List.take_of_length_le hround, queueResults_eq hS ((hsucc 0).2 _) ?_ hseen, List.nil_append]
  intro r hr
  obtain ⟨p, hp, hplaylist, hr⟩ := (mem_listed_iff hfair).1 hr
  obtain ⟨n, hn⟩ := hrefs p hp
  exact hreach _ _ (.child hn hplaylist hr)

/-- What a mirror has to keep in mind: the references of a round can be reached, and their hashes were seen. -/
structure Met (children : Str → List HlsReference) (references : List HlsReference) (S : Finset Str) (allReferences : List HlsReference)
    (seen : Finset Str) : Prop where
  reached : ∀ r ∈ allReferences, ∃ n, Reaches children references n r
  nodup : (hashes allReferences).Nodup
  known : ∀ h ∈ hashes allReferences, h ∈ seen
  within : seen ⊆ S

/-- The next round. -/
theorem Met.next (hm : Met children references S allReferences seen) (hfair : Fair concurrency env)
    (hreach : ∀ n r, Reaches children references n r → r.sha256 ∈ S) :
    Met children references S (retainUnseen (listed children ((env 0).results allReferences)) seen).1
        (retainUnseen (listed children ((env 0).results allReferences)) seen).2 := by
  have hlisted : ∀ r ∈ listed children ((env 0).results allReferences), ∃ n, Reaches children references n r := by
    intro r hr
    obtain ⟨p, hp, hplaylist, hr⟩ := (mem_listed_iff hfair).1 hr
    obtain ⟨n, hn⟩ := hm.reached p hp
    exact ⟨n + 1, .child hn hplaylist hr⟩
  obtain ⟨hq, _⟩ := retainUnseen_spec (listed children ((env 0).results allReferences)) seen
  refine ⟨fun r hr => hlisted r ((retainUnseen_sublist ..).subset hr), hq.nodup, fun h hh => (hq.seen h).2 (.inr hh), ?_⟩
  refine retainUnseen_subset (fun r hr => ?_) hm.within
  obtain ⟨n, hn⟩ := hlisted r hr
  exact hreach n r hn

/-- The references of rounds that are not cut can be reached. -/
theorem wholeRounds_reached (left : Nat) (hm : Met children references S allReferences seen) (hfair : Fair concurrency env)
    (hreach : ∀ n r, Reaches children references n r → r.sha256 ∈ S) :
    ∀ r ∈ (wholeRounds children left env allReferences seen).flatten, ∃ n, Reaches children references n r := by
  induction left generalizing env allReferences seen with
  | zero => exact nofun
  | succ left ih =>
    rw [wholeRounds, List.flatten_cons]
    exact List.forall_mem_append.2 ⟨hm.reached, ih (hm.next hfair hreach) hfair.tail⟩

/-- No hash of a later round was seen before. -/
theorem wholeRounds_fresh (left : Nat) :
    ∀ h ∈ hashes (wholeRounds children left env allReferences seen).flatten, h ∈ hashes allReferences ∨ h ∉ seen := by
  induction left generalizing env allReferences seen with
  | zero => exact nofun
  | succ left ih =>
    rw [wholeRounds, List.flatten_cons, hashes_append]
    intro h hh
    obtain ⟨hq, _⟩ := retainUnseen_spec (listed children ((env 0).results allReferences)) seen
    rcases List.mem_append.1 hh with hh | hh
    · exact .inl hh
    · rcases ih h hh with hh | hh
      · exact .inr (hq.fresh h hh)
      · exact .inr fun hs => hh ((hq.seen h).2 (.inl hs))

/-- Without references there is nothing to mirror. -/
theorem wholeRounds_nil (children : Str → List HlsReference) (left : Nat) (hfair : Fair concurrency env) (seen : Finset Str) :
    (wholeRounds children left env [] seen).flatten = [] := by
  induction left generalizing env seen with
  | zero => rfl
  | succ left ih =>
    have hperm := (hfair 0 []).perm
    have hnone : (env 0).results [] = [] := List.map_eq_nil_iff.1 (List.perm_nil.1 hperm)
    rw [wholeRounds, List.flatten_cons, List.nil_append, hnone]
    exact ih hfair.tail _

/-- Where no round is too large, a mirror attempts what rounds that are not cut attempt; where one is too large, it never attempts one
of these. -/
theorem mirrorRounds_cases (left : Nat) (hm : Met (collectPlaylistReferences isWord text) references S allReferences seen)
    (hfair : Fair concurrency env) (hsucc : Succeeding text env) (hS : S.card ≤ maxReferencesTotal)
    (hreach : ∀ n r, Reaches (collectPlaylistReferences isWord text) references n r → r.sha256 ∈ S) :
    ((∀ round ∈ wholeRounds (collectPlaylistReferences isWord text) left env allReferences seen, round.length ≤ maxReferencesPerRound) ∧
        (mirrorRounds isWord left env allReferences seen).flatten =
          (wholeRounds (collectPlaylistReferences isWord text) left env allReferences seen).flatten) ∨
      ((∃ round ∈ wholeRounds (collectPlaylistReferences isWord text) left env allReferences seen, maxReferencesPerRound < round.length) ∧
        ∃ r ∈ (wholeRounds (collectPlaylistReferences isWord text) left env allReferences seen).flatten,
          r.sha256 ∉ hashes (mirrorRounds isWord left env allReferences seen).flatten) := by
  induction left generalizing env allReferences seen with
  | zero => exact .inl ⟨nofun, rfl⟩
  | succ left ih =>
    have hbreak : ¬ seen.card > maxReferencesTotal := Nat.not_lt.2 ((Finset.card_le_card hm.within).trans hS)
    by_cases hnil : allReferences = []
    · subst hnil
      have hnone := wholeRounds_nil (collectPlaylistReferences isWord text) (left + 1) hfair seen
      refine .inl ⟨fun round hr => ?_, ?_⟩
      · rw [List.flatten_eq_nil_iff.1 hnone round hr]
        exact Nat.zero_le _
      · rw [hnone, mirrorRounds_succ, if_pos (.inl rfl)]
        rfl
    · rw [mirrorRounds_succ, if_neg (not_or.2 ⟨hnil, hbreak⟩)]
      by_cases hround : allReferences.length ≤ maxReferencesPerRound
      · have hmet := hm.next hfair hreach
        rw [wholeRounds]
        rw [afterRound_eq hfair hsucc hS hreach hm.reached hm.within hround, List.take_of_length_le hround]
        obtain ⟨hq, _⟩ := retainUnseen_spec (listed (collectPlaylistReferences isWord text) ((env 0).results allReferences)) seen
        rcases ih hmet hfair.tail hsucc.tail with ⟨hall, heq⟩ | ⟨hsome, r, hr, hlost⟩
        · refine .inl ⟨List.forall_mem_cons.2 ⟨hround, hall⟩, ?_⟩
          rw [List.flatten_cons, List.flatten_cons, heq]
        · obtain ⟨round, hmem, hlong⟩ := hsome
          refine .inr ⟨⟨round, List.mem_cons_of_mem _ hmem, hlong⟩, r, ?_, ?_⟩
          · rw [List.flatten_cons]
            exact List.mem_append_right _ hr
          · rw [List.flatten_cons, hashes_append, List.mem_append, not_or]
            refine ⟨fun hh => ?_, hlost⟩
            -- Its hash was not seen when this round was queued.
            rcases wholeRounds_fresh left _ (List.mem_map_of_mem hr) with hh' | hh'
            · exact hq.fresh _ hh' (hm.known _ hh)
            · exact hh' ((hq.seen _).2 (.inl (hm.known _ hh)))
      · -- The first reference that is cut.
        have hlt : maxReferencesPerRound < allReferences.length := Nat.lt_of_not_le hround
        have hcut : allReferences[maxReferencesPerRound] ∈ allReferences := List.getElem_mem hlt
        rw [wholeRounds]
        refine .inr ⟨⟨_, List.mem_cons_self, hlt⟩, allReferences[maxReferencesPerRound], ?_, ?_⟩
        · rw [List.flatten_cons]
          exact List.mem_append_left _ hcut
        · rw [List.flatten_cons, hashes_append, List.mem_append, not_or]
          constructor
          · intro hh
            obtain ⟨i, hi, heq⟩ := List.getElem_of_mem hh
            have hi' : i < maxReferencesPerRound := by
              rw [hashes, List.length_map, List.length_take] at hi
              omega
            have hlength : (hashes allReferences).length = allReferences.length := List.length_map _
            have hcutHash : maxReferencesPerRound < (hashes allReferences).length := hlength ▸ hlt
            have hiHash : i < (hashes allReferences).length := hi'.trans hcutHash
            have hget : (hashes allReferences)[i] = (hashes allReferences)[maxReferencesPerRound] := by
              simpa [hashes] using heq
            have := (hm.nodup.getElem_inj_iff).1 hget
            omega
          · intro hh
            have hq := afterRound_queued isWord (env 0) allReferences seen
            obtain ⟨_, _, _, hmem⟩ := mirrorRounds_bounded isWord left (fun n => env (n + 1)) hq.nodup fun h hh => (hq.seen h).2 (.inr hh)
            have hknown := hm.known _ (List.mem_map_of_mem hcut)
            rcases hmem _ hh with hh' | hh'
            · exact hq.fresh _ hh' hknown
            · exact hh' ((hq.seen _).2 (.inl hknown))

/-! ## Graphs that name every blob in one way -/

/-- A blob is named as a playlist wherever it is named, or nowhere. -/
def Uniform (children : Str → List HlsReference) (references : List HlsReference) : Prop :=
  ∀ n m r r', Reaches children references n r → Reaches children references m r' → r.sha256 = r'.sha256 → r.isPlaylist = r'.isPlaylist

/-- A blob that is first reached at a level. -/
def AtLevel (children : Str → List HlsReference) (references : List HlsReference) (n : Nat) (h : Str) : Prop :=
  (∃ r, Reaches children references n r ∧ r.sha256 = h) ∧ ∀ m < n, ∀ r, Reaches children references m r → r.sha256 ≠ h

/-- What is reached is first reached at some level. -/
theorem exists_atLevel {n : Nat} {r : HlsReference} (h : Reaches children references n r) : ∃ m ≤ n, AtLevel children references m r.sha256 := by
  classical
  have hex : ∃ m, ∃ r', Reaches children references m r' ∧ r'.sha256 = r.sha256 := ⟨n, r, h, rfl⟩
  refine ⟨Nat.find hex, Nat.find_min' hex ⟨r, h, rfl⟩, Nat.find_spec hex, fun m hm r' hr' heq => ?_⟩
  exact Nat.find_min hex hm ⟨r', hr', heq⟩

/-- The state of a mirror that has seen the levels up to one. -/
structure Leveled (children : Str → List HlsReference) (references : List HlsReference) (k : Nat) (allReferences : List HlsReference)
    (seen : Finset Str) : Prop where
  reached : ∀ r ∈ allReferences, Reaches children references k r
  nodup : (hashes allReferences).Nodup
  level : ∀ h, h ∈ hashes allReferences ↔ AtLevel children references k h
  known : ∀ h, h ∈ seen ↔ ∃ m ≤ k, ∃ r, Reaches children references m r ∧ r.sha256 = h

/-- The first level. -/
theorem leveled_zero : Leveled children references 0 (retainUnseen references ∅).1 (retainUnseen references ∅).2 := by
  obtain ⟨hq, hall⟩ := retainUnseen_spec references ∅
  have hknown : ∀ h, h ∈ (retainUnseen references ∅).2 ↔ ∃ r, Reaches children references 0 r ∧ r.sha256 = h := by
    intro h
    constructor
    · intro hh
      rcases (hq.seen h).1 hh with hh | hh
      · nomatch hh
      · obtain ⟨r, hr, rfl⟩ := List.mem_map.1 hh
        exact ⟨r, .listed ((retainUnseen_sublist ..).subset hr), rfl⟩
    · rintro ⟨r, ⟨hr⟩, rfl⟩
      exact hall r hr
  refine ⟨fun r hr => .listed ((retainUnseen_sublist ..).subset hr), hq.nodup, fun h => ?_, fun h => ?_⟩
  · have hiff : h ∈ hashes (retainUnseen references ∅).1 ↔ h ∈ (retainUnseen references ∅).2 := by
      rw [hq.seen]
      exact ⟨.inr, fun hh => hh.resolve_left (Finset.notMem_empty h)⟩
    rw [hiff, hknown]
    exact ⟨fun hh => ⟨hh, nofun⟩, And.left⟩
  · rw [hknown]
    constructor
    · exact fun hh => ⟨0, le_rfl, hh⟩
    · rintro ⟨m, hm, hh⟩
      exact Nat.le_zero.1 hm ▸ hh

/-- The next level. -/
theorem Leveled.next (hl : Leveled children references k allReferences seen) (hfair : Fair concurrency env)
    (huniform : Uniform children references) :
    Leveled children references (k + 1) (retainUnseen (listed children ((env 0).results allReferences)) seen).1
      (retainUnseen (listed children ((env 0).results allReferences)) seen).2 := by
  obtain ⟨hq, hall⟩ := retainUnseen_spec (listed children ((env 0).results allReferences)) seen
  have hlisted : ∀ r ∈ listed children ((env 0).results allReferences), Reaches children references (k + 1) r := by
    intro r hr
    obtain ⟨p, hp, hplaylist, hr⟩ := (mem_listed_iff hfair).1 hr
    exact .child (hl.reached p hp) hplaylist hr
  have hnext : ∀ h ∈ hashes (retainUnseen (listed children ((env 0).results allReferences)) seen).1,
      ∃ r, Reaches children references (k + 1) r ∧ r.sha256 = h := by
    intro h hh
    obtain ⟨r, hr, rfl⟩ := List.mem_map.1 hh
    exact ⟨r, hlisted r ((retainUnseen_sublist ..).subset hr), rfl⟩
  -- A blob of the next level is a child of one that this round has, or was seen.
  have hclosed : ∀ r, Reaches children references (k + 1) r →
      r.sha256 ∈ (retainUnseen (listed children ((env 0).results allReferences)) seen).2 := by
    intro r hr
    obtain _ | ⟨hp, hplaylist, hchild⟩ := hr
    rename_i p
    obtain ⟨m, hm, hlevel⟩ := exists_atLevel hp
    obtain ⟨p', hp', heq⟩ := hlevel.1
    have hplaylist' : p'.isPlaylist = true := (huniform _ _ _ _ hp' hp heq).trans hplaylist
    rcases Nat.lt_or_eq_of_le hm with hlt | rfl
    · refine (hq.seen _).2 (.inl ((hl.known _).2 ⟨m + 1, hlt, r, .child hp' hplaylist' (heq ▸ hchild), rfl⟩))
    · obtain ⟨p'', hmem, heq'⟩ := List.mem_map.1 ((hl.level _).2 hlevel)
      refine hall r ((mem_listed_iff hfair).2 ⟨p'', hmem, ?_, heq' ▸ hchild⟩)
      exact (huniform _ _ _ _ (hl.reached p'' hmem) hp heq').trans hplaylist
  have hknown : ∀ h, h ∈ (retainUnseen (listed children ((env 0).results allReferences)) seen).2 ↔
      ∃ m ≤ k + 1, ∃ r, Reaches children references m r ∧ r.sha256 = h := by
    intro h
    constructor
    · intro hh
      rcases (hq.seen h).1 hh with hh | hh
      · obtain ⟨m, hm, hr⟩ := (hl.known h).1 hh
        exact ⟨m, Nat.le_succ_of_le hm, hr⟩
      · exact ⟨k + 1, le_rfl, hnext h hh⟩
    · rintro ⟨m, hm, r, hr, rfl⟩
      rcases Nat.lt_or_eq_of_le hm with hlt | rfl
      · exact (hq.seen _).2 (.inl ((hl.known _).2 ⟨m, Nat.le_of_lt_succ hlt, r, hr, rfl⟩))
      · exact hclosed r hr
  refine ⟨fun r hr => hlisted r ((retainUnseen_sublist ..).subset hr), hq.nodup, fun h => ?_, hknown⟩
  constructor
  · intro hh
    refine ⟨hnext h hh, fun m hm r hr heq => hq.fresh h hh ?_⟩
    exact (hl.known h).2 ⟨m, Nat.le_of_lt_succ hm, r, hr, heq⟩
  · rintro ⟨⟨r, hr, rfl⟩, hfirst⟩
    refine ((hq.seen _).1 (hclosed r hr)).resolve_left fun hs => ?_
    obtain ⟨m, hm, r', hr', heq⟩ := (hl.known _).1 hs
    exact hfirst m (Nat.lt_succ_of_le hm) r' hr' heq

/-- Rounds that are not cut are the levels of the graph. -/
theorem wholeRounds_level (left : Nat) (hl : Leveled children references k allReferences seen) (hfair : Fair concurrency env)
    (huniform : Uniform children references) :
    ∀ i < left, ∃ round, (wholeRounds children left env allReferences seen)[i]? = some round ∧ (hashes round).Nodup ∧
      ∀ h, h ∈ hashes round ↔ AtLevel children references (k + i) h := by
  induction left generalizing env allReferences seen k with
  | zero => exact fun i hi => absurd hi (Nat.not_lt_zero i)
  | succ left ih =>
    intro i hi
    rw [wholeRounds]
    cases i with
    | zero => exact ⟨allReferences, rfl, hl.nodup, hl.level⟩
    | succ i =>
      obtain ⟨round, hround, hnodup, hlevel⟩ := ih (hl.next hfair huniform) hfair.tail i (Nat.lt_of_succ_lt_succ hi)
      refine ⟨round, hround, hnodup, fun h => ?_⟩
      rw [hlevel, Nat.add_assoc, Nat.add_comm 1 i]

/-- There are as many rounds as the mirror has. -/
theorem length_wholeRounds (left : Nat) : (wholeRounds children left env allReferences seen).length = left := by
  induction left generalizing env allReferences seen with
  | zero => rfl
  | succ left ih => exact congrArg (· + 1) ih

end

end

end Almond.Hls
