import Almond.Lemmas.SupersededAux
import Almond.Sample

/-! # Passes over the queue of displaced copies -/

namespace Almond.Superseded

open Conc

/-- In every run of publications, removals, evictions and passes over the queue in which no publication stores its blob where a copy waits
for its removal, or where the copy that it displaces is, a pass removes nothing that is the location of an entry. -/
theorem reconcile_spares_entries {cfg : Config} {s : AppState} {past : Past} {c c' : Server} {t : Tid} {r : Req} {x : Resp r}
    {location : FileLocation} (hsessions : s.sessions.Each fun _ upload => upload.WellFormed cfg.storage)
    (hhoused : ∀ sha256 m, s.index.get sha256 = some m → Housed cfg.storage sha256 m.origin m.location) (hqueue : s.superseded = [])
    (h : History (machine cfg) (fun past c l => (serves l && storesApart past c l) = true) (Server.idle s) past c)
    (hstep : Step (machine cfg) c (.called t .enforceStorageLimits r x) c')
    (hpass : reconciling ((Task.record t past).map (·.2)) = true) (hremoves : r.removes = some location) :
    ∀ sha256 m, c.world.store.index.get sha256 = some m → m.location ≠ location := by
  rintro sha256 m hm rfl
  have hsettled := settled_of_history hsessions hhoused hqueue h
  cases hstep with
  | call e ht =>
    obtain ⟨es, hes, hobeys⟩ := h.obeys (fun op => program_obeys cfg op) (Uploads.foreseen_of_history hsessions h).2 ht
    have hrecord : (Task.record t past).map (·.2) = es := by
      rw [hes, List.map_map]
      exact List.map_id _
    have hheld : m.location ∈ held past t := by
      unfold held
      rw [hrecord] at hpass ⊢
      exact (hobeys.1 rfl).2 rfl hpass m.location hremoves
    have hwaits := waits_of_held h (Option.isSome_iff_exists.2 ⟨_, ht⟩) hheld
    exact Bool.false_ne_true ((hsettled.apart sha256 m hm).symm.trans hwaits)

/-- An outside in which file operations fail. -/
def faulty : Env :=
  { Sample.calm with fs := { Sample.calm.fs with fault := some "busy" } }

/-- A cache fill of the hash. -/
def fill : Op :=
  .publish ⟨Sample.hash, .upstreamCache, none, none, 3, none⟩ [.ok [1, 2, 3]]

/-- A cache fill, and then an upload that fails to remove the copy it displaces. -/
def displacement : List (Move Env Op) :=
  [.spawn fill] ++ Sample.steps 0 21 ++ [.spawn (.publish ⟨Sample.hash, .upload, none, none, 3, none⟩ [.ok [1, 2, 3]])] ++
    Sample.steps 1 19 ++ [.step 1 faulty] ++ Sample.steps 1 4

/-- The upload is removed, another cache fill takes the place of the first one, and a pass takes the first one from the queue. -/
def reuse : List (Move Env Op) :=
  displacement ++ [.spawn (.remove Sample.hash .requested none)] ++ Sample.steps 2 8 ++ [.spawn fill] ++ Sample.steps 3 22 ++
    [.spawn .enforceStorageLimits] ++ Sample.steps 4 4

/-- Whether the last step of a history is one of a pass that removes the location of the entry of the hash. -/
def removesEntry : Past → Bool
  | (c, .called t .enforceStorageLimits r _) :: past =>
    reconciling ((Task.record t past).map (·.2)) && match r.removes, c.world.store.index.get Sample.hash with
      | some location, some m => m.location = location
      | _, _ => false
  | _ => false

/-- A pass removes the second cache copy, which the index points to, for the first one, which was at the same path. -/
theorem reconcile_spares_entries_false :
    ¬ ∀ (cfg : Config) (s : AppState) (past : Past) (c c' : Server) (t : Tid) (r : Req) (x : Resp r) (location : FileLocation),
      (s.sessions.Each fun _ upload => upload.WellFormed cfg.storage) →
      (∀ sha256 m, s.index.get sha256 = some m → Housed cfg.storage sha256 m.origin m.location) → s.superseded = [] →
      History (machine cfg) (fun _ _ l => serves l = true) (Server.idle s) past c →
      Step (machine cfg) c (.called t .enforceStorageLimits r x) c' →
      reconciling ((Task.record t past).map (·.2)) = true → r.removes = some location →
      ∀ sha256 m, c.world.store.index.get sha256 = some m → m.location ≠ location := by
  intro h
  obtain ⟨past, c', hhistory, hlast⟩ := exists_history_of_replay (machine Sample.config) (Server.idle Sample.started) reuse
    (fun _ _ l => serves l) removesEntry (by decide +kernel)
  unfold removesEntry at hlast
  split at hlast
  · rename_i c t r x past
    obtain ⟨hpass, hentry⟩ := Bool.and_eq_true_iff.1 hlast
    split at hentry
    · rename_i location m hremoves hm
      cases hhistory with
      | step hbefore _ hstep =>
        have hne := h Sample.config Sample.started past c c' t r x location (SessionState.each_empty _) nofun rfl hbefore hstep hpass
          hremoves Sample.hash m hm
        exact hne (of_decide_eq_true hentry)
    · nomatch hentry
  · nomatch hlast

/-- Whether the last step of a history is one of a pass that removes a file. -/
def removesFile : Past → Bool
  | (_, .called t .enforceStorageLimits r _) :: past => reconciling ((Task.record t past).map (·.2)) && r.removes.isSome
  | _ => false

/-- A pass removes the cache copy that an upload displaced, and the entry of the upload stands. -/
theorem reconcile_spares_entries_displaced :
    ∃ (past : Past) (c : Server) (location : FileLocation), removesFile past = true ∧
      ∀ sha256 m, c.world.store.index.get sha256 = some m → m.location ≠ location := by
  obtain ⟨past, c', hhistory, hlast⟩ := exists_history_of_replay (machine Sample.config) (Server.idle Sample.started)
    (displacement ++ [.spawn .enforceStorageLimits] ++ Sample.steps 2 4)
    (fun past c l => serves l && storesApart past c l) removesFile (by decide)
  have hlast' := hlast
  unfold removesFile at hlast
  split at hlast
  · rename_i c t r x past
    obtain ⟨hpass, hremoves⟩ := Bool.and_eq_true_iff.1 hlast
    obtain ⟨location, hl⟩ := Option.isSome_iff_exists.1 hremoves
    cases hhistory with
    | step hbefore _ hstep =>
      have hempty : ∀ sha256 m, Sample.started.index.get sha256 = some m → Housed Sample.config.storage sha256 m.origin m.location :=
        fun _ _ hm => nomatch hm
      exact ⟨_, c, location, hlast', reconcile_spares_entries (SessionState.each_empty _) hempty rfl hbefore hstep hpass hl⟩
  · nomatch hlast

end Almond.Superseded
