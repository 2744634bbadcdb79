import Almond.Lemmas.DiscoveryAux
import Almond.Sample

/-! # Publications and the copies they displace -/

namespace Almond

open Conc

/-- A run of `GET` requests, uploads and cache fills: they start, step, finish and are dropped, and time passes. -/
def getsAndUploads : Label Req Resp Str Op Report → Bool
  | .spawned _ op => op.isGet || op.isUpload
  | .crashed => false
  | _ => true

/-- A publication of the hash does not remove the bytes that the index entry of the hash points to. -/
def keepsIndexedCopy (cfg : Config) (sha256 : Str) (c : Server) : Label Req Resp Str Op Report → Bool
  | .called _ op r _ =>
    !op.publishes cfg sha256 || match r.removes, c.world.store.index.get sha256 with
      | some loc, some m => m.location ≠ loc
      | _, _ => true
  | _ => true

/-- A `GET` that publishes what it found finds the hash unindexed, or indexed at another location. -/
def freshDiscovery (sha256 : Str) (c : Server) : Label Req Resp Str Op Report → Bool
  | .called _ op (.index (.publish key m)) _ =>
    !(op.isGet && key = sha256) || match c.world.store.index.get sha256 with
      | some e => e.location ≠ m.location
      | none => true
  | _ => true

/-- Two `GET` requests that both find the object before either has indexed it. -/
def twoDiscoveries : List (Move Env Op) :=
  [.spawn Sample.get, .spawn Sample.get] ++ Sample.steps 0 4 ++ Sample.steps 1 4 ++
    Sample.steps 0 4 ++ Sample.steps 1 4

/-- The second of two discoveries of one object displaces the first one's entry, which has the same key, and deletes the object:
the entry that is now indexed points to nothing. -/
theorem publication_keeps_indexed_copy_false :
    ¬ ∀ (cfg : Config) (root : Path) (sha256 : Str) (s : AppState) (c c' : Server) (l : Label Req Resp Str Op Report),
      cfg.storage = StorageLayout.new root → s.index.get sha256 = none →
      (s.sessions.Each fun _ upload => upload.WellFormed cfg.storage) →
      Run (machine cfg) (fun _ l => getsAndUploads l = true) (Server.idle s) c →
      Step (machine cfg) c l c' → getsAndUploads l = true → keepsIndexedCopy cfg sha256 c l = true := by
  intro h
  obtain ⟨c, l, c', hrun, hok, hs, hP⟩ := exists_step_of_replay (machine Sample.config)
    (Server.idle Sample.stocked) twoDiscoveries (fun _ l => getsAndUploads l)
    (keepsIndexedCopy Sample.config Sample.hash) (by decide)
  have hkeeps := h Sample.config _ Sample.hash Sample.stocked c c' l rfl rfl (SessionState.each_empty _) hrun hs hok
  exact absurd (hkeeps.symm.trans hP) nofun

/-- In every run of `GET` requests and uploads in which no `GET` publishes an object that is already indexed where it found it, no
publication of a hash removes the bytes that the index entry of the hash points to. -/
theorem publication_keeps_indexed_copy {cfg : Config} {root : Path} {sha256 : Str} {s : AppState} {c c' : Server}
    {l : Label Req Resp Str Op Report} (hlayout : cfg.storage = StorageLayout.new root)
    (hunindexed : s.index.get sha256 = none)
    (hsessions : s.sessions.Each fun _ upload => upload.WellFormed cfg.storage)
    (hrun : Run (machine cfg) (fun c l => (getsAndUploads l && freshDiscovery sha256 c l) = true) (Server.idle s) c)
    (hstep : Step (machine cfg) c l c') (hok : (getsAndUploads l && freshDiscovery sha256 c l) = true) :
    keepsIndexedCopy cfg sha256 c l = true := by
  have hD : ∀ (c : Server) (l : Label Req Resp Str Op Report), (getsAndUploads l && freshDiscovery sha256 c l) = true →
      (Discovery.discipline cfg sha256).ok c l := by
    intro c l h
    obtain ⟨hg, hf⟩ := Bool.and_eq_true_iff.1 h
    cases l with
    | spawned t op => exact hg
    | called t op r x =>
      intro m e hop hr hget
      subst hr
      simpa [freshDiscovery, hop, hget] using hf
    | crashed => nomatch hg
    | _ => exact trivial
  have hF := Discovery.fits hlayout sha256
  have h₀ : Sound (machine cfg) (Discovery.discipline cfg sha256) (fun _ _ _ _ => True)
      (Server.idle s) := sound_empty ⟨fun m hm => absurd (hunindexed.symm.trans hm) nofun, hsessions⟩
  have hc := h₀.run hF (hrun.mono hD)
  cases l with
  | called t op r x =>
    have hallow := hc.allow hF (hD _ _ hok) hstep
    cases hp : op.publishes cfg sha256 with
    | false => simp [keepsIndexedCopy, hp]
    | true =>
      simp only [keepsIndexedCopy, hp, Bool.not_true, Bool.false_or]
      split
      · rename_i loc m hr hm
        exact decide_eq_true (hallow.2.1 hp loc m hr hm)
      · rfl
  | _ => rfl

/-- A step that removes a file below a directory. -/
def removesBelow (directory : Path) : Label Req Resp Str Op Report → Bool
  | .called _ _ (.fs (.removeFile p)) _ => directory.isPrefixOf p
  | _ => false

/-- A cache fill, and then an upload of the same hash that displaces it. -/
def uploadOverCache : List (Move Env Op) :=
  [.spawn (.publish ⟨Sample.hash, .upstreamCache, none, none, 3, none⟩ [.ok [1, 2, 3]])] ++ Sample.steps 0 21 ++
    [.spawn (.publish ⟨Sample.hash, .upload, none, none, 3, none⟩ [.ok [1, 2, 3]])] ++ Sample.steps 1 22

/-- An upload that goes to the bucket removes the cache copy it displaces, and the entry it has just made stands. -/
theorem publication_keeps_indexed_copy_displacing :
    ∃ (c c' : Server) (l : Label Req Resp Str Op Report),
      Run (machine Sample.config) (fun c l => (getsAndUploads l && freshDiscovery Sample.hash c l) = true)
        (Server.idle Sample.started) c ∧
      Step (machine Sample.config) c l c' ∧ removesBelow Sample.config.storage.upstreamCache l = true ∧
      keepsIndexedCopy Sample.config Sample.hash c l = true := by
  obtain ⟨c, l, c', hrun, hok, hs, hP⟩ := exists_step_of_replay (machine Sample.config)
    (Server.idle Sample.started) uploadOverCache
    (fun c l => getsAndUploads l && freshDiscovery Sample.hash c l)
    (fun _ l => !removesBelow Sample.config.storage.upstreamCache l) (by decide +kernel)
  exact ⟨c, c', l, hrun, hs, by simpa using hP, publication_keeps_indexed_copy rfl rfl (SessionState.each_empty _) hrun hs hok⟩

end Almond
