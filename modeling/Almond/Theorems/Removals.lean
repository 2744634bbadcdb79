import Almond.Conc.Possible
import Almond.Lemmas.IndexAux
import Almond.Lemmas.MaintenanceAux
import Almond.Store
import Almond.Theorems.NativeStorage

/-! # Removals that fail -/

namespace Almond

namespace FileStorage

open Conc NativeStorage

variable {cfg : Config} {t : Tid} {E : Env → Prop} {s : AppState} {sha256 : Str}

/-! ## The bytes after a failure -/

/-- A file that is not removed is still there. -/
theorem removeFile_error {d : Disk} {env : FsEnv} {now : Nat} {p : Path} {error : IoError}
    (h : (d.exec env now (.removeFile p)).1 = .error error) : (d.exec env now (.removeFile p)).2 = d := by
  unfold Disk.exec at h ⊢
  cases hfault : env.fault with
  | some message => rfl
  | none =>
    simp only [hfault, Disk.perform] at h ⊢
    split at h
    · cases h
    · rename_i hmissing
      rw [if_neg hmissing]

/-- A local file that is not removed is still there. -/
theorem removeLocalFile_fails (p : Path) :
    (removeLocalFile p).run.Yields (exec cfg t) E (fun x s' => ∀ error, x = .error error → s' = s) s := by
  have hremove : (fs (.removeFile p)).Yields (exec cfg t) E (fun x s' => ∀ error, x = .error error → s' = s) s := by
    intro e _ error h
    have hdisk : (s.disk.exec e.fs s.clock.system (.removeFile p)).2 = s.disk := removeFile_error h
    show { s with disk := (s.disk.exec e.fs s.clock.system (.removeFile p)).2 } = s
    rw [hdisk]
  refine Task.Yields.lift_bind hremove fun x s' hs => ?_
  cases x with
  | ok u => exact fun _ => nofun
  | error error =>
    dsimp only
    split <;> exact fun _ _ => hs error rfl

/-- An object that is not deleted is still there. -/
theorem delete_fails (key : Str) :
    (NativeStorage.delete key).run.Yields (exec cfg t) E (fun x s' => ∀ error, x = .error error → s' = s) s := by
  have hdelete : (s3 (.deleteObject key)).Yields (exec cfg t) E (fun x s' => ∀ message, x = .error message → s' = s) s := by
    intro e _
    cases hfault : e.s3.fault with
    | none =>
      intro message h
      simp [exec, Bucket.exec, hfault, Bucket.perform] at h
    | some refusal =>
      intro message _
      simp [exec, Bucket.exec, hfault]
  refine hdelete.bind fun x s' hs => ?_
  cases x with
  | ok u => exact fun _ h => by cases h
  | error message => exact fun _ _ => hs message rfl

/-- The bytes of an entry that are not removed are still there. -/
theorem removePhysicalFile_fails (metadata : FileMetadata) :
    (removePhysicalFile cfg metadata).run.Yields (exec cfg t) E (fun x s' => ∀ error, x = .error error → s' = s) s := by
  unfold removePhysicalFile
  split
  · exact removeLocalFile_fails _
  · split
    · exact delete_fails _
    · exact fun _ _ => rfl

/-- The entries, and the bytes at a location, are as they were. -/
def Same (location : FileLocation) (s s' : AppState) : Prop :=
  s'.index = s.index ∧ s'.bytesAt location = s.bytesAt location

/-- A file that is not renamed is still there. -/
theorem rename_error {d : Disk} {env : FsEnv} {now : Nat} {source destination : Path} {error : IoError}
    (h : (d.exec env now (.rename source destination)).1 = .error error) : (d.exec env now (.rename source destination)).2 = d := by
  unfold Disk.exec at h ⊢
  cases hfault : env.fault with
  | some message => rfl
  | none =>
    simp only [hfault, Disk.perform] at h ⊢
    split at h
    · rfl
    · split at h
      · rename_i hdir
        rw [if_pos hdir]
      · rename_i hdir
        rw [if_neg hdir]
        split at h
        · cases h
        · rename_i hparent
          rw [if_neg hparent]

/-- A file that is not quarantined is still there. -/
theorem quarantineCurrent_fails {metadata : FileMetadata} {path : Path} (h : metadata.location = .localFile path) :
    (quarantineCurrent cfg sha256 metadata).run.Yields (exec cfg t) E (fun x s' => ∀ error, x = .error error → Same metadata.location s s') s := by
  unfold quarantineCurrent
  rw [h]
  dsimp only
  have hcreate : (fs (.createDirAll cfg.storage.quarantine)).Yields (exec cfg t) E (fun _ s' => Same (.localFile path) s s') s := by
    intro e _
    refine ⟨rfl, ?_⟩
    cases hfault : e.fs.fault with
    | some message => simp only [exec, Disk.exec, hfault, AppState.bytesAt]
    | none =>
      simp only [exec, Disk.exec, hfault, Disk.perform, AppState.bytesAt, Disk.file?]
      split <;> rfl
  have hrename : ∀ destination s₁, (fs (.rename path destination)).Yields (exec cfg t) E (fun x s' => ∀ error, x = .error error → s' = s₁) s₁ := by
    intro destination s₁ e _ error hx
    have hdisk : (s₁.disk.exec e.fs s₁.clock.system (.rename path destination)).2 = s₁.disk := rename_error hx
    show { s₁ with disk := (s₁.disk.exec e.fs s₁.clock.system (.rename path destination)).2 } = s₁
    rw [hdisk]
  refine yields_orErr_bind (hcreate.mono fun x s₁ hsame => ?_)
  cases x with
  | error error => exact fun _ _ => hsame
  | ok u =>
    refine (hrename _ s₁).bind fun x s₂ hs => ?_
    cases x with
    | error error =>
      obtain rfl := hs error rfl
      exact fun _ _ => hsame
    | ok u => exact fun _ h => by cases h

/-- A request of the sweep of a hash. -/
def Sweeps (sha256 : Str) : Req → Prop
  | .s3 .paginate | .s3 (.listPage _ _) => True
  | .s3 (.deleteObject key) => IsKeyOf sha256 key
  | _ => False

/-- A sweep only deletes objects of the hash. -/
theorem sweepBackendCopies_sweeps (cfg : Config) (sha256 : Str) : (sweepBackendCopies cfg sha256).run.Uses (Sweeps sha256) := by
  have hkeys : ∀ keys : List Str, (∀ key ∈ keys, IsKeyOf sha256 key) → (deleteKeys keys).run.Uses (Sweeps sha256) := by
    intro keys hkeys
    induction keys with
    | nil => exact trivial
    | cons key keys ih =>
      refine Task.Uses.run_bind (uses_orErr (uses_request (hkeys key List.mem_cons_self))) fun _ => ?_
      exact ih fun k hk => hkeys k (List.mem_cons_of_mem _ hk)
  have hmatching : ∀ objects, ∀ key ∈ matchingKeys sha256 objects, IsKeyOf sha256 key := by
    intro objects key hkey
    simpa [matchingKeys, IsKeyOf, Option.any_eq_true] using (List.mem_filter.1 hkey).2
  have hpages : ∀ keyPrefix pages, (deleteInPages sha256 keyPrefix pages).run.Uses (Sweeps sha256) := by
    intro keyPrefix pages
    induction pages with
    | nil => exact trivial
    | cons page pages ih =>
      refine Task.Uses.run_bind (uses_orErr (uses_request trivial)) fun objects => ?_
      exact Task.Uses.run_bind (hkeys _ (hmatching objects)) fun _ => ih
  unfold sweepBackendCopies
  split
  · refine Task.Uses.run_bind (p := ofResult _) trivial fun keyPrefix => ?_
    exact Task.Uses.lift_bind (uses_request trivial) fun pages => hpages keyPrefix pages
  · exact trivial

/-- A request of a sweep leaves the bytes that are no object of the hash. -/
theorem same_of_sweeps {location : FileLocation} (h : ∀ key, location = .s3 key → ¬ IsKeyOf sha256 key) {r : Req} (hr : Sweeps sha256 r)
    (e : Env) (s : AppState) : Same location s (exec cfg t r e s).2 := by
  cases r with
  | s3 r =>
    refine ⟨rfl, ?_⟩
    cases location with
    | localFile p => rfl
    | s3 key =>
      show ((Bucket.exec s.bucket e.s3 _ _ r).2.lookup key).map S3Object.data = (s.bucket.lookup key).map S3Object.data
      cases hfault : e.s3.fault with
      | some message => simp only [Bucket.exec, hfault]
      | none =>
        simp only [Bucket.exec, hfault]
        cases r with
        | paginate => rfl
        | listPage keyPrefix page => rfl
        | deleteObject other =>
          have hne : key ≠ other := fun heq => h key rfl (heq ▸ hr)
          simp only [Bucket.perform, AList.lookup_erase_ne hne]
        | _ => exact hr.elim
  | _ => exact hr.elim

/-- A sweep leaves the bytes that are no object of the hash. -/
theorem sweepBackendCopies_same {location : FileLocation} (h : ∀ key, location = .s3 key → ¬ IsKeyOf sha256 key) :
    (sweepBackendCopies cfg sha256).run.Yields (exec cfg t) E (fun _ s' => Same location s s') s := by
  refine ((sweepBackendCopies_sweeps cfg sha256).yields (I := Same location s) ?_ ⟨rfl, rfl⟩).mono fun _ _ hs => hs.2
  intro r e s' hr hs
  obtain ⟨hindex, hbytes⟩ : Same location s' (exec cfg t r e s').2 := same_of_sweeps h hr e s'
  exact ⟨hindex.trans hs.1, hbytes.trans hs.2⟩

/-! ## Failures after the bytes are gone -/

/-- A request of the bucket that is refused. -/
def refused : Env :=
  { Sample.calm with s3 := ⟨some "refused", []⟩ }

/-- A local file that is there can be removed. -/
theorem removeLocalFile_can {p : Path} (h : (s.disk.file? p).isSome = true) :
    (removeLocalFile p).run.Can (exec cfg t) (fun x s' => x = .ok () ∧ s'.index = s.index ∧ s'.bytesAt (.localFile p) = none) s := by
  have hfile : s.disk.hasFile p = true := by simpa [Disk.file?, Disk.hasFile] using h
  refine Task.Can.lift_bind (p := fs (.removeFile p))
    (Q := fun x s' => x = .ok () ∧ s'.index = s.index ∧ s'.bytesAt (.localFile p) = none) ?_ ?_
  · refine ⟨Sample.calm, ?_⟩
    have hperform : s.disk.exec Sample.calm.fs s.clock.system (.removeFile p) = (.ok (), s.disk.unlink p) := by
      show (if s.disk.hasFile p then _ else _) = _
      rw [if_pos hfile]
    refine ⟨congrArg Prod.fst hperform, rfl, ?_⟩
    show (((s.disk.exec Sample.calm.fs s.clock.system (.removeFile p)).2.file? p).map Node.data) = none
    simp [hperform, Disk.unlink, Disk.file?]
  · rintro _ s' ⟨rfl, hs⟩
    exact ⟨rfl, hs⟩

/-- An object can be deleted. -/
theorem delete_can (key : Str) : (NativeStorage.delete key).run.Can (exec cfg t)
    (fun x s' => x = .ok () ∧ s' = { s with bucket := s.bucket.erase key }) s :=
  ⟨Sample.calm, rfl, rfl⟩

/-- The bytes of an entry can be removed. -/
theorem removePhysicalFile_can {metadata : FileMetadata} (hs3 : cfg.nativeS3 = true) (h : (s.bytesAt metadata.location).isSome = true) :
    (removePhysicalFile cfg metadata).run.Can (exec cfg t)
      (fun x s' => x = .ok () ∧ s'.index = s.index ∧ s'.bytesAt metadata.location = none) s := by
  unfold removePhysicalFile
  split
  · rename_i p hlocation
    rw [hlocation] at h ⊢
    exact removeLocalFile_can (by simpa [AppState.bytesAt] using h)
  · rename_i key hlocation
    rw [hlocation, if_pos hs3]
    refine (delete_can key).mono ?_
    rintro x _ ⟨rfl, rfl⟩
    exact ⟨rfl, rfl, by simp [AppState.bytesAt]⟩

/-- A sweep can fail at once. -/
theorem sweepBackendCopies_can_fail (hs3 : cfg.nativeS3 = true) :
    (sweepBackendCopies cfg sha256).run.Can (exec cfg t) (fun x s' => (∃ error, x = .error error) ∧ s' = s) s := by
  unfold sweepBackendCopies deleteMatching
  rw [if_pos hs3]
  cases hp : hashPrefix sha256 with
  | error e => exact ⟨⟨e, rfl⟩, rfl⟩
  | ok keyPrefix => exact ⟨Sample.calm, refused, ⟨_, rfl⟩, rfl⟩

/-- Objects can be deleted. -/
theorem deleteKeys_can (keys : List Str) : (deleteKeys keys).run.Can (exec cfg t)
    (fun x s' => x = .ok () ∧ s'.index = s.index ∧ ∀ key, s.bucket.lookup key = none ∨ key ∈ keys → s'.bucket.lookup key = none) s := by
  induction keys generalizing s with
  | nil => exact ⟨rfl, rfl, fun key h => h.resolve_right (nomatch ·)⟩
  | cons first keys ih =>
    refine Task.Can.run_bind (delete_can first) (fun _ _ h => nomatch h.1) ?_
    rintro _ _ ⟨_, rfl⟩
    refine ih.mono ?_
    rintro x s' ⟨hx, hindex, hgone⟩
    refine ⟨hx, hindex, fun key hkey => hgone key ?_⟩
    by_cases hfirst : key = first
    · exact .inl (hfirst ▸ AList.lookup_erase ..)
    · rw [AList.lookup_erase_ne hfirst]
      exact hkey.imp_right fun hmem => (List.mem_cons.1 hmem).resolve_left hfirst

/-- A sweep can fail after it has deleted an object of the hash. -/
theorem sweepBackendCopies_can_delete {key : Str} (hs3 : cfg.nativeS3 = true) (hkey : IsKeyOf sha256 key) :
    (sweepBackendCopies cfg sha256).run.Can (exec cfg t)
      (fun x s' => (∃ error, x = .error error) ∧ s'.index = s.index ∧ s'.bytesAt (.s3 key) = none) s := by
  obtain ⟨parsed, hparsed, rfl⟩ := hkey
  obtain ⟨name, hparse, _⟩ := keyUnder_of_parseObjectKey hparsed
  have hprefix := hashPrefix_eq (BlobName.parse_eq_some hparse).1
  have hpage : Bucket.pageOf [key] key = 0 := by simp [Bucket.pageOf, or_self_iff.1 (strLe_total key key)]
  unfold sweepBackendCopies deleteMatching
  rw [if_pos hs3, hprefix]
  -- The key is on the first of two pages, and the listing of the second one fails.
  refine ⟨{ Sample.calm with s3 := ⟨none, [key]⟩ }, Sample.calm, ?_⟩
  refine Task.Can.run_bind (deleteKeys_can _) (fun _ _ h => nomatch h.1) ?_
  rintro _ s₁ ⟨_, hindex, hgone⟩
  refine ⟨refused, ⟨_, rfl⟩, hindex, ?_⟩
  show (s₁.bucket.lookup key).map S3Object.data = none
  rw [hgone key ?_]
  · rfl
  · cases hlookup : s.bucket.lookup key with
    | none => exact .inl hlookup
    | some object =>
      exact .inr (mem_matchingKeys.2 ⟨⟨object, hlookup⟩, keyPrefix_of_isKeyOf ⟨parsed, hparsed, rfl⟩ hprefix, hpage, parsed, hparsed, rfl⟩)

/-! ## Removals that fail -/

/-- A removal that fails leaves the blob as it was: its entry is still there, and the bytes that it leads to. -/
def LeavesBlob (cfg : Config) (sha256 : Str) (removal : Removal) (expected : Option FileMetadata) (s : AppState) : Prop :=
  ∀ t env n error metadata, s.index.get sha256 = some metadata →
    ((removeIndexedBlob cfg sha256 removal expected).run.alone (exec cfg t) env n s).1 = .error error →
      let s' := ((removeIndexedBlob cfg sha256 removal expected).run.alone (exec cfg t) env n s).2.2
      s'.index.get sha256 = some metadata ∧ ∀ bytes, s.bytesAt metadata.location = some bytes → s'.bytesAt metadata.location = some bytes

/-- A removal asks the bucket for more after the bytes of a location are gone. -/
def AsksAfter (cfg : Config) (sha256 : Str) (removal : Removal) (location : FileLocation) : Prop :=
  cfg.nativeS3 = true ∧ (removal.sweepsBackend = true ∨ removal = .quarantined ∧ ∃ key, location = .s3 key ∧ IsKeyOf sha256 key)

variable {removal : Removal} {expected : Option FileMetadata} {metadata : FileMetadata}

/-- What is disposed of is as it was when that fails, unless the bucket is asked for more. -/
theorem dispose_fails (h : ¬ AsksAfter cfg sha256 removal metadata.location) :
    (dispose cfg sha256 removal metadata).run.Yields (exec cfg t) E (fun x s' => ∀ error, x = .error error → Same metadata.location s s') s := by
  unfold dispose
  split
  · rename_i hquarantined
    cases hlocation : metadata.location with
    | localFile path =>
      rw [← hlocation]
      exact quarantineCurrent_fails hlocation
    | s3 key =>
      rw [quarantineCurrent, hlocation]
      dsimp only
      by_cases hs3 : cfg.nativeS3 = true
      · refine (sweepBackendCopies_same fun other hother hkey => ?_).mono fun _ _ hsame _ _ => hsame
        exact h ⟨hs3, .inr ⟨hquarantined, other, hlocation.trans hother, hkey⟩⟩
      · rw [sweepBackendCopies, if_neg hs3]
        exact fun _ => nofun
  · refine (removePhysicalFile_fails metadata).mono fun x s' hs error hx => ?_
    rw [hs error hx]
    exact ⟨rfl, rfl⟩

/-- A removal that fails leaves the entries. -/
theorem removeLocked_fails_index : (removeLocked cfg sha256 removal expected).run.Yields (exec cfg t) E
    (fun x s' => ∀ error, x = .error error → s'.index = s.index) s := by
  have hsweep : ∀ s₁, s₁.index = s.index →
      (sweepBackendCopies cfg sha256).run.Yields (exec cfg t) E (fun _ s' => s'.index = s.index) s₁ := by
    intro s₁ hs₁
    exact (index_yields_of_physical (sweepBackendCopies_physical cfg sha256)).mono fun _ _ hs => hs.trans hs₁
  refine Task.Yields.lift_bind (p := index (.get sha256)) (Q := fun _ s' => s' = s) (fun _ _ => rfl) ?_
  rintro x _ rfl
  cases x with
  | none =>
    dsimp only
    split
    · exact Task.Yields.run_bind (hsweep _ rfl) (fun _ _ hs _ _ => hs) fun _ _ _ _ => nofun
    · exact fun _ => nofun
  | some current =>
    dsimp only
    split
    · exact fun _ => nofun
    · refine Task.Yields.run_bind (index_yields_dispose sha256 removal current) (fun _ _ hs _ _ => hs)
        fun _ s₁ hs₁ => ?_
      split
      · exact Task.Yields.run_bind (hsweep s₁ hs₁) (fun _ _ hs _ _ => hs) fun _ _ _ _ _ _ => nofun
      · exact fun _ _ _ => nofun

/-- A removal that fails leaves the bytes of the entry, unless it asks the bucket for more after they are gone. -/
theorem removeLocked_fails_bytes (hentry : s.index.get sha256 = some metadata)
    (h : movedOn metadata expected = false → ¬ AsksAfter cfg sha256 removal metadata.location) :
    (removeLocked cfg sha256 removal expected).run.Yields (exec cfg t) E
      (fun x s' => ∀ error, x = .error error → s'.bytesAt metadata.location = s.bytesAt metadata.location) s := by
  refine Task.Yields.lift_bind (p := index (.get sha256)) (Q := fun x s' => x = some metadata ∧ s' = s) (fun _ _ => ⟨hentry, rfl⟩) ?_
  rintro _ _ ⟨rfl, rfl⟩
  dsimp only
  split
  · exact fun _ => nofun
  · rename_i hcurrent
    have hasks := h (Bool.eq_false_of_not_eq_true hcurrent)
    refine Task.Yields.run_bind (dispose_fails hasks) (fun _ _ hs _ _ => (hs _ rfl).2) fun _ s₁ _ => ?_
    split
    · rename_i hsweeps
      have hs3 : ¬ cfg.nativeS3 = true := fun hs3 => hasks ⟨hs3, .inl hsweeps⟩
      rw [sweepBackendCopies, if_neg hs3]
      exact fun _ _ => nofun
    · exact fun _ _ _ => nofun

/-- A removal can fail after the bytes of the entry are gone when it asks the bucket for more then. -/
theorem removeLocked_can_fail (hentry : s.index.get sha256 = some metadata) (hcurrent : movedOn metadata expected = false)
    (h : AsksAfter cfg sha256 removal metadata.location) (hbytes : (s.bytesAt metadata.location).isSome = true) :
    (removeLocked cfg sha256 removal expected).run.Can (exec cfg t)
      (fun x s' => (∃ error, x = .error error) ∧ s'.bytesAt metadata.location = none) s := by
  obtain ⟨hs3, h⟩ := h
  refine Task.Can.lift_bind (p := index (.get sha256)) (Q := fun x s' => x = some metadata ∧ s' = s) ⟨Sample.calm, hentry, rfl⟩ ?_
  rintro _ _ ⟨rfl, rfl⟩
  simp only [hcurrent, Bool.false_eq_true, if_false]
  rcases h with hsweeps | ⟨rfl, key, hlocation, hkey⟩
  · have hdispose : dispose cfg sha256 removal metadata = removePhysicalFile cfg metadata := by
      cases removal with
      | requested => rfl
      | reported => rfl
      | quarantined => exact nomatch hsweeps
      | evicted => exact nomatch hsweeps
    rw [hdispose, if_pos hsweeps]
    refine Task.Can.run_bind (removePhysicalFile_can hs3 hbytes) (fun _ _ hx => nomatch hx.1) ?_
    rintro _ s₁ ⟨_, _, hgone⟩
    refine Task.Can.run_bind (sweepBackendCopies_can_fail hs3) ?_ fun _ _ hx => (nomatch hx.1.choose_spec)
    rintro error _ ⟨_, rfl⟩
    exact ⟨⟨error, rfl⟩, hgone⟩
  · rw [hlocation]
    have hdispose : dispose cfg sha256 .quarantined metadata = sweepBackendCopies cfg sha256 := by
      rw [dispose, if_pos rfl, quarantineCurrent, hlocation]
    rw [hdispose]
    exact Task.Can.run_bind (sweepBackendCopies_can_delete hs3 hkey) (fun error _ hx => ⟨⟨error, rfl⟩, hx.2.2⟩)
      fun _ _ hx => (nomatch hx.1.choose_spec)

/-- A removal that fails leaves the blob as it was exactly when it does not ask the bucket for more after the bytes of the entry are
gone. -/
theorem leavesBlob_iff (cfg : Config) (sha256 : Str) (removal : Removal) (expected : Option FileMetadata) (s : AppState) :
    LeavesBlob cfg sha256 removal expected s ↔
      ∀ metadata, s.index.get sha256 = some metadata → movedOn metadata expected = false → (s.bytesAt metadata.location).isSome = true →
        ¬ AsksAfter cfg sha256 removal metadata.location := by
  have hguarded : ∀ t env n, (removeIndexedBlob cfg sha256 removal expected).run.alone (exec cfg t) env n s =
      (removeLocked cfg sha256 removal expected).run.alone (exec cfg t) env n s := by
    intro t env n
    show ((removeLocked cfg sha256 removal expected).run.bind _).alone _ _ _ _ = _
    rw [Task.alone_bind]
    rfl
  constructor
  · intro h metadata hentry hcurrent hbytes hasks
    have : Nonempty Env := ⟨Sample.calm⟩
    obtain ⟨env, ⟨error, herror⟩, hgone⟩ := (removeLocked_can_fail (t := 0) hentry hcurrent hasks hbytes).alone 0
    rw [← hguarded] at herror hgone
    obtain ⟨bytes, hbytes⟩ := Option.isSome_iff_exists.1 hbytes
    exact nomatch hgone.symm.trans ((h 0 env 0 error metadata hentry herror).2 bytes hbytes)
  · intro h t env n error metadata hentry herror
    have hindex : (removeLocked cfg sha256 removal expected).run.Yields (exec cfg t) (fun _ => True)
      (fun x s' => ∀ error, x = .error error → s'.index = s.index) s := removeLocked_fails_index
    rw [hguarded] at herror ⊢
    refine ⟨?_, fun bytes hbytes => ?_⟩
    · rw [hindex.alone (fun _ => trivial) n error herror]
      exact hentry
    · have hleft : (removeLocked cfg sha256 removal expected).run.Yields (exec cfg t) (fun _ => True)
          (fun x s' => ∀ error, x = .error error → s'.bytesAt metadata.location = s.bytesAt metadata.location) s :=
        removeLocked_fails_bytes hentry fun hcurrent => h metadata hentry hcurrent (by rw [hbytes]; rfl)
      rw [hleft.alone (fun _ => trivial) n error herror]
      exact hbytes

end FileStorage

namespace Sample

open FileStorage

/-- The entry of the object of the hash. -/
def inBucket : FileMetadata :=
  { metadata hash with location := .s3 key }

/-- The bucket holds the blob, and the index knows of it. -/
def holdingObject : AppState :=
  { stocked with index := BlobIndex.empty.insert hash inBucket }

end Sample

namespace FileStorage

open Sample in
/-- An object is deleted, and the listing after it fails: the entry remains without its bytes. -/
theorem leavesBlob_false : ¬ ∀ cfg sha256 removal expected s, LeavesBlob cfg sha256 removal expected s := by
  intro hall
  let env : Nat → Env := fun n => if n < 3 then calm else refused
  have herror : ((removeIndexedBlob config hash .requested none).run.alone (exec config 0) env 0 holdingObject).1 =
      .error (.serviceUnavailable "S3 ListObjectsV2 failed: refused") := by rfl
  have hgone : ((removeIndexedBlob config hash .requested none).run.alone (exec config 0) env 0 holdingObject).2.2.bytesAt (.s3 key) =
      none := by rfl
  have hleft := (hall config hash .requested none holdingObject 0 env 0 _ inBucket rfl herror).2 [1, 2, 3] rfl
  exact nomatch hgone.symm.trans hleft

end FileStorage

end Almond
