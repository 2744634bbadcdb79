import Almond.Lemmas.GuardedAux
import Almond.Lemmas.ReconstructionAux
import Almond.Store

/-! # One publication

What `publish_blob` does when it has the store to itself, whatever fails: it ends with the index and the bytes of the entries as they
were, or with the bytes of the temporary file at the place of the new entry. -/

namespace Almond

open Conc FileStorage

/-- No file operation and no operation on the bucket is sure to succeed. -/
def Anything (_ : Env) : Prop :=
  True

/-- The index is as it was, and so are the bytes at all but some locations. -/
structure Kept (lost : FileLocation → Prop) (s s' : AppState) : Prop where
  index : s'.index = s.index
  bytes : ∀ location, ¬ lost location → s'.bytesAt location = s.bytesAt location

/-- The owners of the temporary blobs are as they were, too. -/
structure Unchanged (lost : FileLocation → Prop) (s s' : AppState) : Prop extends Kept lost s s' where
  temps : s'.temps = s.temps

namespace Unchanged

variable {lost lost' : FileLocation → Prop} {s s' s'' : AppState}

/-- Nothing has changed. -/
theorem refl (lost : FileLocation → Prop) (s : AppState) : Unchanged lost s s :=
  ⟨⟨rfl, fun _ _ => rfl⟩, rfl⟩

/-- One change after another. -/
theorem trans (h : Unchanged lost s s') (h' : Unchanged lost s' s'') : Unchanged lost s s'' :=
  ⟨⟨h'.index.trans h.index, fun l hl => (h'.bytes l hl).trans (h.bytes l hl)⟩, h'.temps.trans h.temps⟩

/-- More locations can be given up. -/
theorem mono (hlost : ∀ l, lost l → lost' l) (h : Unchanged lost s s') : Unchanged lost' s s' :=
  ⟨⟨h.index, fun l hl => h.bytes l fun hl' => hl (hlost l hl')⟩, h.temps⟩

/-- A state with the same files and objects. -/
theorem of_eq (hi : s'.index = s.index) (ht : s'.temps = s.temps) (hn : s'.disk.names = s.disk.names)
    (hd : s'.disk.nodes = s.disk.nodes) (hb : s'.bucket = s.bucket) : Unchanged lost s s' := by
  refine ⟨⟨hi, fun l _ => ?_⟩, ht⟩
  cases l with
  | localFile p => simp only [AppState.bytesAt, Disk.file?, hn, hd]
  | s3 key => simp only [AppState.bytesAt, hb]

/-- A disposal loses at most the bytes of its location. -/
theorem of_disposes (cfg : Config) (t : Tid) {r : Req} {location : FileLocation} (h : r.Disposes location) (e : Env) (s : AppState) :
    Unchanged (· = location) s (exec cfg t r e s).2 := by
  cases r with
  | fs r =>
    cases r with
    | removeFile p =>
      obtain rfl : location = .localFile p := h
      cases hf : e.fs.fault with
      | some message => simp only [exec, Disk.exec, hf]; exact ⟨⟨rfl, fun _ _ => rfl⟩, rfl⟩
      | none =>
        simp only [exec, Disk.exec, hf, Disk.perform]
        split
        · refine ⟨⟨rfl, fun l hl => ?_⟩, rfl⟩
          cases l with
          | localFile q =>
            have hq : q ≠ p := fun hq => hl (congrArg _ hq)
            simp only [AppState.bytesAt, Disk.file?, Disk.unlink, AList.lookup_erase_ne hq]
          | s3 key => rfl
        · exact ⟨⟨rfl, fun _ _ => rfl⟩, rfl⟩
    | _ => exact h.elim
  | s3 r =>
    cases r with
    | deleteObject key =>
      obtain rfl : location = .s3 key := h
      cases hf : e.s3.fault with
      | some message => simp only [exec, Bucket.exec, hf]; exact ⟨⟨rfl, fun _ _ => rfl⟩, rfl⟩
      | none =>
        simp only [exec, Bucket.exec, hf, Bucket.perform]
        refine ⟨⟨rfl, fun l hl => ?_⟩, rfl⟩
        cases l with
        | localFile q => rfl
        | s3 key' =>
          have hk : key' ≠ key := fun hk => hl (congrArg _ hk)
          simp only [AppState.bytesAt, AList.lookup_erase_ne hk]
    | _ => exact h.elim
  | _ => exact h.elim

end Unchanged

section

variable {cfg : Config} {t : Tid} {s : AppState} {α : Type}

/-- A task that only reads leaves the state as it is. -/
theorem yields_of_inspects {R : α → Prop} {p : Async α} (hp : p.Within Req.inspects R) :
    p.Yields (exec cfg t) Anything (fun a s' => R a ∧ s' = s) s :=
  hp.yields (fun _ _ _ hr hs => (exec_of_inspects hr).trans hs) rfl

/-- A request that reads leaves the state as it is. -/
theorem yields_read {r : Req} (hr : r.inspects) : (request r).Yields (exec cfg t) Anything (fun _ s' => s' = s) s :=
  fun _ _ => exec_of_inspects hr

/-- A disposal leaves everything but its location. -/
theorem yields_of_disposes {location : FileLocation} {p : Async α} (hp : p.Uses (Req.Disposes location)) :
    p.Yields (exec cfg t) Anything (fun _ s' => Unchanged (· = location) s s') s :=
  (hp.yields (I := Unchanged (· = location) s) (fun _ e _ hr hs => hs.trans (.of_disposes cfg t hr e _))
    (.refl ..)).mono fun _ _ h => h.2

/-- A fallible value followed by more. -/
theorem yields_ofResult_bind {β : Type} {x : AppResult α} {f : α → AsyncResult β} {E : Env → Prop} {Q : AppResult β → AppState → Prop}
    (he : ∀ error, x = .error error → Q (.error error) s) (hf : ∀ a, x = .ok a → (f a).run.Yields (exec cfg t) E Q s) :
    (ofResult x >>= f).run.Yields (exec cfg t) E Q s := by
  cases x with
  | error error => exact he error rfl
  | ok a => exact hf a rfl

/-- Creating directories leaves the bytes. -/
theorem createDirAll_yields (p : Path) :
    (fs (.createDirAll p)).Yields (exec cfg t) Anything (fun _ s' => Unchanged (fun _ => False) s s') s := by
  intro e _
  cases hf : e.fs.fault with
  | some message => simp only [exec, Disk.exec, hf]; exact ⟨⟨rfl, fun _ _ => rfl⟩, rfl⟩
  | none =>
    simp only [exec, Disk.exec, hf, Disk.perform]
    split <;> exact .of_eq rfl rfl rfl rfl rfl

/-- A file that is removed is gone; otherwise nothing has changed. -/
theorem removeFile_yields (p : Path) :
    (fs (.removeFile p)).Yields (exec cfg t) Anything (fun x s' => Unchanged (· = .localFile p) s s' ∧
      ∀ u, x = .ok u → s'.bytesAt (.localFile p) = none) s := by
  intro e _
  refine ⟨.of_disposes cfg t (r := .fs (.removeFile p)) rfl e s, fun u hu => ?_⟩
  cases hf : e.fs.fault with
  | some message =>
    simp only [exec, Disk.exec, hf] at hu
    cases hu
  | none =>
    simp only [exec, Disk.exec, hf, Disk.perform] at hu ⊢
    by_cases hp : s.disk.hasFile p = true
    · simp only [hp, if_true, AppState.bytesAt, Disk.file?, Disk.unlink, AList.lookup_erase, Option.map_none]
    · simp only [hp] at hu
      cases hu

/-- A file that is opened is the one its path names, and opening it changes nothing. -/
theorem openFile_yields (p : Path) :
    (fs (.openFile p)).Yields (exec cfg t) Anything (fun x s' => s' = s ∧
      ∀ ino, x = .ok ino → s.disk.names.lookup p = some ino) s := by
  intro e _
  refine ⟨exec_of_inspects trivial, fun ino hi => ?_⟩
  cases hf : e.fs.fault with
  | some message =>
    simp only [exec, Disk.exec, hf] at hi
    cases hi
  | none =>
    simp only [exec, Disk.exec, hf, Disk.perform] at hi
    cases hl : s.disk.names.lookup p with
    | none =>
      rw [hl] at hi
      cases hi
    | some ino' =>
      rw [hl] at hi
      cases hi
      rfl

/-- An object that is put has the bytes of the open file; otherwise nothing has changed. -/
theorem putObject_yields (key : Str) (ino : Ino) :
    (s3 (.putObject key ino)).Yields (exec cfg t) Anything (fun x s' => Unchanged (· = .s3 key) s s' ∧
      ∀ u, x = .ok u → s'.bytesAt (.s3 key) = some (s.disk.nodes ino).data) s := by
  intro e _
  cases hf : e.s3.fault with
  | some message =>
    simp only [exec, Bucket.exec, hf]
    exact ⟨⟨⟨rfl, fun _ _ => rfl⟩, rfl⟩, fun _ h => by cases h⟩
  | none =>
    simp only [exec, Bucket.exec, hf, Bucket.perform]
    refine ⟨⟨⟨rfl, fun l hl => ?_⟩, rfl⟩, fun _ _ => ?_⟩
    · cases l with
      | localFile q => rfl
      | s3 key' =>
        have hk : key' ≠ key := fun h => hl (congrArg _ h)
        simp only [AppState.bytesAt, AList.lookup_insert_ne hk]
    · simp only [AppState.bytesAt, AList.lookup_insert, Option.map_some]

/-- A file that is moved takes its bytes with it; otherwise nothing has changed. -/
theorem rename_yields {source destination : Path} (hne : source ≠ destination) :
    (fs (.rename source destination)).Yields (exec cfg t) Anything (fun x s' => match x with
      | .ok _ => Unchanged (fun l => l = .localFile source ∨ l = .localFile destination) s s' ∧
          (∃ bytes, s.bytesAt (.localFile source) = some bytes ∧ s'.bytesAt (.localFile destination) = some bytes) ∧
          s'.bytesAt (.localFile source) = none
      | .error _ => Unchanged (fun _ => False) s s') s := by
  intro e _
  cases hf : e.fs.fault with
  | some message => simp only [exec, Disk.exec, hf]; exact ⟨⟨rfl, fun _ _ => rfl⟩, rfl⟩
  | none =>
    simp only [exec, Disk.exec, hf, Disk.perform]
    cases hl : s.disk.names.lookup source with
    | none => exact ⟨⟨rfl, fun _ _ => rfl⟩, rfl⟩
    | some ino =>
      by_cases hd : s.disk.dirs.contains destination = true
      · simp only [hd, if_true]
        exact ⟨⟨rfl, fun _ _ => rfl⟩, rfl⟩
      by_cases hp : s.disk.parentExists destination = true
      · simp only [hd, hp, if_true, Bool.false_eq_true, if_false]
        refine ⟨⟨⟨rfl, fun l hl => ?_⟩, rfl⟩, ⟨(s.disk.nodes ino).data, ?_, ?_⟩, ?_⟩
        · cases l with
          | localFile q =>
            have hs : q ≠ source := fun h => hl (.inl (congrArg _ h))
            have ht : q ≠ destination := fun h => hl (.inr (congrArg _ h))
            simp only [AppState.bytesAt, Disk.file?, Disk.move, AList.lookup_insert_ne ht, AList.lookup_erase_ne hs]
          | s3 key => rfl
        · simp only [AppState.bytesAt, Disk.file?, hl, Option.map_some]
        · simp only [AppState.bytesAt, Disk.file?, Disk.move, AList.lookup_insert, Option.map_some]
        · simp only [AppState.bytesAt, Disk.file?, Disk.move, AList.lookup_insert_ne hne, AList.lookup_erase, Option.map_none]
      · simp only [hd, hp, Bool.false_eq_true, if_false]
        exact ⟨⟨rfl, fun _ _ => rfl⟩, rfl⟩

end

namespace FileStorage

variable {cfg : Config} {t : Tid} {s : AppState}

/-- Making metadata visible replaces the entry of its hash and gives up at most the location of the entry it displaced. -/
theorem publishMetadata_yields {sha256 : Str} {m : FileMetadata} (hfree : m.origin = .upload ∨ s.index.get sha256 = none) :
    (publishMetadata cfg sha256 m).run.Yields (exec cfg t) Anything (fun x s' => x = .ok ⟨m, true⟩ ∧
      s'.index = s.index.insert sha256 m ∧
      ∀ location, (∀ e, s.index.get sha256 = some e → e.location ≠ location) → s'.bytesAt location = s.bytesAt location) s := by
  intro e _
  obtain ⟨existing, ho, hg, _⟩ | ⟨_, hp⟩ := BlobIndex.publish_cases s.index sha256 m
  · rcases hfree with hu | hn
    · exact absurd (ho.symm.trans hu) nofun
    · exact absurd (hg.symm.trans hn) nofun
  simp only [exec, IndexReq.exec, hp]
  intro e' _
  simp only [exec, IndexReq.exec, BlobIndex.get_insert_self]
  cases hd : s.index.get sha256 with
  | none => exact ⟨rfl, rfl, fun _ _ => rfl⟩
  | some displaced =>
    refine yields_attempt_bind (yields_of_disposes (removePhysicalFile_uses cfg displaced)) fun removed s₁ h => ?_
    have hbytes : ∀ location, (∀ e, some displaced = some e → e.location ≠ location) → s₁.bytesAt location = s.bytesAt location :=
      fun l hl => h.bytes l fun he => hl displaced rfl he.symm
    cases removed with
    | ok _ => exact ⟨rfl, h.index, hbytes⟩
    | error _ => exact fun _ _ => ⟨rfl, h.index, hbytes⟩

/-- The end of a publication that stored its bytes: they were those of the temporary file, which is gone, and they are where the new
entry of the hash says. -/
structure Installed (layout : StorageLayout) (publication : BlobPublication) (temp : Path) (s s' : AppState) (m : FileMetadata) :
    Prop where
  origin : m.origin = publication.origin
  size : m.size = publication.size
  housed : Housed layout publication.sha256 publication.origin m.location
  index : s'.index = s.index.insert publication.sha256 m
  moved : ∃ bytes, s.bytesAt (.localFile temp) = some bytes ∧ s'.bytesAt m.location = some bytes
  gone : s'.bytesAt (.localFile temp) = none

/-- The locations that a publication works on: its temporary file, and the places of its hash for its origin. -/
def Worked (layout : StorageLayout) (publication : BlobPublication) (temp : Path) (location : FileLocation) : Prop :=
  location = .localFile temp ∨ Housed layout publication.sha256 publication.origin location

/-- How the part of a publication that stores the bytes can end. -/
def Settled (layout : StorageLayout) (publication : BlobPublication) (temp : Path) (s : AppState) (x : AppResult StoredBlob)
    (s' : AppState) : Prop :=
  match x with
  | .error _ => Unchanged (Worked layout publication temp) s s'
  | .ok stored => stored.created = true ∧ Installed layout publication temp s s' stored.metadata

section

variable {root : Path} {publication : BlobPublication} {temp : Path}

/-- A hash that is required to be valid is. -/
theorem isValidHash_of_requireHash {sha256 : Str} {u : Unit} (h : BlobName.requireHash sha256 = .ok u) :
    BlobName.isValidHash sha256 = true := by
  unfold BlobName.requireHash at h
  split at h
  · assumption
  · nomatch h

/-- The completed path of a publication is a place of its hash. -/
theorem housed_of_completedPath {layout : StorageLayout} {origin : BlobOrigin} {sha256 : Str} {x : Option Str} {e : Option Nat} {p : Path}
    (hp : completedPath layout origin sha256 x e = .ok p) : Housed layout sha256 origin (.localFile p) := by
  obtain ⟨⟨a, b⟩, _, hp⟩ := bind_eq_ok.1 hp
  obtain ⟨name, hn, hp⟩ := bind_eq_ok.1 hp
  obtain ⟨_, hv, hn⟩ := bind_eq_ok.1 hn
  cases hn
  cases hp
  exact ⟨isValidHash_of_requireHash hv, [a, b], BlobName.suffix e x, by simp⟩

/-- The key of a publication is a place of its hash. -/
theorem housed_of_objectKey {layout : StorageLayout} {sha256 : Str} {x : Option Str} {e : Option Nat} {key : Str}
    (hk : NativeStorage.objectKey sha256 x e = .ok key) : Housed layout sha256 .upload (.s3 key) := by
  obtain ⟨⟨a, b⟩, hf, hk⟩ := bind_eq_ok.1 hk
  obtain ⟨name, hn, hk⟩ := bind_eq_ok.1 hk
  obtain ⟨_, hv, hn⟩ := bind_eq_ok.1 hn
  cases hn
  cases hk
  refine ⟨isValidHash_of_requireHash hv, rfl, a ++ '/' :: b ++ '/' :: sha256, BlobName.suffix e x, ?_, by simp⟩
  rw [NativeStorage.hashPrefix, hf]
  rfl

/-- What a publication may displace: nothing, or a cache copy by an upload. -/
def Displaceable (layout : StorageLayout) (publication : BlobPublication) (entry : Option FileMetadata) : Prop :=
  ∀ e, entry = some e → publication.origin = .upload ∧ e.origin = .upstreamCache ∧ Housed layout publication.sha256 e.origin e.location

/-- What is displaced is neither the temporary file nor a place of the publication. -/
theorem Displaceable.not_worked (hlayout : cfg.storage = .new root) (ht : Scratch cfg.storage temp) {entry : Option FileMetadata}
    (h : Displaceable cfg.storage publication entry) {e : FileMetadata} (he : entry = some e) :
    ¬ Worked cfg.storage publication temp e.location := by
  obtain ⟨hu, hc, hh⟩ := h e he
  rintro (hl | hl)
  · exact hh.ne_scratch hlayout ht hl
  · rw [hlayout] at hh hl
    have ho := hh.origin_unique hl
    rw [hu, hc] at ho
    nomatch ho

/-- The last part of a publication: the bytes are in place, and the entry follows. -/
theorem finish_yields {location : FileLocation} {m : FileMetadata} (hlayout : cfg.storage = .new root) (ht : Scratch cfg.storage temp)
    {s₀ : AppState} (hd : Displaceable cfg.storage publication (s.index.get publication.sha256))
    (ho : m.origin = publication.origin) (hsize : m.size = publication.size) (hl : m.location = location)
    (hhoused : Housed cfg.storage publication.sha256 publication.origin location) (hindex : s.index = s₀.index)
    (hmoved : ∃ bytes, s₀.bytesAt (.localFile temp) = some bytes ∧ s.bytesAt location = some bytes)
    (hgone : s.bytesAt (.localFile temp) = none) :
    (publishMetadata cfg publication.sha256 m).run.Yields (exec cfg t) Anything
      (Settled cfg.storage publication temp s₀) s := by
  have hfree : m.origin = .upload ∨ s.index.get publication.sha256 = none := by
    cases hg : s.index.get publication.sha256 with
    | none => exact .inr rfl
    | some e => exact .inl (ho.trans (hd e hg).1)
  refine (publishMetadata_yields hfree).mono fun x s' ⟨hx, hi, hb⟩ => ?_
  subst hx
  have hkeep : ∀ l, Worked cfg.storage publication temp l → s'.bytesAt l = s.bytesAt l :=
    fun l hw => hb l fun e he hel => hd.not_worked hlayout ht he (hel ▸ hw)
  obtain ⟨bytes, h₀, h₁⟩ := hmoved
  refine ⟨rfl, ho, hsize, hl ▸ hhoused, hindex ▸ hi, ⟨bytes, h₀, ?_⟩, ?_⟩
  · rw [hl, hkeep _ (.inr hhoused), h₁]
  · rw [hkeep _ (.inl rfl), hgone]

/-- Moving the bytes to their completed path. -/
theorem publishToDisk_yields (hlayout : cfg.storage = .new root) (ht : Scratch cfg.storage temp)
    (hd : Displaceable cfg.storage publication (s.index.get publication.sha256)) :
    (publishToDisk cfg temp publication).run.Yields (exec cfg t) Anything (Settled cfg.storage publication temp s) s := by
  refine yields_ofResult_bind (fun _ _ => .refl ..) fun finalPath hp => ?_
  have hh := housed_of_completedPath hp
  have hne : temp ≠ finalPath := fun he => hh.ne_scratch hlayout ht (congrArg _ he.symm)
  -- Only the bytes of the temporary file and of the completed path are touched before the entry is.
  have hfail : ∀ {lost : FileLocation → Prop} {s' : AppState}, (∀ l, lost l → Worked cfg.storage publication temp l) →
      Unchanged lost s s' → Unchanged (Worked cfg.storage publication temp) s s' := fun hl h => h.mono hl
  have hpath : ∀ l, l = .localFile finalPath → Worked cfg.storage publication temp l := fun l hl => .inr (hl ▸ hh)
  refine yields_orErr_bind ((createDirAll_yields _).mono fun x s₁ h₁ => ?_)
  cases x with
  | error _ => exact hfail (fun _ => False.elim) h₁
  | ok _ =>
    refine yields_orErr_bind ((yields_read (r := .fs (.tryExists finalPath)) trivial).mono fun x s' hs' => ?_)
    subst hs'
    cases x with
    | error _ => exact hfail (fun _ => False.elim) h₁
    | ok present =>
      have hrest : ∀ s₂, Unchanged (· = .localFile finalPath) s s₂ → Task.Yields (exec cfg t) Anything (do
          orIoErr (fun error => s!"Failed to publish {display temp} to {display finalPath}: {error.message}")
            (fs (.rename temp finalPath))
          request (.intoPublished temp)
          let metadata ← publication.metadata (.localFile finalPath)
          publishMetadata cfg publication.sha256 metadata : AsyncResult StoredBlob).run
          (Settled cfg.storage publication temp s) s₂ := by
        intro s₂ h₂
        refine yields_orErr_bind ((rename_yields hne).mono fun x s₃ h₃ => ?_)
        cases x with
        | error _ => exact hfail hpath (h₂.trans (h₃.mono fun _ => False.elim))
        | ok _ =>
          obtain ⟨h₃, ⟨bytes, hb, hb'⟩, hgone⟩ := h₃
          have hindex : s₃.index = s.index := h₃.index.trans h₂.index
          have htemp : s.bytesAt (.localFile temp) = some bytes :=
            (h₂.bytes _ fun he => hne (FileLocation.localFile.inj he)).symm.trans hb
          have hd₃ : Displaceable cfg.storage publication (s₃.index.get publication.sha256) := hindex ▸ hd
          exact fun e₄ _ e₅ _ => finish_yields hlayout ht hd₃ rfl rfl rfl hh hindex ⟨bytes, htemp, hb'⟩ hgone
      cases present with
      | false => exact hrest _ (h₁.mono fun _ => False.elim)
      | true =>
        refine Task.Yields.run_bind (yields_of_disposes (removeLocalFile_uses finalPath)) ?_ ?_
        · exact fun e s₂ h₂ => hfail hpath ((h₁.mono fun _ => False.elim).trans h₂)
        · exact fun _ s₂ h₂ => hrest s₂ ((h₁.mono fun _ => False.elim).trans h₂)

/-- Moving the bytes to their key consumes the temporary file. -/
theorem put_yields (temp : Path) (sha256 : Str) (extension : Option Str) (expiration : Option Nat) :
    (NativeStorage.put temp sha256 extension expiration).run.Yields (exec cfg t) Anything (fun x s' => match x with
      | .error _ => Unchanged (fun l => l = .localFile temp ∨ Housed cfg.storage sha256 .upload l) s s'
      | .ok key => NativeStorage.objectKey sha256 extension expiration = .ok key ∧
          Unchanged (fun l => l = .localFile temp ∨ l = .s3 key) s s' ∧
          (∃ bytes, s.bytesAt (.localFile temp) = some bytes ∧ s'.bytesAt (.s3 key) = some bytes) ∧
          s'.bytesAt (.localFile temp) = none) s := by
  refine yields_ofResult_bind (fun _ _ => .refl ..) fun key hk => ?_
  have hh : ∀ l, l = .s3 key → l = .localFile temp ∨ Housed cfg.storage sha256 .upload l :=
    fun l hl => .inr (hl ▸ housed_of_objectKey hk)
  refine yields_orErr_bind ((openFile_yields temp).mono fun x s' ⟨hs, ho⟩ => ?_)
  subst hs
  cases x with
  | error _ => exact .refl ..
  | ok ino =>
    refine yields_orErr_bind ((putObject_yields key ino).mono fun x s₂ ⟨h₂, hput⟩ => ?_)
    cases x with
    | error _ => exact h₂.mono hh
    | ok u =>
      refine yields_orErr_bind ((removeFile_yields temp).mono fun x s₃ ⟨h₃, hgone⟩ => ?_)
      cases x with
      | error _ => exact (h₂.mono hh).trans (h₃.mono fun _ => .inl)
      | ok v =>
        have hkept : s₃.bytesAt (.s3 key) = s₂.bytesAt (.s3 key) := h₃.bytes _ fun he => nomatch he
        refine ⟨hk, (h₂.mono fun _ => .inr).trans (h₃.mono fun _ => .inl), ⟨_, ?_, hkept.trans (hput u rfl)⟩, hgone v rfl⟩
        simp only [AppState.bytesAt, Disk.file?, ho ino rfl, Option.map_some]

/-- Moving the bytes to S3. -/
theorem publishToS3_yields (hlayout : cfg.storage = .new root) (ht : Scratch cfg.storage temp) (ho : publication.origin = .upload)
    (hd : Displaceable cfg.storage publication (s.index.get publication.sha256)) :
    (publishToS3 cfg temp publication).run.Yields (exec cfg t) Anything (Settled cfg.storage publication temp s) s := by
  refine Task.Yields.run_bind (yields_of_inspects NativeStorage.ensureAvailable_uses) ?_ ?_
  · rintro e s' ⟨-, rfl⟩
    exact .refl ..
  rintro _ s' ⟨-, hs'⟩
  rw [hs']
  refine Task.Yields.run_bind (put_yields ..) (fun e s₁ h => ?_) fun key s₁ ⟨hk, h₁, hmoved, hgone⟩ => ?_
  · exact h.mono fun l hl => hl.imp_right fun hh => by rwa [ho]
  have hh : Housed cfg.storage publication.sha256 publication.origin (.s3 key) := ho ▸ housed_of_objectKey hk
  have hd₁ : Displaceable cfg.storage publication (s₁.index.get publication.sha256) := h₁.index ▸ hd
  exact fun _ _ _ _ => finish_yields hlayout ht hd₁ rfl rfl rfl hh h₁.index hmoved hgone

/-- How a publication can end: it fails and leaves the entries and their bytes, it keeps the incumbent and leaves everything, or it
stores the bytes, and then what it displaced was a cache copy. -/
def Concluded (layout : StorageLayout) (publication : BlobPublication) (temp : Path) (s : AppState) (x : AppResult StoredBlob)
    (s' : AppState) : Prop :=
  match x with
  | .error _ =>
    Kept (fun l => l = .localFile temp ∨ Displaceable layout publication (s.index.get publication.sha256) ∧
      Housed layout publication.sha256 publication.origin l) s s'
  | .ok ⟨e, false⟩ =>
    s.index.get publication.sha256 = some e ∧ keepsIncumbent publication e = true ∧ Kept (· = .localFile temp) s s'
  | .ok ⟨m, true⟩ => Displaceable layout publication (s.index.get publication.sha256) ∧ Installed layout publication temp s s' m

/-- The guarded part of a publication concludes; what it did not store is still owned. -/
theorem publishLocked_yields (hlayout : cfg.storage = .new root) (ht : Scratch cfg.storage temp)
    (hs : ∀ e, s.index.get publication.sha256 = some e → Housed cfg.storage publication.sha256 e.origin e.location) :
    (publishLocked cfg temp publication).run.Yields (exec cfg t) Anything (fun x s' =>
      Concluded cfg.storage publication temp s x s' ∧ (s'.temps = s.temps ∨ s'.bytesAt (.localFile temp) = none)) s := by
  refine Task.Yields.run_bind (yields_of_inspects (ensureNotQuarantined_uses cfg.storage publication.sha256)) ?_ ?_
  · rintro e s' ⟨-, rfl⟩
    exact ⟨(Unchanged.refl ..).toKept, .inl rfl⟩
  rintro _ s' ⟨-, hs'⟩
  rw [hs']
  have hstore : Displaceable cfg.storage publication (s.index.get publication.sha256) →
      (if publication.origin = .upload ∧ cfg.nativeS3 = true then publishToS3 cfg temp publication
        else publishToDisk cfg temp publication : AsyncResult StoredBlob).run.Yields (exec cfg t) Anything (fun x s' =>
        Concluded cfg.storage publication temp s x s' ∧ (s'.temps = s.temps ∨ s'.bytesAt (.localFile temp) = none)) s := by
    intro hd
    have hsettled : ∀ x s', Settled cfg.storage publication temp s x s' →
        Concluded cfg.storage publication temp s x s' ∧ (s'.temps = s.temps ∨ s'.bytesAt (.localFile temp) = none) := by
      rintro (e | ⟨m, created⟩) s' h
      · have hk := Unchanged.mono (fun l hl => Or.imp_right (And.intro hd) hl) h
        exact ⟨hk.toKept, .inl hk.temps⟩
      · obtain ⟨hc, h⟩ := h
        cases hc
        exact ⟨⟨hd, h⟩, .inr h.gone⟩
    by_cases hs3 : publication.origin = .upload ∧ cfg.nativeS3 = true
    · rw [if_pos hs3]
      exact (publishToS3_yields hlayout ht hs3.1 hd).mono hsettled
    · rw [if_neg hs3]
      exact (publishToDisk_yields hlayout ht hd).mono hsettled
  intro e _
  simp only [exec, IndexReq.exec]
  cases hg : s.index.get publication.sha256 with
  | none =>
    refine hstore ?_
    rw [hg]
    rintro _ ⟨⟩
  | some existing =>
    cases hk : keepsIncumbent publication existing with
    | true =>
      show Task.Yields _ _ (if keepsIncumbent publication existing = true then _ else _ : AsyncResult StoredBlob).run _ _
      rw [if_pos hk]
      exact ⟨⟨hg, hk, (Unchanged.refl ..).toKept⟩, .inl rfl⟩
    | false =>
      show Task.Yields _ _ (if keepsIncumbent publication existing = true then _ else _ : AsyncResult StoredBlob).run _ _
      rw [if_neg (ne_true_of_eq_false hk)]
      refine hstore ?_
      rw [hg]
      rintro _ ⟨⟩
      -- Neither the publication is a cache fill, nor the incumbent an upload.
      simp only [keepsIncumbent, Bool.or_eq_false_iff, decide_eq_false_iff_not] at hk
      have hcache : existing.origin = .upstreamCache := by
        cases ho : existing.origin with
        | upload => exact absurd ho hk.2
        | upstreamCache => rfl
      have hupload : publication.origin = .upload := by
        cases ho : publication.origin with
        | upload => rfl
        | upstreamCache => exact absurd ho hk.1
      exact ⟨hupload, hcache, hs existing hg⟩

/-- Dropping a temporary blob that is owned removes its file, and nothing else. -/
theorem dropTemp_yields (temp : Path) :
    (request (.dropTemp temp)).Yields (exec cfg t) Anything (fun _ s' => Kept (· = .localFile temp) s s' ∧
      ((t, temp) ∈ s.temps ∨ s.bytesAt (.localFile temp) = none → s'.bytesAt (.localFile temp) = none)) s := by
  intro e _
  by_cases hc : s.temps.contains (t, temp) = true
  · simp only [exec, hc, if_true]
    refine ⟨⟨rfl, fun l hl => ?_⟩, fun _ => ?_⟩
    · cases l with
      | localFile q =>
        have hq : q ≠ temp := fun h => hl (congrArg _ h)
        simp only [AppState.bytesAt, Disk.file?, Disk.unlink, AList.lookup_erase_ne hq]
      | s3 key => rfl
    · simp only [AppState.bytesAt, Disk.file?, Disk.unlink, AList.lookup_erase, Option.map_none]
  · simp only [exec, hc, Bool.false_eq_true, if_false]
    refine ⟨⟨rfl, fun _ _ => rfl⟩, fun h => h.resolve_left fun hm => hc ?_⟩
    exact List.contains_iff_mem.2 hm

/-- A conclusion survives the end of the temporary file. -/
theorem Concluded.drop (hlayout : layout = .new root) (ht : Scratch layout temp) {x : AppResult StoredBlob} {s₀ s s' : AppState}
    (h : Concluded layout publication temp s₀ x s) (hk : Kept (· = .localFile temp) s s')
    (hgone : s.bytesAt (.localFile temp) = none → s'.bytesAt (.localFile temp) = none) : Concluded layout publication temp s₀ x s' := by
  have hbytes : ∀ lost : FileLocation → Prop, lost (.localFile temp) → Kept lost s₀ s → Kept lost s₀ s' := fun lost hl h =>
    ⟨hk.index.trans h.index, fun l hn => (hk.bytes l fun he => hn (he ▸ hl)).trans (h.bytes l hn)⟩
  rcases x with e | ⟨m, _ | _⟩
  · exact hbytes _ (.inl rfl) h
  · exact ⟨h.1, h.2.1, hbytes _ rfl h.2.2⟩
  · obtain ⟨hd, hi⟩ := h
    obtain ⟨bytes, h₀, h₁⟩ := hi.moved
    refine ⟨hd, hi.origin, hi.size, hi.housed, hk.index.trans hi.index, ⟨bytes, h₀, ?_⟩, hgone hi.gone⟩
    exact (hk.bytes _ fun he => hi.housed.ne_scratch hlayout ht he).trans h₁

/-- A publication concludes, and its temporary file is gone. -/
theorem publishBlob_yields (hlayout : cfg.storage = .new root) (ht : Scratch cfg.storage temp) (howned : (t, temp) ∈ s.temps)
    (hs : ∀ e, s.index.get publication.sha256 = some e → Housed cfg.storage publication.sha256 e.origin e.location) :
    (publishBlob cfg temp publication).run.Yields (exec cfg t) Anything (fun x s' =>
      Concluded cfg.storage publication temp s x s' ∧ s'.bytesAt (.localFile temp) = none) s := by
  refine yields_attempt_bind (Q := fun x s' =>
    Concluded cfg.storage publication temp s x s' ∧ (s'.temps = s.temps ∨ s'.bytesAt (.localFile temp) = none)) ?_ ?_
  · refine yields_ofResult_bind (fun _ _ => ⟨(Unchanged.refl ..).toKept, .inl rfl⟩) fun _ _ => ?_
    exact (publishLocked_yields hlayout ht hs).bind fun x s' h => h
  · rintro x s₁ ⟨hc, ho⟩
    refine Task.Yields.lift_bind (dropTemp_yields temp) fun _ s₂ ⟨hk, hgone⟩ => ?_
    have howned₁ : (t, temp) ∈ s₁.temps ∨ s₁.bytesAt (.localFile temp) = none := by
      rcases ho with h | h
      · exact .inl (h ▸ howned)
      · exact .inr h
    exact ⟨hc.drop hlayout ht hk fun h => hgone (.inr h), hgone howned₁⟩

end

end FileStorage

end Almond
