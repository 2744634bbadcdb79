import Almond.Lemmas.HandlersAux
import Almond.Lemmas.PublicationAux

/-! # What becomes of temporary files

A task that owns a temporary file either still owns it or has lost its bytes to the place where they are published; when the file
is dropped, it is gone either way. -/

namespace Almond

open Conc FileStorage

section

variable {cfg : Config} {t : Tid} {s : AppState} {temp : Path}

/-- A path has a file exactly when it has bytes. -/
theorem hasFile_eq_false_iff {s : AppState} {p : Path} : s.disk.hasFile p = false ↔ s.bytesAt (.localFile p) = none := by
  simp only [Disk.hasFile, AppState.bytesAt, Disk.file?, Option.isSome_eq_false_iff, Option.isNone_iff_eq_none, Option.map_eq_none_iff]

/-- A disposal brings no file back. -/
theorem gone_of_disposes {r : Req} {location : FileLocation} (h : r.Disposes location) (e : Env)
    (hgone : s.bytesAt (.localFile temp) = none) : (exec cfg t r e s).2.bytesAt (.localFile temp) = none := by
  by_cases hl : location = .localFile temp
  · subst hl
    cases r with
    | fs r =>
      cases r with
      | removeFile p =>
        obtain rfl := FileLocation.localFile.inj h
        have hfile : s.disk.hasFile temp = false := hasFile_eq_false_iff.2 hgone
        cases hf : e.fs.fault with
        | some message =>
          simp only [exec, Disk.exec, hf]
          exact hgone
        | none =>
          simp only [exec, Disk.exec, hf, Disk.perform, hfile, Bool.false_eq_true, if_false]
          exact hgone
      | _ => exact h.elim
    | s3 r => cases r <;> first | exact h.elim | cases h
    | _ => exact h.elim
  · exact ((Unchanged.of_disposes cfg t h e s).bytes _ (Ne.symm hl)).trans hgone

namespace FileStorage

variable {root : Path} {publication : BlobPublication}

/-- Making metadata visible brings no file back. -/
theorem publishMetadata_gone (sha256 : Str) (m : FileMetadata) (hgone : s.bytesAt (.localFile temp) = none) :
    (publishMetadata cfg sha256 m).run.Yields (exec cfg t) Anything (fun _ s' => s'.bytesAt (.localFile temp) = none) s := by
  intro e _
  simp only [exec, IndexReq.exec]
  rcases s.index.publish sha256 m with ⟨displaced | existing, index⟩
  · intro e' _
    simp only [exec, IndexReq.exec]
    cases index.get sha256 with
    | none => exact hgone
    | some published =>
      cases displaced with
      | none => exact hgone
      | some displaced =>
        refine yields_attempt_bind (Q := fun _ s' => s'.bytesAt (.localFile temp) = none) ?_ fun removed s₁ h => ?_
        · exact ((removePhysicalFile_uses cfg displaced).yields (I := fun s' => s'.bytesAt (.localFile temp) = none)
            (fun _ e _ hr h => gone_of_disposes hr e h) hgone).mono fun _ _ h => h.2
        · cases removed with
          | ok _ => exact h
          | error _ => exact fun _ _ => h
  · exact hgone

/-- The end of a publication whose temporary file is gone brings no file back. -/
theorem finish_gone (location : FileLocation) (hgone : s.bytesAt (.localFile temp) = none) :
    Task.Yields (exec cfg t) Anything (do
      request (.intoPublished temp)
      let metadata ← publication.metadata location
      publishMetadata cfg publication.sha256 metadata : AsyncResult StoredBlob).run (fun _ s' => s'.bytesAt (.localFile temp) = none) s := by
  have hpublished : (request (.intoPublished temp)).Yields (exec cfg t) Anything (fun _ s' => s'.bytesAt (.localFile temp) = none) s :=
    fun _ _ => hgone
  refine Task.Yields.lift_bind hpublished fun _ s₁ h₁ => ?_
  have hmetadata : (publication.metadata location).Yields (exec cfg t) Anything (fun _ s' => s'.bytesAt (.localFile temp) = none) s₁ :=
    fun _ _ => h₁
  exact Task.Yields.lift_bind hmetadata fun m s₂ h₂ => publishMetadata_gone _ m h₂

/-- A publication under the guard leaves the temporary file with its owner, or it is gone. -/
def Handed (temp : Path) (s s' : AppState) : Prop :=
  s'.temps = s.temps ∨ s'.bytesAt (.localFile temp) = none

/-- Moving the bytes to their completed path. -/
theorem publishToDisk_handed (hlayout : cfg.storage = .new root) (ht : Scratch cfg.storage temp) :
    (publishToDisk cfg temp publication).run.Yields (exec cfg t) Anything (fun _ s' => Handed temp s s') s := by
  refine yields_ofResult_bind (fun _ _ => .inl rfl) fun finalPath hp => ?_
  have hne : temp ≠ finalPath := fun he => (housed_of_completedPath hp).ne_scratch hlayout ht (congrArg _ he.symm)
  have hrename : ∀ s₂, s₂.temps = s.temps → Task.Yields (exec cfg t) Anything (do
      orIoErr (fun error => s!"Failed to publish {display temp} to {display finalPath}: {error.message}")
        (fs (.rename temp finalPath))
      request (.intoPublished temp)
      let metadata ← publication.metadata (.localFile finalPath)
      publishMetadata cfg publication.sha256 metadata : AsyncResult StoredBlob).run (fun _ s' => Handed temp s s') s₂ := by
    intro s₂ htemps
    refine yields_orErr_bind ((rename_yields hne).mono fun x s₃ h₃ => ?_)
    cases x with
    | error _ => exact .inl (h₃.temps.trans htemps)
    | ok _ => exact (finish_gone _ h₃.2.2).mono fun _ _ => .inr
  refine yields_orErr_bind ((createDirAll_yields _).mono fun x s₁ h₁ => ?_)
  cases x with
  | error _ => exact .inl h₁.temps
  | ok _ =>
    refine yields_orErr_bind ((yields_read (r := .fs (.tryExists finalPath)) trivial).mono fun x s' hs' => ?_)
    subst hs'
    cases x with
    | error _ => exact .inl h₁.temps
    | ok present =>
      cases present with
      | false => exact hrename _ h₁.temps
      | true =>
        refine Task.Yields.run_bind (yields_of_disposes (removeLocalFile_uses finalPath)) ?_ ?_
        · exact fun _ s₂ h₂ => .inl (h₂.temps.trans h₁.temps)
        · exact fun _ s₂ h₂ => hrename s₂ (h₂.temps.trans h₁.temps)

/-- Moving the bytes to S3. -/
theorem publishToS3_handed :
    (publishToS3 cfg temp publication).run.Yields (exec cfg t) Anything (fun _ s' => Handed temp s s') s := by
  refine Task.Yields.run_bind (yields_of_inspects NativeStorage.ensureAvailable_uses) ?_ ?_
  · rintro e s' ⟨-, rfl⟩
    exact .inl rfl
  rintro _ s' ⟨-, hs'⟩
  rw [hs']
  refine Task.Yields.run_bind (put_yields ..) (fun e s₁ h => .inl h.temps) fun key s₁ h => ?_
  exact (finish_gone _ h.2.2.2).mono fun _ _ => .inr

/-- The part of a publication under the guard. -/
theorem publishLocked_handed (hlayout : cfg.storage = .new root) (ht : Scratch cfg.storage temp) :
    (publishLocked cfg temp publication).run.Yields (exec cfg t) Anything (fun _ s' => Handed temp s s') s := by
  refine Task.Yields.run_bind (yields_of_inspects (ensureNotQuarantined_uses cfg.storage publication.sha256)) ?_ ?_
  · rintro e s' ⟨-, rfl⟩
    exact .inl rfl
  rintro _ s' ⟨-, hs'⟩
  rw [hs']
  have hstore : (if publication.origin = .upload ∧ cfg.nativeS3 = true then publishToS3 cfg temp publication
      else publishToDisk cfg temp publication : AsyncResult StoredBlob).run.Yields (exec cfg t) Anything (fun _ s' => Handed temp s s') s := by
    by_cases hs3 : publication.origin = .upload ∧ cfg.nativeS3 = true
    · rw [if_pos hs3]
      exact publishToS3_handed
    · rw [if_neg hs3]
      exact publishToDisk_handed hlayout ht
  intro e _
  simp only [exec, IndexReq.exec]
  cases s.index.get publication.sha256 with
  | none => exact hstore
  | some existing =>
    show Task.Yields _ _ (if keepsIncumbent publication existing = true then _ else _ : AsyncResult StoredBlob).run _ _
    by_cases hk : keepsIncumbent publication existing = true
    · rw [if_pos hk]
      exact .inl rfl
    · rw [if_neg hk]
      exact hstore

/-- However a publication ends, its temporary file is gone. -/
theorem publishBlob_gone (hlayout : cfg.storage = .new root) (ht : Scratch cfg.storage temp) (howned : (t, temp) ∈ s.temps) :
    (publishBlob cfg temp publication).run.Yields (exec cfg t) Anything (fun _ s' => s'.bytesAt (.localFile temp) = none) s := by
  refine yields_attempt_bind (Q := fun _ s' => Handed temp s s') ?_ ?_
  · refine yields_ofResult_bind (fun _ _ => .inl rfl) fun _ _ => ?_
    exact (publishLocked_handed hlayout ht).bind fun _ _ h => h
  · intro x s₁ h
    refine Task.Yields.lift_bind (dropTemp_yields temp) fun _ s₂ ⟨_, hgone⟩ => hgone ?_
    rcases h with h | h
    · exact .inl (h ▸ howned)
    · exact .inr h

end FileStorage

namespace Handlers

variable {α : Type}

/-- Work that leaves a temporary file with its owner: when it fails, the file is gone. -/
theorem withTemp_yields {work : AsyncResult α} (howned : (t, temp) ∈ s.temps)
    (hw : work.run.Yields (exec cfg t) Anything (fun _ s' => s'.temps = s.temps) s) :
    (withTemp temp work).run.Yields (exec cfg t) Anything (fun x s' => match x with
      | .ok _ => (t, temp) ∈ s'.temps
      | .error _ => s'.bytesAt (.localFile temp) = none) s := by
  refine yields_attempt_bind (Q := fun _ s' => s'.temps = s.temps) hw fun x s₁ h => ?_
  have howned₁ : (t, temp) ∈ s₁.temps := h ▸ howned
  cases x with
  | ok a => exact howned₁
  | error e => exact Task.Yields.lift_bind (dropTemp_yields temp) fun _ _ h => h.2 (.inl howned₁)

/-- A reconstruction leaves the temporary files with their owners. -/
theorem reconstructInto_temps (chunks : List ChunkInfo) (uploadLength : Nat) (expectedSha256 : Str) (temp : Path) :
    (reconstructInto cfg.libs chunks uploadLength expectedSha256 temp).run.Yields (exec cfg t) Anything
      (fun _ s' => s'.temps = s.temps) s := by
  have huses : (reconstructInto cfg.libs chunks uploadLength expectedSha256 temp).run.Uses fun r => r.inspects ∨ Upload.Streams temp r :=
    reconstructInto_uses (fun _ => .inl) (fun _ => .inr) chunks uploadLength expectedSha256
  refine (huses.yields (I := fun s' => s'.temps = s.temps) (fun r e s' hr h => ?_) rfl).mono fun _ _ h => h.2
  rcases hr with hr | hr
  · rw [exec_of_inspects hr]
    exact h
  · cases r with
    | fs r => exact h
    | closeFile p => exact h
    | nextFrame => exact h
    | _ => exact hr.elim

end Handlers

end

end Almond
