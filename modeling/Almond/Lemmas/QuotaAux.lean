import Almond.Lemmas.DoorsAux

/-! # What a publication adds to the index

A publication leaves the index, or inserts one entry of the size it was given; it does the latter only when no upload holds the hash. -/

namespace Almond

open Conc FileStorage

namespace BlobIndex

/-- Whether a hash is held by an upload. -/
def held (i : BlobIndex) (sha256 : Str) : Bool :=
  (i.get sha256).any fun m => m.origin = .upload

/-- The sum of the sizes once a blob of some size is under a hash. -/
def totalAfter (i : BlobIndex) (sha256 : Str) (size : Nat) : Nat :=
  wrappingAdd i.totalBytes size - ((i.get sha256).map FileMetadata.size).getD 0

/-- The sum of the sizes after an insertion. -/
theorem totalBytes_insert (i : BlobIndex) (sha256 : Str) (m : FileMetadata) :
    (i.insert sha256 m).totalBytes = i.totalAfter sha256 m.size := by
  unfold insert insertEntry totalAfter
  cases i.get sha256 with
  | none => rfl
  | some previous => rfl

/-- An index after a publication of a blob of some size. -/
def Admitted (i i' : BlobIndex) (sha256 : Str) (size : Nat) : Prop :=
  i' = i ∨ i.held sha256 = false ∧ ∃ m : FileMetadata, m.size = size ∧ i' = i.insert sha256 m

/-- What a publication leaves, it leaves with the sum it had, or with the sum after its blob. -/
theorem Admitted.totalBytes {i i' : BlobIndex} {sha256 : Str} {size : Nat} (h : Admitted i i' sha256 size) :
    i' = i ∨ i.held sha256 = false ∧ i'.totalBytes = i.totalAfter sha256 size := by
  obtain rfl | ⟨hno, m, rfl, rfl⟩ := h
  · exact .inl rfl
  · exact .inr ⟨hno, i.totalBytes_insert sha256 m⟩

end BlobIndex

section

variable {cfg : Config} {t : Tid} {s : AppState} {α β : Type} {i : BlobIndex} {sha256 : Str} {size : Nat}

/-- The index is as it was, or has one more entry of some size. -/
def Indexed (i : BlobIndex) (sha256 : Str) (size : Nat) (s : AppState) : Prop :=
  s.index = i ∨ ∃ m : FileMetadata, m.size = size ∧ s.index = i.insert sha256 m

/-- A part that changes no entry, before what stores. -/
theorem indexed_bind {p : AsyncResult α} {f : α → AsyncResult β} (hp : p.run.Uses Req.Never) (hi : s.index = i)
    (hf : ∀ a s', s'.index = i → (f a).run.Yields (exec cfg t) Anything (fun _ => Indexed i sha256 size) s') :
    (p >>= f).run.Yields (exec cfg t) Anything (fun _ => Indexed i sha256 size) s :=
  Task.Yields.run_bind (yields_of_never hp) (fun _ _ h => .inl (h.trans hi)) fun a s' h => hf a s' (h.trans hi)

/-- A lifted part that changes no entry, before what stores. -/
theorem indexed_lift_bind {p : Async α} {f : α → AsyncResult β} (hp : p.Uses Req.Never) (hi : s.index = i)
    (hf : ∀ a s', s'.index = i → (f a).run.Yields (exec cfg t) Anything (fun _ => Indexed i sha256 size) s') :
    ((liftM p : AsyncResult α) >>= f).run.Yields (exec cfg t) Anything (fun _ => Indexed i sha256 size) s :=
  Task.Yields.lift_bind (yields_of_never hp) fun a s' h => hf a s' (h.trans hi)

/-- Making metadata visible stores an entry of its size. -/
theorem publishMetadata_indexed {m : FileMetadata} (hi : s.index = i) :
    (publishMetadata cfg sha256 m).run.Yields (exec cfg t) Anything (fun _ => Indexed i sha256 m.size) s := by
  intro e _
  obtain ⟨existing, _, _, hp⟩ | ⟨_, hp⟩ := BlobIndex.publish_cases s.index sha256 m
  · simp only [exec, IndexReq.exec, hp]
    exact .inl hi
  · simp only [exec, IndexReq.exec, hp]
    intro e' _
    simp only [exec, IndexReq.exec, BlobIndex.get_insert_self]
    have hstored : ∀ s' : AppState, s'.index = s.index.insert sha256 m → Indexed i sha256 m.size s' := fun s' h =>
      .inr ⟨m, rfl, hi ▸ h⟩
    cases s.index.get sha256 with
    | none => exact hstored _ rfl
    | some displaced =>
      refine yields_attempt_bind (yields_of_disposes (removePhysicalFile_uses cfg displaced)) fun removed s₁ h => ?_
      cases removed with
      | ok _ => exact hstored _ h.index
      | error _ => exact fun _ _ => hstored _ h.index

/-- The end of a publication stores an entry of its size. -/
theorem finish_indexed {publication : BlobPublication} (location : FileLocation) (hi : s.index = i) :
    (do
      let metadata ← publication.metadata location
      publishMetadata cfg publication.sha256 metadata : AsyncResult StoredBlob).run.Yields (exec cfg t) Anything
        (fun _ => Indexed i publication.sha256 publication.size) s :=
  fun _ _ => publishMetadata_indexed (m := ⟨location, publication.extension, publication.mimeType, publication.size,
    asSecs s.clock.system, none, publication.expiration, publication.origin⟩) hi

/-- A publication to the bucket stores an entry of its size. -/
theorem publishToS3_indexed {temp : Path} {publication : BlobPublication} (hi : s.index = i) :
    (publishToS3 cfg temp publication).run.Yields (exec cfg t) Anything (fun _ => Indexed i publication.sha256 publication.size) s := by
  refine indexed_bind (NativeStorage.ensureAvailable_uses.mono (fun _ h => h.never) fun _ _ => trivial) hi fun _ s₁ h₁ => ?_
  refine indexed_bind ((put_uses ..).mono (fun _ h => h.never) fun _ _ => trivial) h₁ fun key s₂ h₂ => ?_
  refine indexed_lift_bind (uses_request (r := .intoPublished temp) fun _ h => h.elim) h₂ fun _ s₃ h₃ => ?_
  exact finish_indexed (.s3 key) h₃

/-- A publication to a path stores an entry of its size. -/
theorem publishToDisk_indexed {temp : Path} {publication : BlobPublication} (hi : s.index = i) :
    (publishToDisk cfg temp publication).run.Yields (exec cfg t) Anything
      (fun _ => Indexed i publication.sha256 publication.size) s := by
  have hnever : ∀ r : FsReq, Req.Never (.fs r) := fun _ _ h => h.elim
  refine indexed_bind (p := ofResult _) trivial hi fun finalPath s₁ h₁ => ?_
  refine indexed_bind (uses_orErr (uses_request (hnever _))) h₁ fun _ s₂ h₂ => ?_
  refine indexed_bind (uses_orErr (uses_request (hnever _))) h₂ fun present s₃ h₃ => ?_
  have hrest : ∀ s₄ : AppState, s₄.index = i → Task.Yields (exec cfg t) Anything (do
      orIoErr (fun error => s!"Failed to publish {display temp} to {display finalPath}: {error.message}")
        (fs (.rename temp finalPath))
      request (.intoPublished temp)
      let metadata ← publication.metadata (.localFile finalPath)
      publishMetadata cfg publication.sha256 metadata : AsyncResult StoredBlob).run
        (fun _ => Indexed i publication.sha256 publication.size) s₄ := by
    intro s₄ h₄
    refine indexed_bind (uses_orErr (uses_request (hnever _))) h₄ fun _ s₅ h₅ => ?_
    refine indexed_lift_bind (uses_request (r := .intoPublished temp) fun _ h => h.elim) h₅ fun _ s₆ h₆ => ?_
    exact finish_indexed (.localFile finalPath) h₆
  cases present with
  | false => exact hrest s₃ h₃
  | true => exact indexed_bind ((removeLocalFile_uses finalPath).mono (fun _ h => h.never) fun _ _ => trivial) h₃ fun _ => hrest

/-- An incumbent that gives way is no upload. -/
theorem held_of_not_keepsIncumbent (publication : BlobPublication) (i : BlobIndex)
    (h : ∀ existing, i.get sha256 = some existing → keepsIncumbent publication existing = false) : i.held sha256 = false := by
  unfold BlobIndex.held
  cases hg : i.get sha256 with
  | none => rfl
  | some existing =>
    have hk := h existing hg
    unfold keepsIncumbent at hk
    exact (Bool.or_eq_false_iff.1 hk).2

/-- The guarded part of a publication admits its blob. -/
theorem publishLocked_admits (temp : Path) (publication : BlobPublication) :
    (publishLocked cfg temp publication).run.Yields (exec cfg t) Anything
      (fun _ s' => s.index.Admitted s'.index publication.sha256 publication.size) s := by
  refine Task.Yields.run_bind (yields_of_inspects (ensureNotQuarantined_uses cfg.storage publication.sha256)) ?_ ?_
  · rintro e s' ⟨-, rfl⟩
    exact .inl rfl
  rintro _ s' ⟨-, hs'⟩
  rw [hs']
  have hstore : s.index.held publication.sha256 = false →
      (if publication.origin = .upload ∧ cfg.nativeS3 = true then publishToS3 cfg temp publication
        else publishToDisk cfg temp publication : AsyncResult StoredBlob).run.Yields (exec cfg t) Anything
        (fun _ s' => s.index.Admitted s'.index publication.sha256 publication.size) s := by
    intro hfree
    have hadmits : ∀ (_ : AppResult StoredBlob) s', Indexed s.index publication.sha256 publication.size s' →
        s.index.Admitted s'.index publication.sha256 publication.size := fun _ s' h => h.imp_right (And.intro hfree)
    by_cases hs3 : publication.origin = .upload ∧ cfg.nativeS3 = true
    · rw [if_pos hs3]
      exact (publishToS3_indexed rfl).mono hadmits
    · rw [if_neg hs3]
      exact (publishToDisk_indexed rfl).mono hadmits
  intro e _
  simp only [exec, IndexReq.exec]
  cases hg : s.index.get publication.sha256 with
  | none => exact hstore (held_of_not_keepsIncumbent publication s.index fun _ h => by cases hg.symm.trans h)
  | some existing =>
    show Task.Yields _ _ (if keepsIncumbent publication existing = true then _ else _ : AsyncResult StoredBlob).run _ _
    cases hk : keepsIncumbent publication existing with
    | true => exact .inl rfl
    | false =>
      refine hstore (held_of_not_keepsIncumbent publication s.index fun e h => ?_)
      cases hg.symm.trans h
      exact hk

/-- A publication admits its blob. -/
theorem publishBlob_admits (temp : Path) (publication : BlobPublication) :
    (publishBlob cfg temp publication).run.Yields (exec cfg t) Anything
      (fun _ s' => s.index.Admitted s'.index publication.sha256 publication.size) s := by
  refine yields_attempt_bind (Q := fun _ s' => s.index.Admitted s'.index publication.sha256 publication.size) ?_ ?_
  · refine yields_ofResult_bind (fun _ _ => .inl rfl) fun _ _ => ?_
    exact (publishLocked_admits temp publication).bind fun x s' h => h
  · intro x s₁ h₁ e _
    have hindex : (exec cfg t (.dropTemp temp) e s₁).2.index = s₁.index := index_exec_of_never (r := .dropTemp temp) (fun _ h => h.elim) e s₁
    show s.index.Admitted (exec cfg t (.dropTemp temp) e s₁).2.index _ _
    rw [hindex]
    exact h₁

/-! ## Requests that are served alone -/

/-- A publication keeps the state orderly. -/
theorem publishBlob_orderly (temp : Path) (publication : BlobPublication) (h : Orderly cfg s) :
    (publishBlob cfg temp publication).run.Yields (exec cfg t) Anything (fun _ s' => Orderly cfg s') s := by
  refine (publishBlob_issues cfg temp publication).yields (I := Orderly cfg) (fun r e s hr hs => ?_) h
  exact ⟨sane_exec cfg t r e hs.sane, (wellFormed_exec hs.sessions (keepsWellFormed_of_not_registers hr.2)).1⟩

/-- The state after a request that was served from a state, and published at most one blob, of which something is known. -/
structure Served (cfg : Config) (s : AppState) (K : Str → Nat → Prop) (s' : AppState) : Prop where
  orderly : Orderly cfg s'
  admitted : s'.index = s.index ∨ ∃ sha256 size, K sha256 size ∧ s.index.Admitted s'.index sha256 size

/-- What calls a publication of which something is known ends with at most its blob admitted. -/
theorem served_of_calls {K : Str → Nat → Prop} {body : Body} {p : Async α}
    {S : List (Task.Event Req Resp) → Async (AppResult StoredBlob) → AppState → Prop} (h : Orderly cfg s)
    (hp : p.Calls (exec cfg t) (CommitsReceived cfg body) S [] s)
    (hS : ∀ past p s', S past p s' → ∃ temp publication, p = (publishBlob cfg temp publication).run ∧
      K publication.sha256 publication.size) :
    p.Yields (exec cfg t) Anything (fun _ s' => Served cfg s K s') s := by
  have hkeep := hp.keep (I := fun _ s' => Orderly cfg s' ∧ s'.index = s.index)
    (fun past r s' hr hs e => ⟨hs.1.exec hr e, (index_exec_of_never hr.1.never e s').trans hs.2⟩) ⟨h, rfl⟩
  refine hkeep.yields (I := Served cfg s K) (fun past r s' hr hs e => ?_) (fun past p s' hs => ?_) ⟨h, .inl rfl⟩
  · exact ⟨hs.orderly.exec hr e, index_exec_of_never (t := t) hr.1.never e s' ▸ hs.admitted⟩
  · obtain ⟨hs, horderly, hindex⟩ := hs
    obtain ⟨temp, publication, rfl, hk⟩ := hS past p s' hs
    refine ((publishBlob_orderly temp publication horderly).and (publishBlob_admits temp publication)).mono fun _ s'' hy => ?_
    exact ⟨hy.1, .inr ⟨_, _, hk, hindex ▸ hy.2⟩⟩

end

end Almond
