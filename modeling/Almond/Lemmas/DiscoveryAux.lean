import Almond.Lemmas.GuardedAux
import Almond.Lemmas.HandlersAux

/-! # Discovery and upload of one hash

The discipline of a server that only serves `GET` requests and receives uploads: the entry of a hash changes only under its mutation
guard, and whoever removes a displaced copy under the guard has just indexed another location. -/

namespace Almond

open Conc FileStorage

/-- Whether an operation can publish a hash. -/
def Op.publishes (cfg : Config) (sha256 : Str) (op : Op) : Bool :=
  (op.isGet || op.isUpload) && op.target cfg = some sha256

namespace Discovery

/-- A location that a publication gives to metadata: a key of the bucket for an upload, or a completed path below the root of the
origin. -/
def Placed (layout : StorageLayout) (m : FileMetadata) : Prop :=
  (m.origin = .upload ∧ ∃ key, m.location = .s3 key) ∨
    ∃ a b n, m.location = .localFile (originRoot layout m.origin ++ [a, b, n])

/-- The discipline. -/
def discipline (cfg : Config) (sha256 : Str) : Discipline Req Str AppState Op where
  inv w := (∀ m, w.store.index.get sha256 = some m → Placed cfg.storage m) ∧
    w.store.sessions.Each fun _ upload => upload.WellFormed cfg.storage
  rely t w w' := w.owner sha256 = some t → w'.store.index.get sha256 = w.store.index.get sha256
  assume w _ op r := ∀ m e, op.isGet = true → r = .index (.publish sha256 m) → w.store.index.get sha256 = some e →
    e.location ≠ m.location
  allow w t op r :=
    (r.mutates sha256 → w.owner sha256 = some t ∧ ∃ m, r = .index (.publish sha256 m) ∧ Placed cfg.storage m) ∧
      (op.publishes cfg sha256 = true → ∀ loc m, r.removes = some loc → w.store.index.get sha256 = some m → m.location ≠ loc) ∧
      r.KeepsWellFormed cfg.storage
  ops op := (op.isGet || op.isUpload) = true
  drops _ _ _ := True
  crashes := False

section

variable {cfg : Config} {sha256 : Str} {t : Tid} {op : Op} {w w' : World Str AppState}

/-- The task holds the guard, and the entry of the hash is known. -/
def Holds (sha256 : Str) (t : Tid) (entry : Option FileMetadata) (w : World Str AppState) : Prop :=
  w.owner sha256 = some t ∧ w.store.index.get sha256 = entry

/-- What a task knows under the guard, nobody changes. -/
theorem Holds.stable {entry : Option FileMetadata} (hr : (discipline cfg sha256).Expects t w w')
    (h : Holds sha256 t entry w) : Holds sha256 t entry w' :=
  ⟨hr.1 _ h.1, (hr.2 h.1).trans h.2⟩

/-- A request that does not change the entry keeps what the task knows. -/
theorem Holds.exec {entry : Option FileMetadata} {r : Req} {e : Env} (hm : ¬ r.mutates sha256) (h : Holds sha256 t entry w) :
    Holds sha256 t entry (w.setStore ((machine cfg).exec t r e w.store).2) :=
  ⟨h.1, (get_exec hm).trans h.2⟩

/-- A request that changes no entry, removes nothing and keeps the sessions well formed. -/
def Harmless (cfg : Config) (r : Req) : Prop :=
  r.Never ∧ r.removes = none ∧ r.KeepsWellFormed cfg.storage

/-- A harmless request is always allowed. -/
theorem Harmless.allow {r : Req} (h : Harmless cfg r) : (discipline cfg sha256).allow w t op r :=
  ⟨fun hm => absurd hm (h.1 sha256), fun _ _ _ hr => absurd (h.2.1.symm.trans hr) nofun, h.2.2⟩

/-- A request that reads is harmless. -/
theorem harmless_of_inspects {r : Req} (h : r.inspects) : Harmless cfg r :=
  ⟨h.never, h.removes, (Handlers.prepares_of_inspects h).receives.keepsWellFormed⟩

/-- A part that changes no entry and removes nothing keeps what the task knows. -/
theorem Holds.wp_within {α : Type} {P : Req → Prop} {R : α → Prop} {entry : Option FileMetadata} {p : Async α}
    (hp : p.Within P R) (hP : ∀ r, P r → Harmless cfg r) (h : Holds sha256 t entry w) :
    wp (machine cfg) (discipline cfg sha256) t op p (fun a w => R a ∧ Holds sha256 t entry w) w :=
  hp.wp (fun _ _ hr _ => Holds.stable hr) (fun _ r hPr _ _ => (hP r hPr).allow)
    (fun _ r _ hPr _ => Holds.exec ((hP r hPr).1 sha256)) h

/-- A disposal of another location than the indexed one keeps what the task knows. -/
theorem Holds.wp_dispose {α : Type} {entry : Option FileMetadata} {loc : FileLocation} {p : Async α}
    (hp : p.Uses (Req.Disposes loc)) (hne : ∀ m, entry = some m → m.location ≠ loc) (h : Holds sha256 t entry w) :
    wp (machine cfg) (discipline cfg sha256) t op p (fun _ w => Holds sha256 t entry w) w := by
  refine wp_mono (fun _ _ h => h.2) (hp.wp (fun _ _ hr _ => Holds.stable hr) ?_ ?_ h)
  · intro w₁ r hd _ hk
    refine ⟨fun hm => absurd hm (hd.never sha256), fun _ loc' m hr hm => ?_, keepsWellFormed_of_not_registers (hd.only sha256).2⟩
    cases hd.removes.symm.trans hr
    exact hne m (hk.2.symm.trans hm)
  · exact fun _ r _ hd _ => Holds.exec (hd.never sha256)

/-- A task that works on other hashes does not touch the entry. -/
theorem wp_of_other {α : Type} {P : Req → Prop} {p : Async α} (hp : p.Uses P)
    (hP : ∀ r, P r → ¬ r.mutates sha256 ∧ r.KeepsWellFormed cfg.storage) (hop : op.publishes cfg sha256 = false) :
    wp (machine cfg) (discipline cfg sha256) t op p (fun _ _ => True) w :=
  wp_mono (fun _ _ _ => trivial) (hp.wp (F := fun _ => True) (fun _ _ _ _ => id)
    (fun _ r hPr _ _ => ⟨fun hm => absurd hm (hP r hPr).1, fun h => absurd (h.symm.trans hop) nofun, (hP r hPr).2⟩) (fun _ _ _ _ _ _ => trivial) trivial)

/-- Making metadata visible under the guard: the displaced copy is elsewhere. -/
theorem wp_publishMetadata {entry : Option FileMetadata} {m : FileMetadata}
    (hplaced : Placed cfg.storage m)
    (hfresh : op.isGet = true ∨ ∀ e, entry = some e → e.location ≠ m.location) (h : Holds sha256 t entry w) :
    wp (machine cfg) (discipline cfg sha256) t op (publishMetadata cfg sha256 m).run (fun _ _ => True) w := by
  refine (wp_lift_bind ..).2 (wp_request fun w₁ hr₁ _ ha => ⟨⟨fun _ => ⟨hr₁.1 _ h.1, m, rfl, hplaced⟩, nofun, trivial⟩, fun e _ => ?_⟩)
  have h₁ := h.stable hr₁
  have hne : ∀ d, entry = some d → m.location ≠ d.location := by
    intro d hd
    rcases hfresh with hop | hf
    · exact (ha m d hop rfl (h₁.2.trans hd)).symm
    · exact (hf d hd).symm
  obtain ⟨existing, _, _, hp⟩ | ⟨_, hp⟩ := BlobIndex.publish_cases w₁.store.index sha256 m
  · simp only [machine_exec, exec, IndexReq.exec, hp]
    exact trivial
  · have h₂ : Holds sha256 t (some m) (w₁.setStore ((machine cfg).exec t (.index (.publish sha256 m)) e w₁.store).2) := by
      refine ⟨h₁.1, ?_⟩
      simp only [machine_exec, Almond.exec, IndexReq.exec, hp, World.setStore_store]
      exact BlobIndex.get_insert_self ..
    simp only [machine_exec, exec, IndexReq.exec, hp] at h₂ ⊢
    refine (wp_lift_bind ..).2 (wp_mono ?_ (h₂.wp_within (within_request (P := Req.inspects) (R := fun _ => True) trivial fun _ => trivial)
      fun _ => harmless_of_inspects))
    rintro published w₃ ⟨_, h₃⟩
    cases published with
    | none => exact trivial
    | some published =>
      cases hd : w₁.store.index.get sha256 with
      | none => exact trivial
      | some displaced =>
        have hloc : ∀ x, some m = some x → x.location ≠ displaced.location := by
          intro x hx
          cases hx
          exact hne displaced (h₁.2.symm.trans hd)
        refine (wp_attempt_bind ..).2 (wp_mono ?_ (h₃.wp_dispose (removePhysicalFile_uses cfg displaced) hloc))
        intro removed w₄ _
        cases removed with
        | ok _ => exact trivial
        | error _ => exact (wp_lift_bind ..).2 (wp_request fun _ _ _ _ => ⟨Harmless.allow ⟨fun _ => id, rfl, trivial⟩, fun _ _ => trivial⟩)

/-! ## Publications of the hash -/

variable {root : Path}

/-- A scratch file is no placed location. -/
theorem Placed.ne_scratch {layout : StorageLayout} (hlayout : layout = StorageLayout.new root) {m : FileMetadata} {p : Path}
    (h : Placed layout m) (hp : Scratch layout p) : m.location ≠ .localFile p := by
  subst hlayout
  obtain ⟨name, rest, rfl⟩ := hp
  rcases h with ⟨_, key, hk⟩ | ⟨a, b, n, hl⟩
  · rw [hk]
    exact nofun
  · rw [hl]
    intro he
    cases ho : m.origin <;> simp [ho, originRoot, StorageLayout.new] at he

/-- A cache copy lies neither in the bucket nor among the uploads. -/
theorem Placed.ne_upload {layout : StorageLayout} (hlayout : layout = StorageLayout.new root) {m : FileMetadata}
    {loc : FileLocation} (h : Placed layout m) (ho : m.origin = .upstreamCache)
    (hloc : (∃ key, loc = .s3 key) ∨ ∃ a b n, loc = .localFile (layout.uploads ++ [a, b, n])) : m.location ≠ loc := by
  subst hlayout
  rcases h with ⟨hu, _⟩ | ⟨a, b, n, hl⟩
  · exact absurd (ho.symm.trans hu) nofun
  rw [hl, ho]
  rcases hloc with ⟨key, rfl⟩ | ⟨a', b', n', rfl⟩
  · exact nofun
  · intro he
    simp [originRoot, StorageLayout.new] at he

/-- The completed path of a publication. -/
theorem completedPath_eq_ok {layout : StorageLayout} {origin : BlobOrigin} {h : Str} {x : Option Str} {e : Option Nat} {p : Path}
    (hp : completedPath layout origin h x e = .ok p) : ∃ a b n, p = originRoot layout origin ++ [a, b, n] := by
  unfold completedPath at hp
  cases hf : BlobName.fanOut h with
  | error _ => rw [hf] at hp; nomatch hp
  | ok ab =>
    cases hn : BlobName.name h e x with
    | error _ => rw [hf, hn] at hp; nomatch hp
    | ok n =>
      rw [hf, hn] at hp
      exact ⟨ab.1, ab.2, n, (Except.ok.inj hp).symm⟩

/-- What a publication may displace: nothing, or a cache copy by an upload. -/
def MayDisplace (layout : StorageLayout) (publication : BlobPublication) (entry : Option FileMetadata) : Prop :=
  ∀ e, entry = some e → publication.origin = .upload ∧ e.origin = .upstreamCache ∧ Placed layout e

/-- Moving the bytes to S3 under the guard. -/
theorem wp_publishToS3 (hlayout : cfg.storage = StorageLayout.new root) {publication : BlobPublication} {temp : Path}
    {entry : Option FileMetadata} (ht : Scratch cfg.storage temp) (hsha : publication.sha256 = sha256) (ho : publication.origin = .upload)
    (hdis : MayDisplace cfg.storage publication entry) (h : Holds sha256 t entry w) :
    wp (machine cfg) (discipline cfg sha256) t op
      (publishToS3 cfg temp publication).run (fun _ _ => True) w := by
  refine (wp_run_bind ..).2 (wp_mono ?_ (h.wp_within NativeStorage.ensureAvailable_uses fun _ => harmless_of_inspects))
  rintro (_ | _) w₁ ⟨_, h₁⟩
  · exact trivial
  have hput : wp (machine cfg) (discipline cfg sha256) t op
      (NativeStorage.put temp publication.sha256 publication.extension publication.expiration).run
      (fun _ w => True ∧ Holds sha256 t entry w) w₁ := by
    refine (put_uses ..).wp (fun _ _ hr _ => Holds.stable hr) (fun w₂ r hs _ hk => ?_)
      (fun _ _ _ hs _ => Holds.exec (hs.never sha256)) h₁
    have hplaces : r.Places cfg.storage sha256 := hs.places
    refine ⟨fun hm => absurd hm (hs.never sha256), fun _ loc m hr hm => ?_, keepsWellFormed_of_not_registers hplaces.only.2⟩
    rw [hs.removes hr]
    exact (hdis m (hk.2.symm.trans hm)).2.2.ne_scratch hlayout ht
  refine (wp_run_bind ..).2 (wp_mono ?_ hput)
  rintro (_ | key) w₂ ⟨_, h₂⟩
  · exact trivial
  refine (wp_lift_bind ..).2 (wp_mono ?_ (h₂.wp_within (P := fun r => r = .intoPublished temp)
    (uses_request rfl) (by rintro _ rfl; exact ⟨fun _ => id, rfl, trivial⟩)))
  rintro _ w₃ ⟨_, h₃⟩
  refine (wp_lift_bind ..).2 (wp_mono ?_ (h₃.wp_within (R := fun m => m.origin = .upload ∧ m.location = .s3 key)
    (P := Req.inspects) ⟨trivial, fun _ _ => ⟨ho, rfl⟩⟩ fun _ => harmless_of_inspects))
  rintro m w₄ ⟨⟨hmo, hml⟩, h₄⟩
  rw [hsha]
  refine wp_publishMetadata (.inl ⟨hmo, key, hml⟩) (.inr fun e he => ?_) h₄
  exact (hdis e he).2.2.ne_upload hlayout (hdis e he).2.1 (.inl ⟨key, hml⟩)

/-- Moving the bytes to their completed path under the guard. -/
theorem wp_publishToDisk (hlayout : cfg.storage = StorageLayout.new root) {publication : BlobPublication} {temp : Path}
    {entry : Option FileMetadata} (hsha : publication.sha256 = sha256) (hdis : MayDisplace cfg.storage publication entry)
    (h : Holds sha256 t entry w) :
    wp (machine cfg) (discipline cfg sha256) t op (publishToDisk cfg temp publication).run
      (fun _ _ => True) w := by
  refine (wp_ofResult_bind ..).2 ?_
  cases hp : completedPath cfg.storage publication.origin publication.sha256 publication.extension publication.expiration with
  | error _ => exact trivial
  | ok finalPath =>
    obtain ⟨a, b, n, hfinal⟩ := completedPath_eq_ok hp
    have hother : ∀ e, entry = some e → e.location ≠ .localFile finalPath := by
      intro e he
      refine (hdis e he).2.2.ne_upload hlayout (hdis e he).2.1 (.inr ⟨a, b, n, ?_⟩)
      rw [hfinal, (hdis e he).1]
      rfl
    refine (wp_run_bind ..).2 (wp_mono ?_ (h.wp_within (P := fun r => r = .fs (.createDirAll finalPath.dropLast))
      (uses_orErr (uses_request rfl)) (by rintro _ rfl; exact ⟨fun _ => id, rfl, trivial⟩)))
    rintro (_ | _) w₁ ⟨_, h₁⟩
    · exact trivial
    refine (wp_run_bind ..).2 (wp_mono ?_ (h₁.wp_within (P := Req.inspects)
      (uses_orErr (uses_request trivial)) fun _ => harmless_of_inspects))
    rintro (_ | present) w₂ ⟨_, h₂⟩
    · exact trivial
    have hrest : ∀ w₃, Holds sha256 t entry w₃ → wp (machine cfg) (discipline cfg sha256) t op (do
        orIoErr (fun error => s!"Failed to publish {display temp} to {display finalPath}: {error.message}")
          (fs (.rename temp finalPath))
        request (.intoPublished temp)
        let metadata ← publication.metadata (.localFile finalPath)
        publishMetadata cfg publication.sha256 metadata : AsyncResult StoredBlob).run (fun _ _ => True) w₃ := by
      intro w₃ h₃
      refine (wp_run_bind ..).2 (wp_mono ?_ (h₃.wp_within (P := fun r => r = .fs (.rename temp finalPath))
        (uses_orErr (uses_request rfl)) (by rintro _ rfl; exact ⟨fun _ => id, rfl, trivial⟩)))
      rintro (_ | _) w₄ ⟨_, h₄⟩
      · exact trivial
      refine (wp_lift_bind ..).2 (wp_mono ?_ (h₄.wp_within (P := fun r => r = .intoPublished temp)
        (uses_request rfl) (by rintro _ rfl; exact ⟨fun _ => id, rfl, trivial⟩)))
      rintro _ w₅ ⟨_, h₅⟩
      refine (wp_lift_bind ..).2 (wp_mono ?_ (h₅.wp_within
        (R := fun m => m.origin = publication.origin ∧ m.location = .localFile finalPath)
        (P := Req.inspects) ⟨trivial, fun _ _ => ⟨rfl, rfl⟩⟩ fun _ => harmless_of_inspects))
      rintro m w₆ ⟨⟨hmo, hml⟩, h₆⟩
      rw [hsha]
      refine wp_publishMetadata (.inr ⟨a, b, n, ?_⟩) (.inr fun e he => hml ▸ hother e he) h₆
      rw [hml, hmo, hfinal]
    cases present with
    | false => exact hrest w₂ h₂
    | true =>
      refine (wp_run_bind ..).2 (wp_mono ?_ (h₂.wp_dispose (removeLocalFile_uses finalPath) hother))
      rintro (_ | _) w₃ h₃
      · exact trivial
      · exact hrest w₃ h₃

/-- The guarded part of a publication of the hash. -/
theorem wp_publishLocked (hlayout : cfg.storage = StorageLayout.new root) {publication : BlobPublication} {temp : Path}
    (ht : Scratch cfg.storage temp) (hsha : publication.sha256 = sha256) (ho : w.owner sha256 = some t) (hi : (discipline cfg sha256).inv w) :
    wp (machine cfg) (discipline cfg sha256) t op
      (publishLocked cfg temp publication).run (fun _ _ => True) w := by
  have h : Holds sha256 t (w.store.index.get sha256) w := ⟨ho, rfl⟩
  have hplaced : ∀ e, w.store.index.get sha256 = some e → Placed cfg.storage e := hi.1
  generalize w.store.index.get sha256 = entry at h hplaced
  refine (wp_run_bind ..).2 (wp_mono ?_ (h.wp_within (ensureNotQuarantined_uses cfg.storage publication.sha256)
    fun _ => harmless_of_inspects))
  rintro (_ | _) w₁ ⟨_, h₁⟩
  · exact trivial
  have hstore : ∀ w₂, MayDisplace cfg.storage publication entry → Holds sha256 t entry w₂ →
      wp (machine cfg) (discipline cfg sha256) t op
        (if publication.origin = .upload ∧ cfg.nativeS3 = true then publishToS3 cfg temp publication
          else publishToDisk cfg temp publication : AsyncResult StoredBlob).run (fun _ _ => True) w₂ := by
    intro w₂ hdis h₂
    split
    · rename_i hc
      exact wp_publishToS3 hlayout ht hsha hc.1 hdis h₂
    · exact wp_publishToDisk hlayout hsha hdis h₂
  refine (wp_lift_bind ..).2 (wp_request fun w₂ hr₂ _ _ => ⟨Harmless.allow ⟨fun _ => id, rfl, trivial⟩, fun e _ => ?_⟩)
  have h₂ := h₁.stable hr₂
  have hget : w₂.store.index.get publication.sha256 = entry := hsha ▸ h₂.2
  simp only [machine_exec, exec, IndexReq.exec, hget]
  cases entry with
  | none => exact hstore _ (fun _ h => by cases h) h₂
  | some existing =>
    cases hk : keepsIncumbent publication existing with
    | true => simp only [hk, if_true]; exact trivial
    | false =>
      simp only [hk]
      refine hstore _ (fun e he => ?_) h₂
      cases he
      simp only [keepsIncumbent, Bool.or_eq_false_iff, decide_eq_false_iff_not] at hk
      refine ⟨?_, ?_, hplaced existing rfl⟩
      · cases hpo : publication.origin with
        | upload => rfl
        | upstreamCache => exact absurd hpo hk.1
      · cases heo : existing.origin with
        | upload => exact absurd heo hk.2
        | upstreamCache => rfl

/-! ## The operations -/

/-- The removal of a scratch file is always allowed. -/
theorem allow_scratch (hlayout : cfg.storage = StorageLayout.new root) {r : Req} {p : Path} (hi : (discipline cfg sha256).inv w)
    (hn : r.Never) (hr : ∀ loc, r.removes = some loc → loc = .localFile p) (hp : Scratch cfg.storage p)
    (hk : r.KeepsWellFormed cfg.storage) : (discipline cfg sha256).allow w t op r :=
  ⟨fun hm => absurd hm (hn sha256), fun _ loc m hl hm => hr loc hl ▸ (hi.1 m hm).ne_scratch hlayout hp, hk⟩

/-- What the handlers do besides publishing is always allowed. -/
theorem allow_of_receives (hlayout : cfg.storage = StorageLayout.new root) {r : Req} (hi : (discipline cfg sha256).inv w)
    (h : r.Receives cfg.storage) : (discipline cfg sha256).allow w t op r := by
  have hk := h.keepsWellFormed
  cases r with
  | fs r =>
    cases r with
    | removeFile p => exact allow_scratch hlayout hi (fun _ => id) (fun _ hl => (Option.some.inj hl).symm) h hk
    | _ => exact Harmless.allow ⟨fun _ => id, rfl, hk⟩
  | dropTemp p => exact allow_scratch hlayout hi (fun _ => id) (fun _ hl => (Option.some.inj hl).symm) h hk
  | index r => exact (harmless_of_inspects (r := .index r) h).allow
  | s3 r => exact (harmless_of_inspects (r := .s3 r) h).allow
  | _ => exact Harmless.allow ⟨fun _ => id, rfl, hk⟩

/-- A publication, of this hash or another one. -/
theorem wp_publishBlob (hlayout : cfg.storage = StorageLayout.new root) {publication : BlobPublication} {temp : Path}
    (ht : Scratch cfg.storage temp) (hop : publication.sha256 ≠ sha256 → op.publishes cfg sha256 = false) :
    wp (machine cfg) (discipline cfg sha256) t op (publishBlob cfg temp publication).run (fun _ _ => True) w := by
  refine (wp_attempt_bind ..).2 ((wp_ofResult_bind ..).2 ?_)
  have hdrop : ∀ (x : AppResult StoredBlob) w₁, wp (machine cfg) (discipline cfg sha256) t op (do
      request (.dropTemp temp)
      ofResult x : AsyncResult StoredBlob).run (fun _ _ => True) w₁ := fun x w₁ =>
    (wp_lift_bind ..).2 (wp_request fun w₂ _ hi _ => ⟨allow_of_receives hlayout hi ht, fun _ _ => trivial⟩)
  cases validateSha256Format publication.sha256 with
  | error _ => exact hdrop _ _
  | ok _ =>
    refine wp_mono (fun x w₁ _ => hdrop x w₁) (wp_withLock_true (publishLocked_uses cfg _ publication) fun w₁ hi => ?_)
    by_cases hsha : publication.sha256 = sha256
    · exact wp_publishLocked hlayout ht hsha (hsha ▸ w₁.take_owner_self publication.sha256 t) hi
    · exact wp_of_other (publishLocked_uses cfg _ publication)
        (fun r hr => ⟨fun hm => hsha (hr.1 sha256 hm).symm, keepsWellFormed_of_not_registers hr.2⟩) (hop hsha)

/-- A handler that publishes at most the hash its operation names. -/
theorem wp_publishes (hlayout : cfg.storage = StorageLayout.new root) {α : Type} {R : α → Prop} {p : Async α}
    (hp : Task.Receives cfg (fun h => op.target cfg = some h) R p) :
    wp (machine cfg) (discipline cfg sha256) t op p (fun _ _ => True) w := by
  -- That the sessions are well formed matters only when a request is answered.
  induction hp generalizing w with
  | ret _ => exact trivial
  | @call r k hr _ ih =>
    exact fun w' _ hi _ => ⟨allow_of_receives hlayout hi hr, fun e _ => ih _ (wellFormed_exec hi.2 hr.keepsWellFormed).2⟩
  | @sub s f hs _ ih =>
    obtain ⟨temp, publication, ht, htarget, rfl⟩ := hs
    refine (wp_bind ..).2 (wp_mono (fun x w' _ => ih x) (wp_publishBlob hlayout ht fun hne => ?_))
    rw [Op.publishes, Bool.and_eq_false_iff]
    exact .inr (decide_eq_false fun h => hne (Option.some.inj (htarget.symm.trans h)))

/-- A `GET` publishes what it found in the bucket. -/
theorem wp_publishExistingMetadata {fileHash : Str} {m : FileMetadata} (hop : op.isGet = true)
    (hm : NativeStorage.Listed fileHash m) (hother : fileHash ≠ sha256 → op.publishes cfg sha256 = false) :
    wp (machine cfg) (discipline cfg sha256) t op (publishExistingMetadata cfg fileHash m).run (fun _ _ => True) w := by
  obtain ⟨hmo, key, _, hml, _⟩ := hm
  refine (wp_run_bind ..).2 (wp_mono ?_ (wp_withLock_true (publishMetadata_uses cfg fileHash m) fun w₁ _ => ?_))
  · rintro (_ | _) _ _ <;> exact trivial
  · by_cases hsha : fileHash = sha256
    · subst hsha
      exact wp_publishMetadata (.inl ⟨hmo, key, hml⟩) (.inl hop)
        ⟨w₁.take_owner_self fileHash t, rfl⟩
    · exact wp_of_other (publishMetadata_uses cfg fileHash m)
        (fun r hr => ⟨fun hm => hsha (hr.1 sha256 hm).symm, keepsWellFormed_of_not_registers hr.2⟩) (hother hsha)

/-- A `GET`. -/
theorem wp_discovers (hlayout : cfg.storage = StorageLayout.new root) {headers : Headers} {head : Bool} {filename : Str}
    {α : Type} {R : α → Prop} {p : Async α} (hop : op = .get headers head filename)
    (hp : p.Built (Req.Foresees cfg.storage) (Req.Prepares cfg.storage)
      (fun p => ∃ h, Serving.getSha256HashFromFilename filename = some h ∧ Handlers.DiscoversBlob cfg h p) R) :
    wp (machine cfg) (discipline cfg sha256) t op p (fun _ _ => True) w := by
  induction hp generalizing w with
  | ret _ => exact trivial
  | @call r k hr _ ih =>
    exact fun w' _ hi _ => ⟨allow_of_receives hlayout hi hr.receives, fun e _ => ih _ (wellFormed_exec hi.2 hr.receives.keepsWellFormed).2⟩
  | @sub s f hs _ ih =>
    obtain ⟨fileHash, hh, m, hm, rfl⟩ := hs
    refine (wp_bind ..).2 (wp_mono (fun x w' _ => ih x) (wp_publishExistingMetadata (hop ▸ rfl) hm fun hne => ?_))
    rw [Op.publishes, Bool.and_eq_false_iff, hop]
    exact .inr (decide_eq_false fun h => hne (Option.some.inj (hh.symm.trans h)))

end

/-- Changing the entry of a hash stays within the rely of those who do not hold its guard. -/
theorem rely_of_call {cfg : Config} {sha256 : Str} {t t' : Tid} {op : Op} {r : Req} {e : Env}
    {w : World Str AppState} (hal : (discipline cfg sha256).allow w t op r) (ht : t' ≠ t) :
    (discipline cfg sha256).rely t' w (w.setStore ((machine cfg).exec t r e w.store).2) := by
  intro ho
  refine get_exec fun hm => ?_
  exact ht (Option.some.inj (ho.symm.trans (hal.1 hm).1))

/-- An allowed request keeps the entry at a placed location, and the sessions well formed. -/
theorem inv_of_call {cfg : Config} {sha256 : Str} {t : Tid} {op : Op} {r : Req} {e : Env}
    {w : World Str AppState} (hi : (discipline cfg sha256).inv w) (hal : (discipline cfg sha256).allow w t op r) :
    (discipline cfg sha256).inv (w.setStore ((machine cfg).exec t r e w.store).2) := by
  refine ⟨?_, (wellFormed_exec hi.2 hal.2.2).1⟩
  by_cases hm : r.mutates sha256
  · obtain ⟨_, m, rfl, hp⟩ := hal.1 hm
    intro m' hm'
    obtain ⟨existing, _, hx, hpub⟩ | ⟨_, hpub⟩ := BlobIndex.publish_cases w.store.index sha256 m
    · simp only [machine_exec, exec, IndexReq.exec, hpub, World.setStore_store] at hm'
      exact hi.1 m' hm'
    · simp only [machine_exec, exec, IndexReq.exec, hpub, World.setStore_store, BlobIndex.get_insert_self] at hm'
      cases hm'
      exact hp
  · intro m' hm'
    exact hi.1 m' ((get_exec hm).symm.trans hm')

/-- The server keeps the discipline. -/
theorem fits {cfg : Config} {root : Path} (hlayout : cfg.storage = StorageLayout.new root) (sha256 : Str) :
    Fits (machine cfg) (discipline cfg sha256) (fun _ _ _ _ => True) where
  rely_refl _ _ := fun _ => rfl
  rely_trans _ _ _ _ h h' := fun ho => (h' (h.1 _ ho)).trans (h.2 ho)
  post_stable _ _ _ _ _ _ _ _ := trivial
  call _ _ _ _ _ hi _ _ hal := ⟨inv_of_call hi hal, fun _ ht => rely_of_call hal ht⟩
  take _ _ _ hi _ _ := ⟨hi, fun _ _ _ => rfl⟩
  give _ _ _ hi _ _ := ⟨hi, fun _ _ _ => rfl⟩
  drop _ _ _ hi _ := ⟨hi, fun _ _ _ => rfl⟩
  tick _ _ hi := ⟨hi, fun _ _ => rfl⟩
  spawn w op hi hop _ := by
    refine ⟨hi, fun _ _ _ => rfl, wp_traced (Q := fun _ _ => True) ?_⟩
    cases hg : op.isGet with
    | true =>
      obtain ⟨headers, head, filename, rfl⟩ := exists_get_of_isGet hg
      exact wp_discovers hlayout rfl (program_discovers headers head filename)
    | false => exact wp_publishes hlayout (program_receives ((Bool.or_eq_true_iff.1 hop).resolve_left (hg ▸ nofun)))
  crash _ _ h := h.elim

end Discovery

end Almond
