import Almond.Conc.Decides
import Almond.Preflight
import Almond.Lemmas.DisksAux
import Almond.Lemmas.QuotaAux
import Almond.Lemmas.TreesAux

/-! # When an upload is accepted

On a machine without faults, each check of an upload passes exactly under a condition on the state and on the request. -/

namespace Almond

open Conc FileStorage
open Conc.Task (Decides decides_pure decides_throw)

/-- No file operation and no operation on the bucket fails. -/
structure Healthy (env : Env) : Prop where
  fs : env.fs.fault = none
  s3 : env.s3.fault = none

section

variable {cfg : Config} {t : Tid} {E : Env → Prop} {s : AppState} {α β ε : Type} {C : Prop} {Q : α → AppState → Prop}

/-- A fallible value followed by more. -/
theorem decides_ofResult_bind {x : AppResult α} {f : α → AsyncResult β} {Q : β → AppState → Prop} (he : ∀ error, x = .error error → ¬ C)
    (hf : ∀ a, x = .ok a → Decides (exec cfg t) E (f a) C Q s) : Decides (exec cfg t) E (ofResult x >>= f) C Q s :=
  yields_ofResult_bind (fun error hx => he error hx) hf

/-- A request that only reads, followed by more. -/
theorem decides_read_bind {r : Req} (hr : r.inspects) {f : Resp r → AsyncResult α}
    (hf : ∀ e, E e → Decides (exec cfg t) E (f (exec cfg t r e s).1) C Q s) :
    Decides (exec cfg t) E ((liftM (request r) : AsyncResult (Resp r)) >>= f) C Q s := by
  refine Decides.lift_bind (Q := fun x s' => s' = s ∧ ∃ e, E e ∧ x = (exec cfg t r e s).1) ?_ ?_
  · exact fun e he => ⟨exec_of_inspects hr, e, he, rfl⟩
  · rintro x s' ⟨rfl, e, he, rfl⟩
    exact hf e he

/-- A file operation that succeeds, followed by more. -/
theorem decides_orIoErr_bind {message : IoError → String} {p : Async (Except IoError β)} {f : β → AsyncResult α} {R : β → AppState → Prop}
    (hp : p.Yields (exec cfg t) E (fun x s' => ∃ b, x = .ok b ∧ R b s') s)
    (hf : ∀ b s', R b s' → Decides (exec cfg t) E (f b) C Q s') : Decides (exec cfg t) E (orIoErr message p >>= f) C Q s := by
  refine yields_orErr_bind (hp.mono ?_)
  rintro x s' ⟨b, rfl, hb⟩
  exact hf b s' hb

/-- A task whose result is inspected, followed by more. -/
theorem decides_attempt_bind {p : AsyncResult β} {f : AppResult β → AsyncResult α} {D : Prop} {R : β → AppState → Prop}
    (hp : Decides (exec cfg t) E p D R s) (hok : ∀ b s', D → R b s' → Decides (exec cfg t) E (f (.ok b)) C Q s')
    (herror : ∀ error s', ¬ D → Decides (exec cfg t) E (f (.error error)) C Q s') :
    Decides (exec cfg t) E (attempt p >>= f) C Q s := by
  refine yields_attempt_bind hp fun x s' hx => ?_
  cases x with
  | ok b => exact hok b s' hx.1 hx.2
  | error error => exact herror error s' hx

/-- On a healthy machine a directory is created, with those above it, exactly when no file stands in its way. -/
theorem createDirAll_decides {env : Env} (h : Healthy env) (message : IoError → String) (p : Path) :
    Decides (exec cfg t) (· = env) (orIoErr message (fs (.createDirAll p))) (s.disk.obstructed p = false)
      (fun _ s' => s'.index = s.index ∧ s'.s3Status = s.s3Status ∧ s'.uuids = s.uuids ∧ s'.disk.names = s.disk.names ∧
        ∀ q, q ∈ s'.disk.dirs ↔ q ∈ s.disk.dirs ∨ q <+: p) s := by
  rintro e rfl
  simp only [exec, Disk.exec, h.fs, Disk.perform]
  by_cases hobstructed : s.disk.obstructed p = true
  · simp only [if_pos hobstructed]
    exact ne_false_of_eq_true hobstructed
  · simp only [if_neg hobstructed]
    refine ⟨eq_false_of_ne_true hobstructed, rfl, rfl, rfl, rfl, fun q => ?_⟩
    show q ∈ s.disk.dirs ++ (Disk.prefixes p).filter (fun q => !s.disk.dirs.contains q) ↔ _
    rw [List.mem_append, List.mem_filter, Disk.mem_prefixes]
    by_cases hq : q ∈ s.disk.dirs <;> simp [hq]

end

namespace Authorization

open Auth

/-- Whether a key may use a feature in a mode; `announced` is what the relays answer about it. -/
def Recognized (cfg : Config) (s : AppState) (announced : Except String Bool) (pubkey : PublicKey) : AuthMode → Prop
  | .strict => cfg.allowedPubkeys.contains pubkey = true
  | .unrestricted => True
  | .wotOnly => whitelisted cfg pubkey = true ∨ s.trustedPubkeys.contains pubkey = true
  | .dvmOnly => whitelisted cfg pubkey = true ∨ s.dvmPubkeys.contains pubkey = true ∨ announced = .ok true

/-- The event of a request is one that an operation may be attempted with. -/
structure Permitted (cfg : Config) (s : AppState) (announced : Except String Bool) (headers : Headers) (operation : Operation)
    (event : Event) : Prop where
  presented : ∃ value, Http.str headers "authorization" = some value ∧ parseAuthHeader cfg.libs value = .ok event
  policy : ∃ expiration, verifyEventWithPolicy cfg (asSecs s.clock.system) event = .ok expiration
  kind : event.kind = 24242
  caller : ∃ mode, modeOf cfg operation = .ok mode ∧ Recognized cfg s announced event.pubkey mode

/-- A request has one event. -/
theorem Permitted.unique {cfg : Config} {s : AppState} {announced : Except String Bool} {headers : Headers} {operation : Operation}
    {event event' : Event} (h : Permitted cfg s announced headers operation event)
    (h' : Permitted cfg s announced headers operation event') : event = event' := by
  obtain ⟨value, hvalue, hevent⟩ := h.presented
  obtain ⟨value', hvalue', hevent'⟩ := h'.presented
  obtain rfl : value = value' := Option.some.inj (hvalue.symm.trans hvalue')
  exact Except.ok.inj (hevent.symm.trans hevent')

section

variable {cfg : Config} {t : Tid} {env : Env} {s : AppState}

/-- The check of a key passes exactly for the keys that the mode recognizes; it changes nothing but the keys of announced services. -/
theorem checkPubkeyAuthorization_decides (event : Event) (mode : AuthMode) :
    Decides (exec cfg t) (· = env) (checkPubkeyAuthorization cfg event mode) (Recognized cfg s env.announced event.pubkey mode)
      (fun _ s' => s' = { s with dvmPubkeys := s'.dvmPubkeys }) s := by
  cases mode with
  | strict =>
    simp only [checkPubkeyAuthorization]
    by_cases hnil : cfg.allowedPubkeys = []
    · rw [if_pos hnil]
      refine decides_throw fun hmem => ?_
      rw [Recognized, hnil] at hmem
      cases hmem
    · rw [if_neg hnil]
      by_cases hmem : cfg.allowedPubkeys.contains event.pubkey = true
      · simp only [if_pos hmem]
        exact decides_pure hmem rfl
      · simp only [if_neg hmem]
        exact decides_throw hmem
  | unrestricted => exact decides_pure trivial rfl
  | wotOnly =>
    simp only [checkPubkeyAuthorization]
    by_cases hwhite : whitelisted cfg event.pubkey = true
    · rw [if_pos hwhite]
      exact decides_pure (.inl hwhite) rfl
    · rw [if_neg hwhite]
      refine decides_read_bind (r := .isTrusted _) trivial fun e _ => ?_
      by_cases htrusted : s.trustedPubkeys.contains event.pubkey = true
      · show Decides _ _ (if s.trustedPubkeys.contains event.pubkey = true then _ else _ : AsyncResult Unit) _ _ _
        rw [if_pos htrusted]
        exact decides_pure (.inr htrusted) rfl
      · show Decides _ _ (if s.trustedPubkeys.contains event.pubkey = true then _ else _ : AsyncResult Unit) _ _ _
        rw [if_neg htrusted]
        exact decides_throw fun h => h.elim hwhite htrusted
  | dvmOnly =>
    simp only [checkPubkeyAuthorization]
    by_cases hwhite : whitelisted cfg event.pubkey = true
    · rw [if_pos hwhite]
      exact decides_pure (.inl hwhite) rfl
    · rw [if_neg hwhite]
      refine decides_read_bind (r := .isDvm _) trivial fun e _ => ?_
      by_cases hknown : s.dvmPubkeys.contains event.pubkey = true
      · show Decides _ _ (if s.dvmPubkeys.contains event.pubkey = true then _ else _ : AsyncResult Unit) _ _ _
        rw [if_pos hknown]
        exact decides_pure (.inr (.inl hknown)) rfl
      · show Decides _ _ (if s.dvmPubkeys.contains event.pubkey = true then _ else _ : AsyncResult Unit) _ _ _
        rw [if_neg hknown]
        refine decides_read_bind (r := .checkDvmAnnouncement _) trivial fun e he => ?_
        subst he
        have hrefused : e.announced ≠ .ok true → ¬ Recognized cfg s e.announced event.pubkey .dvmOnly := by
          rintro hne (h | h | h)
          · exact hwhite h
          · exact hknown h
          · exact hne h
        simp only [exec]
        cases hannounced : e.announced with
        | error message => exact decides_throw (hannounced ▸ hrefused (by rw [hannounced]; rintro ⟨⟩))
        | ok announced =>
          cases announced with
          | false => exact decides_throw (hannounced ▸ hrefused (by rw [hannounced]; rintro ⟨⟩))
          | true => exact fun _ _ => ⟨.inr (.inr rfl), rfl⟩

/-- An authorization succeeds exactly for a permitted event; it changes nothing but the keys of announced services. -/
theorem authorize_decides (headers : Headers) (operation : Operation) :
    Decides (exec cfg t) (· = env) (authorize cfg headers operation) (∃ event, Permitted cfg s env.announced headers operation event)
      (fun authorized s' => Permitted cfg s env.announced headers operation authorized.event ∧ authorized.operation = operation ∧
        s' = { s with dvmPubkeys := s'.dvmPubkeys }) s := by
  refine decides_ofResult_bind ?_ fun mode hmode => ?_
  · rintro error herror ⟨event, h⟩
    obtain ⟨mode, hmode, _⟩ := h.caller
    exact nomatch herror.symm.trans hmode
  cases hheader : Http.str headers "authorization" with
  | none =>
    refine decides_throw ?_
    rintro ⟨event, h⟩
    obtain ⟨value, hvalue, _⟩ := h.presented
    exact nomatch hheader.symm.trans hvalue
  | some authHeader =>
    have hpresented : ∀ {event}, Permitted cfg s env.announced headers operation event → parseAuthHeader cfg.libs authHeader = .ok event := by
      intro event h
      obtain ⟨value, hvalue, hevent⟩ := h.presented
      obtain rfl : authHeader = value := Option.some.inj (hheader.symm.trans hvalue)
      exact hevent
    refine decides_ofResult_bind ?_ fun event hevent => ?_
    · rintro error herror ⟨event, h⟩
      exact nomatch herror.symm.trans (hpresented h)
    -- From here on the event is the one of every permitted caller.
    have hsame : ∀ {event'}, Permitted cfg s env.announced headers operation event' → event' = event := fun h =>
      Except.ok.inj ((hpresented h).symm.trans hevent)
    refine Decides.lift_bind (Q := fun now s' => now = asSecs s.clock.system ∧ s' = s) (fun e _ => ⟨rfl, rfl⟩) ?_
    rintro now s' ⟨rfl, rfl⟩
    refine decides_ofResult_bind ?_ fun expiration hexpiration => ?_
    · rintro error herror ⟨event', h⟩
      obtain ⟨expiration, hexpiration⟩ := h.policy
      obtain rfl := hsame h
      exact nomatch herror.symm.trans hexpiration
    refine decides_ofResult_bind ?_ fun u hkind => ?_
    · rintro error herror ⟨event', h⟩
      have hkind := h.kind
      obtain rfl := hsame h
      rw [validateEventKind, if_pos hkind] at herror
      nomatch herror
    refine Decides.bind (checkPubkeyAuthorization_decides event mode) ?_ fun u s'' hrecognized hs'' => ?_
    · rintro ⟨event', h⟩
      obtain ⟨mode', hmode', hrecognized⟩ := h.caller
      obtain rfl := hsame h
      obtain rfl : mode = mode' := Except.ok.inj (hmode.symm.trans hmode')
      exact hrecognized
    · have hkind : event.kind = 24242 := by
        unfold validateEventKind at hkind
        split at hkind
        · assumption
        · nomatch hkind
      have hpermitted : Permitted cfg s' env.announced headers operation event :=
        ⟨⟨authHeader, hheader, hevent⟩, ⟨expiration, hexpiration⟩, hkind, mode, hmode, hrecognized⟩
      exact decides_pure ⟨event, hpermitted⟩ ⟨hpermitted, rfl, hs''⟩

end

end Authorization

namespace FileStorage

variable {cfg : Config} {t : Tid} {env : Env} {s : AppState}

/-- The limits have room for more bytes. -/
structure HasRoom (cfg : Config) (s : AppState) (available bytes : Nat) : Prop where
  size : bytes ≤ cfg.maxBlobSizeBytes
  quota : overQuota cfg s.index.stats bytes = false
  reserve : saturatingAdd cfg.minFreeDiskBytes bytes ≤ available

/-- The check of the capacity passes exactly when there is room. -/
theorem ensureStorageCapacity_decides (h : Healthy env) (bytes : Nat) :
    Decides (exec cfg t) (· = env) (ensureStorageCapacity cfg bytes) (HasRoom cfg s env.fs.available bytes) (fun _ s' => s' = s) s := by
  unfold ensureStorageCapacity
  by_cases hsize : bytes > cfg.maxBlobSizeBytes
  · rw [if_pos hsize]
    exact decides_throw fun hroom => Nat.not_le_of_gt hsize hroom.size
  · rw [if_neg hsize]
    refine decides_read_bind (r := .index .stats) trivial fun e _ => ?_
    show Decides _ _ (if overQuota cfg s.index.stats bytes = true then _ else _ : AsyncResult Unit) _ _ _
    by_cases hquota : overQuota cfg s.index.stats bytes = true
    · rw [if_pos hquota]
      exact decides_throw fun hroom => ne_true_of_eq_false hroom.quota hquota
    · rw [if_neg hquota]
      refine yields_orErr_bind ?_
      rintro e rfl
      simp only [exec, Disk.exec, h.fs, Disk.perform]
      by_cases hreserve : e.fs.available < saturatingAdd cfg.minFreeDiskBytes bytes
      · show Decides _ _ (if e.fs.available < saturatingAdd cfg.minFreeDiskBytes bytes then _ else _ : AsyncResult Unit) _ _ _
        rw [if_pos hreserve]
        exact decides_throw fun hroom => Nat.not_le_of_gt hreserve hroom.reserve
      · show Decides _ _ (if e.fs.available < saturatingAdd cfg.minFreeDiskBytes bytes then _ else _ : AsyncResult Unit) _ _ _
        rw [if_neg hreserve]
        exact decides_pure ⟨Nat.le_of_not_gt hsize, eq_false_of_ne_true hquota, Nat.le_of_not_gt hreserve⟩ rfl

/-! ## The quarantine -/

/-- A hash is quarantined. -/
def Quarantined (layout : StorageLayout) (d : Disk) (sha256 : Str) : Prop :=
  layout.quarantine ∈ d.dirs ∧ ∃ name ∈ d.children layout.quarantine, quarantineNameMatches sha256 name = true

/-- The walk over the names passes exactly when none belongs to the hash. -/
theorem inspectEntries_decides (h : Healthy env) (quarantine : Path) (sha256 : Str) (names : List Str) :
    Decides (exec cfg t) (· = env) (inspectEntries quarantine sha256 names)
      (∀ name ∈ names, quarantineNameMatches sha256 name = false) (fun _ s' => s' = s) s := by
  induction names with
  | nil =>
    rintro e rfl
    simp only [exec, Disk.exec, h.fs, Disk.perform]
    exact ⟨fun _ h => (by cases h), rfl⟩
  | cons name names ih =>
    unfold inspectEntries
    refine yields_orErr_bind ?_
    rintro e rfl
    simp only [exec, Disk.exec, h.fs, Disk.perform]
    show Decides _ _ (if quarantineNameMatches sha256 name = true then _ else _ : AsyncResult Unit) _ _ _
    by_cases hmatches : quarantineNameMatches sha256 name = true
    · rw [if_pos hmatches]
      exact decides_throw fun hall => ne_true_of_eq_false (hall name List.mem_cons_self) hmatches
    · rw [if_neg hmatches]
      refine ih.mono ?_ fun _ _ _ hs => hs
      rw [List.forall_mem_cons]
      exact ⟨fun hall => ⟨eq_false_of_ne_true hmatches, hall⟩, fun hall => hall.2⟩

/-- A hash is out of quarantine: no file stands where the quarantine must be, and the quarantine does not hold the hash. -/
structure Unquarantined (layout : StorageLayout) (d : Disk) (sha256 : Str) : Prop where
  readable : layout.quarantine ∈ d.dirs ∨ d.obstructed layout.quarantine = false
  unquarantined : ¬ Quarantined layout d sha256

/-- The check of the quarantine passes exactly for a valid hash that is cleared. -/
theorem ensureNotQuarantined_decides (h : Healthy env) {sha256 : Str} (hv : BlobName.isValidHash sha256 = true) :
    Decides (exec cfg t) (· = env) (ensureNotQuarantined cfg.storage sha256) (Unquarantined cfg.storage s.disk sha256)
      (fun _ s' => s' = s) s := by
  have hformat : validateSha256Format sha256 = .ok () := if_pos hv
  refine decides_ofResult_bind (fun error he => nomatch hformat.symm.trans he) fun _ _ => ?_
  refine decides_read_bind (r := .fs (.readDir _)) trivial ?_
  rintro e rfl
  simp only [exec, Disk.exec, h.fs, Disk.perform]
  by_cases hdir : s.disk.dirs.contains cfg.storage.quarantine = true
  · simp only [if_pos hdir]
    refine (inspectEntries_decides h _ _ _).mono ?_ fun _ _ _ hs => hs
    refine ⟨fun hall => ⟨.inl (List.contains_iff_mem.1 hdir), ?_⟩, fun hcleared name hname => ?_⟩
    · rintro ⟨_, name, hname, hmatches⟩
      exact ne_true_of_eq_false (hall name hname) hmatches
    · exact eq_false_of_ne_true fun hmatches => hcleared.unquarantined ⟨List.contains_iff_mem.1 hdir, name, hname, hmatches⟩
  · have hmissing : cfg.storage.quarantine ∉ s.disk.dirs := fun hmem => hdir (List.contains_iff_mem.2 hmem)
    simp only [if_neg hdir, Disk.noDirectory]
    by_cases hobstructed : s.disk.obstructed cfg.storage.quarantine = true
    · simp only [if_pos hobstructed]
      exact decides_throw fun hcleared => hcleared.readable.elim hmissing (ne_false_of_eq_true hobstructed)
    · simp only [if_neg hobstructed]
      exact decides_pure ⟨.inr (eq_false_of_ne_true hobstructed), fun hquarantined => hmissing hquarantined.1⟩ rfl

/-! ## The publication of an upload -/

/-- An upload's metadata always becomes visible. -/
theorem publishMetadata_decides {sha256 : Str} {m : FileMetadata} (ho : m.origin = .upload) :
    Decides (exec cfg t) (· = env) (publishMetadata cfg sha256 m) True (fun _ _ => True) s := by
  refine Task.Yields.mono ?_ ((publishMetadata_yields (.inl ho)).within fun _ _ => trivial)
  rintro x s' ⟨rfl, _⟩
  exact ⟨trivial, trivial⟩

/-- The end of the publication of an upload. -/
theorem finish_decides {publication : BlobPublication} (ho : publication.origin = .upload) (location : FileLocation) :
    Decides (exec cfg t) (· = env) (do
      let metadata ← publication.metadata location
      publishMetadata cfg publication.sha256 metadata : AsyncResult StoredBlob) True (fun _ _ => True) s :=
  fun _ _ => publishMetadata_decides (m := ⟨location, publication.extension, publication.mimeType, publication.size,
    asSecs s.clock.system, none, publication.expiration, publication.origin⟩) ho

/-- On a healthy machine what is at a path is removed exactly when it is a file. -/
theorem removeLocalFile_decides (h : Healthy env) {p : Path} (hpresent : (s.disk.dirs.contains p || s.disk.hasFile p) = true) :
    Decides (exec cfg t) (· = env) (removeLocalFile p) (s.disk.hasFile p = true)
      (fun _ s' => s'.disk.dirs = s.disk.dirs ∧ ∀ q, q ≠ p → s'.disk.names.lookup q = s.disk.names.lookup q) s := by
  rintro e rfl
  simp only [exec, Disk.exec, h.fs, Disk.perform]
  by_cases hfile : s.disk.hasFile p = true
  · simp only [if_pos hfile]
    exact ⟨hfile, rfl, fun q hq => AList.lookup_erase_ne hq⟩
  · have hdir : s.disk.dirs.contains p = true := ((Bool.or_eq_true_iff).1 hpresent).resolve_right hfile
    simp only [if_neg hfile, Disk.noFile, if_pos hdir]
    exact hfile

/-- The last steps of a local publication succeed exactly when no directory is in the way. -/
theorem moveIntoPlace_decides (h : Healthy env) {publication : BlobPublication} {temp finalPath : Path} {ino : Ino}
    (ho : publication.origin = .upload) (htemp : s.disk.names.lookup temp = some ino) (hparent : s.disk.parentExists finalPath = true) :
    Decides (exec cfg t) (· = env) (do
      orIoErr (fun error => s!"Failed to publish {display temp} to {display finalPath}: {error.message}")
        (fs (.rename temp finalPath))
      request (.intoPublished temp)
      let metadata ← publication.metadata (.localFile finalPath)
      publishMetadata cfg publication.sha256 metadata : AsyncResult StoredBlob) (finalPath ∉ s.disk.dirs) (fun _ _ => True) s := by
  refine yields_orErr_bind ?_
  rintro e rfl
  simp only [exec, Disk.exec, h.fs, Disk.perform, htemp]
  by_cases hdir : s.disk.dirs.contains finalPath = true
  · simp only [if_pos hdir]
    exact not_not_intro (List.contains_iff_mem.1 hdir)
  · simp only [if_neg hdir, if_pos hparent]
    have hfree : finalPath ∉ s.disk.dirs := fun hmem => hdir (List.contains_iff_mem.2 hmem)
    refine Decides.lift_bind (Q := fun _ _ => True) (fun _ _ => trivial) fun _ s₁ _ => ?_
    exact (finish_decides ho _).mono (iff_of_true trivial hfree) fun _ _ _ h => h

/-- A file can be put at a path: no directory has its name, and no file stands where a directory above it must be. -/
structure Accessible (d : Disk) (p : Path) : Prop where
  vacant : p ∉ d.dirs
  unobstructed : d.obstructed p.dropLast = false

/-- A local publication of an upload succeeds exactly when its file can be put at its place. -/
theorem publishToDisk_decides (h : Healthy env) {publication : BlobPublication} {temp finalPath : Path} {ino : Ino}
    (ho : publication.origin = .upload) (htemp : s.disk.names.lookup temp = some ino) (hne : temp ≠ finalPath) (hnil : finalPath ≠ [])
    (hpath : completedPath cfg.storage publication.origin publication.sha256 publication.extension publication.expiration = .ok finalPath) :
    Decides (exec cfg t) (· = env) (publishToDisk cfg temp publication) (Accessible s.disk finalPath) (fun _ _ => True) s := by
  refine decides_ofResult_bind (fun error he => nomatch hpath.symm.trans he) fun p hp => ?_
  obtain rfl : finalPath = p := Except.ok.inj (hpath.symm.trans hp)
  refine Decides.bind (createDirAll_decides h _ _) Accessible.unobstructed ?_
  rintro _ s₁ hunobstructed ⟨_, _, _, hnames, hdirs⟩
  -- The parent is there now, and no directory came at the path itself.
  have hself : finalPath ∈ s₁.disk.dirs ↔ finalPath ∈ s.disk.dirs := by
    rw [hdirs, or_iff_left]
    intro hleading
    have hlen := hleading.length_le
    have hpos := List.length_pos_iff.2 hnil
    rw [List.length_dropLast] at hlen
    omega
  have hparent : finalPath.dropLast ∈ s₁.disk.dirs := (hdirs _).2 (.inr (List.prefix_refl _))
  have hmoves : ∀ s₂ : AppState, s₂.disk.dirs = s₁.disk.dirs → s₂.disk.names.lookup temp = some ino →
      Decides (exec cfg t) (· = env) (do
        orIoErr (fun error => s!"Failed to publish {display temp} to {display finalPath}: {error.message}")
          (fs (.rename temp finalPath))
        request (.intoPublished temp)
        let metadata ← publication.metadata (.localFile finalPath)
        publishMetadata cfg publication.sha256 metadata : AsyncResult StoredBlob) (Accessible s.disk finalPath) (fun _ _ => True) s₂ := by
    intro s₂ hdirs₂ htemp₂
    have hparent₂ : s₂.disk.parentExists finalPath = true := by
      simp only [Disk.parentExists, hdirs₂, Bool.and_eq_true, decide_eq_true_eq]
      exact ⟨hnil, List.contains_iff_mem.2 hparent⟩
    refine (moveIntoPlace_decides h ho htemp₂ hparent₂).mono ?_ fun _ _ _ h => h
    rw [hdirs₂, hself]
    exact ⟨fun hvacant => ⟨hvacant, hunobstructed⟩, Accessible.vacant⟩
  refine decides_orIoErr_bind (R := fun present s₂ => present = (s₁.disk.dirs.contains finalPath || s₁.disk.hasFile finalPath) ∧ s₂ = s₁) ?_ ?_
  · rintro e rfl
    have hclear : s₁.disk.obstructed finalPath.dropLast = false :=
      (Disk.obstructed_congr fun q _ => by rw [Disk.hasFile, Disk.hasFile, hnames]).trans hunobstructed
    simp only [exec, Disk.exec, h.fs, Disk.perform, hclear]
    cases s₁.disk.dirs.contains finalPath || s₁.disk.hasFile finalPath
    · exact ⟨_, rfl, rfl, rfl⟩
    · exact ⟨_, rfl, rfl, rfl⟩
  rintro present s₂ ⟨hpresent, rfl⟩
  cases present with
  | false => exact hmoves s₂ rfl (hnames ▸ htemp)
  | true =>
    refine Decides.bind (removeLocalFile_decides h hpresent.symm) (fun haccessible => ?_) ?_
    · refine ((Bool.or_eq_true_iff).1 hpresent.symm).resolve_left fun hdir => haccessible.vacant ?_
      exact hself.1 (List.contains_iff_mem.1 hdir)
    rintro _ s₃ - ⟨hdirs₃, hnames₃⟩
    exact hmoves s₃ hdirs₃ ((hnames₃ temp hne).trans (hnames ▸ htemp))

/-- A publication of an upload to the bucket succeeds exactly when the bucket is available. -/
theorem publishToS3_decides (h : Healthy env) {publication : BlobPublication} {temp : Path} {ino : Ino} (ho : publication.origin = .upload)
    (hv : BlobName.isValidHash publication.sha256 = true) (htemp : s.disk.names.lookup temp = some ino) :
    Decides (exec cfg t) (· = env) (publishToS3 cfg temp publication) (s.s3Status = .available) (fun _ _ => True) s := by
  have hkey : ∃ key, NativeStorage.objectKey publication.sha256 publication.extension publication.expiration = .ok key := by
    rw [NativeStorage.objectKey, BlobName.fanOut_eq hv, BlobName.name_eq hv]
    exact ⟨_, rfl⟩
  refine Decides.bind (D := s.s3Status = .available) (Q := fun _ s' => s' = s) ?_ id ?_
  · refine decides_read_bind (r := .s3Status) trivial fun e _ => ?_
    simp only [exec]
    cases hstatus : s.s3Status with
    | available => exact decides_pure rfl rfl
    | unavailable error lastAttempt => exact decides_throw (fun h => by cases h)
  rintro _ s₁ havailable rfl
  refine Decides.bind (D := True) (Q := fun _ _ => True) ?_ (fun _ => trivial) fun key s₂ _ _ => ?_
  · obtain ⟨key, hkey⟩ := hkey
    refine decides_ofResult_bind (fun error he => by cases hkey.symm.trans he) fun key _ => ?_
    refine decides_orIoErr_bind (R := fun _ s₂ => s₂ = s₁) ?_ ?_
    · rintro e rfl
      simp only [exec, Disk.exec, h.fs, Disk.perform, htemp]
      exact ⟨_, rfl, rfl⟩
    rintro ino s₂ rfl
    refine yields_orErr_bind ?_
    rintro e rfl
    simp only [exec, Bucket.exec, h.s3, Bucket.perform]
    refine decides_orIoErr_bind (R := fun _ _ => True) ?_ fun _ _ _ => decides_pure trivial trivial
    rintro e rfl
    have hfile : s₂.disk.hasFile temp = true := by rw [Disk.hasFile, htemp, Option.isSome_some]
    simp only [exec, Disk.exec, h.fs, Disk.perform, if_pos hfile]
    exact ⟨_, rfl, trivial⟩
  · refine Decides.lift_bind (Q := fun _ _ => True) (fun _ _ => trivial) fun _ s₃ _ => ?_
    exact (finish_decides ho _).mono (iff_of_true trivial havailable) fun _ _ _ h => h

/-- A blob has room at its place: the bucket is available, or its file can be put where it goes. -/
def Placeable (cfg : Config) (s : AppState) (finalPath : Path) : Prop :=
  if cfg.nativeS3 = true then s.s3Status = .available else Accessible s.disk finalPath

/-- The guarded part of the publication of an upload succeeds exactly for a cleared hash that an upload holds or that has room at its
place. -/
theorem publishLocked_decides (h : Healthy env) {publication : BlobPublication} {temp finalPath : Path} {ino : Ino}
    (ho : publication.origin = .upload) (hv : BlobName.isValidHash publication.sha256 = true)
    (htemp : s.disk.names.lookup temp = some ino) (hne : temp ≠ finalPath) (hnil : finalPath ≠ [])
    (hpath : completedPath cfg.storage publication.origin publication.sha256 publication.extension publication.expiration = .ok finalPath) :
    Decides (exec cfg t) (· = env) (publishLocked cfg temp publication) (Unquarantined cfg.storage s.disk publication.sha256 ∧
      (s.index.held publication.sha256 = true ∨ Placeable cfg s finalPath)) (fun _ _ => True) s := by
  refine Decides.bind (ensureNotQuarantined_decides h hv) And.left ?_
  rintro _ s₁ hfree rfl
  have hstore : s₁.index.held publication.sha256 = false → Decides (exec cfg t) (· = env)
      (if publication.origin = .upload ∧ cfg.nativeS3 = true then publishToS3 cfg temp publication
        else publishToDisk cfg temp publication : AsyncResult StoredBlob) (Unquarantined cfg.storage s₁.disk publication.sha256 ∧
        (s₁.index.held publication.sha256 = true ∨ Placeable cfg s₁ finalPath)) (fun _ _ => True) s₁ := by
    intro hheld
    have hplace : Placeable cfg s₁ finalPath ↔ Unquarantined cfg.storage s₁.disk publication.sha256 ∧
        (s₁.index.held publication.sha256 = true ∨ Placeable cfg s₁ finalPath) := by
      rw [hheld]
      exact ⟨fun hp => ⟨hfree, .inr hp⟩, fun hp => hp.2.resolve_left (nomatch ·)⟩
    by_cases hs3 : cfg.nativeS3 = true
    · rw [if_pos ⟨ho, hs3⟩]
      refine (publishToS3_decides h ho hv htemp).mono ?_ fun _ _ _ h => h
      rw [← hplace, Placeable, if_pos hs3]
    · rw [if_neg fun hand => hs3 hand.2]
      refine (publishToDisk_decides h ho htemp hne hnil hpath).mono ?_ fun _ _ _ h => h
      rw [← hplace, Placeable, if_neg hs3]
  refine decides_read_bind (r := .index (.get _)) trivial fun e _ => ?_
  simp only [exec, IndexReq.exec]
  cases hg : s₁.index.get publication.sha256 with
  | none => exact hstore (held_of_not_keepsIncumbent publication s₁.index fun _ h => by cases hg.symm.trans h)
  | some existing =>
    show Decides _ _ (if keepsIncumbent publication existing = true then _ else _ : AsyncResult StoredBlob) _ _ _
    have hkeeps : keepsIncumbent publication existing = s₁.index.held publication.sha256 := by
      simp [keepsIncumbent, BlobIndex.held, hg, ho]
    cases hheld : s₁.index.held publication.sha256 with
    | true =>
      rw [if_pos (hkeeps.trans hheld)]
      exact decides_pure ⟨hfree, .inl rfl⟩ trivial
    | false =>
      rw [if_neg (ne_true_of_eq_false (hkeeps.trans hheld))]
      rw [← hheld]
      exact hstore hheld

/-- The publication of an upload succeeds exactly when its guarded part does. -/
theorem publishBlob_decides (h : Healthy env) (publication : BlobPublication) {temp finalPath : Path} {ino : Ino}
    (ho : publication.origin = .upload) (hv : BlobName.isValidHash publication.sha256 = true)
    (htemp : s.disk.names.lookup temp = some ino) (hne : temp ≠ finalPath) (hnil : finalPath ≠ [])
    (hpath : completedPath cfg.storage publication.origin publication.sha256 publication.extension publication.expiration = .ok finalPath) :
    Decides (exec cfg t) (· = env) (publishBlob cfg temp publication) (Unquarantined cfg.storage s.disk publication.sha256 ∧
      (s.index.held publication.sha256 = true ∨ Placeable cfg s finalPath)) (fun _ _ => True) s := by
  have hformat : validateSha256Format publication.sha256 = .ok () := if_pos hv
  refine decides_attempt_bind (D := Unquarantined cfg.storage s.disk publication.sha256 ∧
    (s.index.held publication.sha256 = true ∨ Placeable cfg s finalPath)) (R := fun _ _ => True) ?_ ?_ ?_
  · refine decides_ofResult_bind (fun error he => nomatch hformat.symm.trans he) fun _ _ => ?_
    exact Task.Yields.bind (publishLocked_decides h ho hv htemp hne hnil hpath) fun x s' hx => hx
  · refine fun stored s₁ hD _ => Decides.lift_bind (Q := fun _ _ => True) (fun _ _ => trivial) fun _ s₂ _ => ?_
    exact decides_pure hD trivial
  · refine fun error s₁ hD => Decides.lift_bind (Q := fun _ _ => True) (fun _ _ => trivial) fun _ s₂ _ => ?_
    exact decides_throw hD

end FileStorage

/-! ## The intake of a body -/

namespace Upload

variable {cfg : Config} {t : Tid} {env : Env} {s : AppState}

/-- The pieces of a frame are written exactly when they stay within the limit. -/
theorem writePieces_decides (h : Healthy env) (ino : Ino) (maxBytes : Nat) (pieces : List Bytes) (received : Bytes)
    (hfits : received.length + pieces.flatten.length ≤ u64Max) (hmax : received.length ≤ maxBytes) :
    Decides (exec cfg t) (· = env) (writePieces ino maxBytes pieces received) (received.length + pieces.flatten.length ≤ maxBytes)
      (fun w _ => w = received ++ pieces.flatten) s := by
  induction pieces generalizing received s with
  | nil => exact decides_pure hmax (List.append_nil _).symm
  | cons piece rest ih =>
    rw [List.flatten_cons, List.length_append] at hfits
    unfold writePieces
    have hadd : checkedAdd received.length piece.length = some (received.length + piece.length) :=
      checkedAdd_eq_some.2 ⟨rfl, by omega⟩
    simp only [hadd]
    by_cases hm : received.length + piece.length > maxBytes
    · rw [if_pos hm]
      refine decides_throw fun hle => ?_
      rw [List.flatten_cons, List.length_append] at hle
      omega
    · rw [if_neg hm]
      refine decides_orIoErr_bind (R := fun _ _ => True) ?_ fun _ s₁ _ => ?_
      · rintro e rfl
        simp only [exec, Disk.exec, h.fs, Disk.perform]
        exact ⟨_, rfl, trivial⟩
      have hlen : (received ++ piece).length = received.length + piece.length := List.length_append
      refine (ih (received ++ piece) (by omega) (by omega)).mono ?_ fun w _ _ hw => ?_
      · rw [hlen, List.flatten_cons, List.length_append, Nat.add_assoc]
      · rw [hw, List.flatten_cons, List.append_assoc]

/-- A body that arrives whole is written exactly when it stays within the limit. -/
theorem writeFrames_decides (h : Healthy env) (ino : Ino) (maxBytes : Nat) (frames : List Bytes) (received : Bytes)
    (hfits : received.length + frames.flatten.length ≤ u64Max) (hmax : received.length ≤ maxBytes) :
    Decides (exec cfg t) (· = env) (writeFrames ino maxBytes (frames.map .ok) received)
      (received.length + frames.flatten.length ≤ maxBytes) (fun w _ => w = received ++ frames.flatten) s := by
  induction frames generalizing received s with
  | nil => exact fun _ _ => ⟨hmax, (List.append_nil _).symm⟩
  | cons data frames ih =>
    rw [List.flatten_cons, List.length_append] at hfits
    refine decides_read_bind (r := .nextFrame) trivial fun e _ => ?_
    have hpieces : (pieces chunkSize data.length data).flatten = data := flatten_pieces (by decide) _ _ (le_refl _)
    refine Decides.bind (writePieces_decides h ino maxBytes _ received (by rw [hpieces]; omega) hmax) ?_ ?_
    · rw [hpieces, List.flatten_cons, List.length_append]
      omega
    rw [hpieces]
    rintro _ s₁ hle rfl
    have hlen : (received ++ data).length = received.length + data.length := List.length_append
    refine (ih (received ++ data) (by omega) (by omega)).mono ?_ fun w _ _ hw => ?_
    · rw [hlen, List.flatten_cons, List.length_append, Nat.add_assoc]
    · rw [hw, List.flatten_cons, List.append_assoc]

/-- A body that arrives whole is stored exactly when it stays within the limit and no directory has the name of its file. -/
theorem streamToTempFile_decides (h : Healthy env) (frames : List Bytes) (temp : Path) (maxBytes : Nat)
    (hfits : frames.flatten.length ≤ u64Max) (hparent : s.disk.parentExists temp = true) :
    Decides (exec cfg t) (· = env) (streamToTempFile cfg.libs (frames.map .ok) temp maxBytes)
      (temp ∉ s.disk.dirs ∧ frames.flatten.length ≤ maxBytes)
      (fun r _ => r = (cfg.libs.sha256Hex frames.flatten, frames.flatten.length)) s := by
  refine yields_orErr_bind ?_
  rintro e rfl
  simp only [exec, Disk.exec, h.fs, Disk.perform]
  by_cases hdir : s.disk.dirs.contains temp = true
  · simp only [if_pos hdir]
    exact fun hand => hand.1 (List.contains_iff_mem.1 hdir)
  · simp only [if_neg hdir, if_pos hparent]
    have hfree : temp ∉ s.disk.dirs := fun hmem => hdir (List.contains_iff_mem.2 hmem)
    have hrest : ∀ (ino : Ino) (s₁ : AppState), Decides (exec cfg t) (· = e) (do
        let written ← attempt do
          let received ← writeFrames ino maxBytes (frames.map .ok) []
          orIoErr (fun error => s!"Failed to sync temp file: {error.message}") (fs (.syncAll ino))
          return (cfg.libs.sha256Hex received, received.length)
        request (.closeFile temp)
        ofResult written : AsyncResult (Str × Nat)) (temp ∉ s.disk.dirs ∧ frames.flatten.length ≤ maxBytes)
        (fun r _ => r = (cfg.libs.sha256Hex frames.flatten, frames.flatten.length)) s₁ := by
      intro ino s₁
      refine decides_attempt_bind (D := frames.flatten.length ≤ maxBytes)
        (R := fun r _ => r = (cfg.libs.sha256Hex frames.flatten, frames.flatten.length)) ?_ ?_ ?_
      · refine Decides.bind (writeFrames_decides h ino maxBytes frames [] (by rwa [List.length_nil, Nat.zero_add]) (Nat.zero_le _)) ?_ ?_
        · rw [List.length_nil, Nat.zero_add]
          exact id
        rintro _ s₂ hle rfl
        rw [List.length_nil, Nat.zero_add] at hle
        refine decides_orIoErr_bind (R := fun _ _ => True) ?_ fun _ _ _ => decides_pure hle rfl
        rintro e rfl
        simp only [exec, Disk.exec, h.fs, Disk.perform]
        exact ⟨_, rfl, trivial⟩
      · refine fun r s₂ hle hr => Decides.lift_bind (Q := fun _ _ => True) (fun _ _ => trivial) fun _ s₃ _ => ?_
        exact decides_pure ⟨hfree, hle⟩ hr
      · refine fun error s₂ hlong => Decides.lift_bind (Q := fun _ _ => True) (fun _ _ => trivial) fun _ s₃ _ => ?_
        exact decides_throw fun hand => hlong hand.2
    cases hl : s.disk.names.lookup temp with
    | some ino => exact hrest _ _
    | none => exact hrest _ _

end Upload

namespace Handlers

open Authorization Cashu FileStorage

variable {cfg : Config} {t : Tid} {env : Env} {s : AppState}

/-- Work with a temporary blob succeeds exactly when the work does. -/
theorem withTemp_decides {α : Type} {temp : Path} {work : AsyncResult α} {C : Prop} {Q : α → AppState → Prop}
    (hwork : Decides (exec cfg t) (· = env) work C Q s) : Decides (exec cfg t) (· = env) (withTemp temp work) C Q s := by
  refine decides_attempt_bind hwork (fun a s₁ hC hQ => decides_pure hC hQ) fun error s₁ hC => ?_
  exact Decides.lift_bind (Q := fun _ _ => True) (fun _ _ => trivial) fun _ s₂ _ => decides_throw hC

/-- An unpaid operation is charged nothing. -/
theorem charge_decides (headers : Headers) {operation : PaidOperation} (size : Nat) (hfree : operation.isPaid cfg = false) :
    Decides (exec cfg t) (· = env) (charge cfg headers operation size) True (fun _ s' => s' = s) s := by
  unfold charge
  simp only [hfree, Bool.not_false, if_true]
  exact decides_pure trivial rfl

/-- The binding of an upload's authorization succeeds exactly when the event is valid for the hash, and consumes nothing. -/
theorem bind_decides {authorized : Authorized} (ho : authorized.operation = .upload) (sha256 : Str) :
    Decides (exec cfg t) (· = env) (authorized.bind sha256) (Auth.validateUploadAuth authorized.event sha256 = .ok ())
      (fun _ s' => s' = s) s := by
  have hvalidate : authorized.validate sha256 = Auth.validateUploadAuth authorized.event sha256 := by
    rw [Authorized.validate, ho]
  refine decides_ofResult_bind (fun error he hok => ?_) fun u hu => ?_
  · rw [hvalidate] at he
    exact nomatch he.symm.trans hok
  · rw [hvalidate] at hu
    rw [ho]
    exact decides_pure hu rfl

/-- What admits an upload: the hash is well formed, its event is permitted and valid for the hash, and there is room. -/
structure Admitted (cfg : Config) (s : AppState) (env : Env) (headers : Headers) (sha256 : Str) (size : Nat) : Prop where
  valid : BlobName.isValidHash sha256 = true
  event : ∃ event, Permitted cfg s env.announced headers .upload event ∧ Auth.validateUploadAuth event sha256 = .ok ()
  room : HasRoom cfg s env.fs.available size

/-- A preflight is answered with 200 exactly when the upload is admitted. -/
theorem headUpload_decides (h : Healthy env) {headers : Headers} {sha256 mime value : Str} {size : Nat}
    (hfree : cfg.featurePaidUpload = false) (hsha : Http.str headers "x-sha-256" = some sha256)
    (hmime : Http.str headers "x-content-type" = some mime) (hnonempty : trim mime ≠ [])
    (hvalue : Http.str headers "x-content-length" = some value) (hsize : parseU64 value = some size) :
    Decides (exec cfg t) (· = env) (headUpload cfg headers) (Admitted cfg s env headers sha256 size) (fun r _ => r.status = 200) s := by
  refine Decides.map (Q := fun r _ => r.1.status = 200) ?_ fun _ _ hstatus => hstatus
  unfold headUploadPriced
  simp only [hsha, hmime, Option.filter_some, decide_eq_true hnonempty, if_true]
  refine decides_ofResult_bind (fun error he hadmitted => ?_) fun _ hformat => ?_
  · rw [validateSha256Format, if_pos hadmitted.valid] at he
    nomatch he
  have hv : BlobName.isValidHash sha256 = true := by
    unfold validateSha256Format at hformat
    split at hformat
    · assumption
    · nomatch hformat
  have hpreflight : preflightSize headers = .ok size := by
    simp only [preflightSize, hvalue, hsize]
    rfl
  refine decides_ofResult_bind (fun error he => nomatch hpreflight.symm.trans he) fun size' hsize' => ?_
  obtain rfl : size = size' := Except.ok.inj (hpreflight.symm.trans hsize')
  refine Decides.bind (authorize_decides headers .upload) (fun hadmitted => ?_) ?_
  · obtain ⟨event, hpermitted, _⟩ := hadmitted.event
    exact ⟨event, hpermitted⟩
  rintro authorized s₁ - ⟨hpermitted, ho, hs₁⟩
  refine Decides.bind (bind_decides ho sha256) (fun hadmitted => ?_) ?_
  · obtain ⟨event, hpermitted', hauth⟩ := hadmitted.event
    exact hpermitted.unique hpermitted' ▸ hauth
  rintro _ s₂ hauth rfl
  have hroom : HasRoom cfg s₂ env.fs.available size ↔ HasRoom cfg s env.fs.available size := by
    rw [hs₁]
    exact ⟨fun hr => ⟨hr.size, hr.quota, hr.reserve⟩, fun hr => ⟨hr.size, hr.quota, hr.reserve⟩⟩
  by_cases hlong : size > Upload.clientUploadLimit cfg
  · rw [if_pos hlong]
    exact decides_throw fun hadmitted => Nat.not_le_of_gt hlong hadmitted.room.size
  rw [if_neg hlong]
  refine Decides.bind (ensureStorageCapacity_decides h size) (fun hadmitted => hroom.2 hadmitted.room) ?_
  rintro _ s₃ hr rfl
  simp only [hfree]
  exact decides_pure ⟨hv, ⟨authorized.event, hpermitted, hauth⟩, hroom.1 hr⟩ rfl

/-! ## `PUT /upload` -/

/-- The state beside the temporary file of a request: the index and the backend are as they were, every other file is, and the only
directories that came are those above the temporary files. -/
structure Beside (layout : StorageLayout) (temp : Path) (s s' : AppState) : Prop where
  index : s'.index = s.index
  s3Status : s'.s3Status = s.s3Status
  dirs : ∀ p, ¬ p <+: layout.temp → (p ∈ s'.disk.dirs ↔ p ∈ s.disk.dirs)
  files : ∀ p, p ≠ temp → s'.disk.hasFile p = s.disk.hasFile p

/-- Streaming a body keeps to its temporary file. -/
theorem Beside.streams {layout : StorageLayout} {temp : Path} {s' : AppState} (h : Beside layout temp s s') {r : Req}
    (hr : Upload.Streams temp r) (e : Env) : Beside layout temp s (exec cfg t r e s').2 := by
  have hsame : ∀ d : Disk, d.dirs = s'.disk.dirs → (∀ p, p ≠ temp → d.hasFile p = s'.disk.hasFile p) →
      Beside layout temp s { s' with disk := d, writing := (exec cfg t r e s').2.writing } := fun d hdirs hfiles =>
    ⟨h.index, h.s3Status, fun p hp => hdirs ▸ h.dirs p hp, fun p hp => (hfiles p hp).trans (h.files p hp)⟩
  cases r with
  | fs r =>
    cases r with
    | createFile p =>
      obtain rfl : p = temp := hr
      refine hsame (s'.disk.exec e.fs s'.clock.system (.createFile p)).2 ?_ ?_
      all_goals
        cases hf : e.fs.fault with
        | some message => simp only [Disk.exec, hf, implies_true]
        | none =>
          simp only [Disk.exec, hf, Disk.perform]
          split
          · simp only [implies_true]
          · split
            · split
              · simp only [Disk.setNode, Disk.hasFile, implies_true]
              · first
                | rfl
                | exact fun q hq => by simp only [Disk.create, Disk.hasFile, AList.lookup_insert_ne hq]
            · simp only [implies_true]
    | writeAll ino bytes =>
      refine hsame (s'.disk.exec e.fs s'.clock.system (.writeAll ino bytes)).2 ?_ ?_
      all_goals
        cases hf : e.fs.fault with
        | some message => simp only [Disk.exec, hf, implies_true]
        | none => simp only [Disk.exec, hf, Disk.perform, Disk.setNode, Disk.hasFile, implies_true]
    | syncAll ino =>
      rw [exec_of_inspects (r := .fs (.syncAll ino)) trivial]
      exact h
    | _ => exact hr.elim
  | closeFile p => exact ⟨h.index, h.s3Status, h.dirs, h.files⟩
  | nextFrame => exact h
  | _ => exact hr.elim

/-- One change after another. -/
theorem Beside.trans {layout : StorageLayout} {temp : Path} {s' s'' : AppState} (h : Beside layout temp s s')
    (h' : Beside layout temp s' s'') : Beside layout temp s s'' :=
  ⟨h'.index.trans h.index, h'.s3Status.trans h.s3Status, fun p hp => (h'.dirs p hp).trans (h.dirs p hp),
    fun p hp => (h'.files p hp).trans (h.files p hp)⟩

/-- A path that is not below the temporary file is obstructed as before. -/
theorem Beside.obstructed {layout : StorageLayout} {temp path : Path} {s' : AppState} (h : Beside layout temp s s') (hpath : ¬ temp <+: path) :
    s'.disk.obstructed path = s.disk.obstructed path :=
  Disk.obstructed_congr fun q hq => h.files q fun he => hpath (he ▸ hq)

/-- The place of a blob lies beside every temporary file. -/
theorem Beside.placeable {temp path : Path} {s' : AppState} (h : Beside cfg.storage temp s s') (hpath : ¬ path <+: cfg.storage.temp)
    (hbeside : ¬ temp <+: path) : Placeable cfg s' path ↔ Placeable cfg s path := by
  have hclear : s'.disk.obstructed path.dropLast = s.disk.obstructed path.dropLast :=
    h.obstructed fun hleading => hbeside (hleading.trans (List.dropLast_prefix path))
  have haccessible : Accessible s'.disk path ↔ Accessible s.disk path := by
    refine ⟨fun ha => ⟨mt (h.dirs path hpath).2 ha.vacant, ?_⟩, fun ha => ⟨mt (h.dirs path hpath).1 ha.vacant, ?_⟩⟩
    · rw [← hclear]
      exact ha.unobstructed
    · rw [hclear]
      exact ha.unobstructed
  rw [Placeable, Placeable, h.s3Status, haccessible]

/-- The quarantine lies beside every temporary file. -/
theorem Beside.quarantined {root temp : Path} {s' : AppState} (h : Beside (.new root) temp s s') (ht : Scratch (.new root) temp)
    (sha256 : Str) : Quarantined (.new root) s'.disk sha256 ↔ Quarantined (.new root) s.disk sha256 := by
  have hdir : ∀ rest, ¬ root ++ "quarantine".toList :: rest <+: root ++ ["temp".toList] := by
    intro rest hleading
    have hcons := (List.prefix_append_right_inj root).1 hleading
    exact absurd (List.cons_prefix_cons.1 hcons).1 (by decide)
  have hfile : ∀ name, root ++ ["quarantine".toList, name] ≠ temp := by
    rintro name rfl
    obtain ⟨name', rest, he⟩ := ht
    simp only [StorageLayout.new, List.append_assoc, List.append_cancel_left_eq] at he
    exact absurd (List.cons.inj he).1 (by decide)
  unfold Quarantined
  simp only [Disk.mem_children, StorageLayout.new, List.append_assoc, List.cons_append, List.nil_append]
  have hquarantine : root ++ ["quarantine".toList] ∈ s'.disk.dirs ↔ root ++ ["quarantine".toList] ∈ s.disk.dirs := h.dirs _ (hdir [])
  have hnames : ∀ name, root ++ ["quarantine".toList, name] ∈ s'.disk.dirs ↔ root ++ ["quarantine".toList, name] ∈ s.disk.dirs :=
    fun name => h.dirs _ (hdir [name])
  have hfiles : ∀ name, s'.disk.hasFile (root ++ ["quarantine".toList, name]) = s.disk.hasFile (root ++ ["quarantine".toList, name]) :=
    fun name => h.files _ (hfile name)
  simp only [hquarantine, hnames, hfiles]

/-- A hash is cleared whatever happens to a temporary file. -/
theorem Beside.cleared {root temp : Path} {s' : AppState} (h : Beside (.new root) temp s s') (ht : Scratch (.new root) temp)
    (sha256 : Str) : Unquarantined (.new root) s'.disk sha256 ↔ Unquarantined (.new root) s.disk sha256 := by
  have hdir : ¬ (StorageLayout.new root).quarantine <+: (StorageLayout.new root).temp := by
    intro hleading
    have hcons := (List.prefix_append_right_inj root).1 hleading
    exact absurd (List.cons_prefix_cons.1 hcons).1 (by decide)
  have hbelow : ¬ temp <+: (StorageLayout.new root).quarantine := by
    obtain ⟨name, rest, rfl⟩ := ht
    intro hleading
    simp only [StorageLayout.new, List.append_assoc] at hleading
    have hcons := (List.prefix_append_right_inj root).1 hleading
    exact absurd (List.cons_prefix_cons.1 hcons).1 (by decide)
  have hreadable : ((StorageLayout.new root).quarantine ∈ s'.disk.dirs ∨ s'.disk.obstructed (StorageLayout.new root).quarantine = false) ↔
      ((StorageLayout.new root).quarantine ∈ s.disk.dirs ∨ s.disk.obstructed (StorageLayout.new root).quarantine = false) := by
    rw [h.dirs _ hdir, h.obstructed hbelow]
  have hquarantined := h.quarantined ht sha256
  exact ⟨fun hc => ⟨hreadable.1 hc.readable, mt hquarantined.2 hc.unquarantined⟩,
    fun hc => ⟨hreadable.2 hc.readable, mt hquarantined.1 hc.unquarantined⟩⟩

/-- The temporary file of the next upload. -/
def uploadTemp (cfg : Config) (s : AppState) : Path :=
  cfg.storage.temp ++ [tempName "upload".toList s.uuids none]

/-- Where an upload's file goes. -/
def uploadPath (cfg : Config) (headers : Headers) (sha256 : Str) (expiration : Option Nat) : AppResult Path :=
  completedPath cfg.storage .upload sha256 (Http.getExtensionFromMime cfg.libs (Http.extractContentType headers)) expiration

/-- What else an upload needs to be stored: its expiration is none or lies ahead, its temporary file can be put at its place, its hash is
cleared, and an upload holds the hash already or there is room at its place. -/
structure Storable (cfg : Config) (s : AppState) (headers : Headers) (sha256 : Str) : Prop where
  temporary : Accessible s.disk (uploadTemp cfg s)
  cleared : Unquarantined cfg.storage s.disk sha256
  place : ∃ expiration path, Http.clientExpiration headers = .ok expiration ∧
    Http.resolveExpiration (asSecs s.clock.system) expiration = .ok expiration ∧
    uploadPath cfg headers sha256 expiration = .ok path ∧ (s.index.held sha256 = true ∨ Placeable cfg s path)

/-- The expiration of a request is read exactly when it is none or lies ahead. -/
theorem extractExpiration_decides (headers : Headers) :
    Decides (exec cfg t) (· = env) (extractExpiration headers) (∃ expiration, Http.clientExpiration headers = .ok expiration ∧
        Http.resolveExpiration (asSecs s.clock.system) expiration = .ok expiration)
      (fun expiration s' => (Http.clientExpiration headers = .ok expiration ∧
        Http.resolveExpiration (asSecs s.clock.system) expiration = .ok expiration) ∧ s' = s) s := by
  refine Decides.lift_bind (Q := fun now s' => now = asSecs s.clock.system ∧ s' = s) (fun e _ => ⟨rfl, rfl⟩) ?_
  rintro _ s' ⟨rfl, rfl⟩
  refine decides_ofResult_bind ?_ fun expiration hexpiration => ?_
  · rintro error he ⟨expiration, hexpiration, _⟩
    exact nomatch he.symm.trans hexpiration
  have hresolve : Http.resolveExpiration (asSecs s'.clock.system) expiration = .ok expiration ∨
      ∃ error, Http.resolveExpiration (asSecs s'.clock.system) expiration = .error error := by
    unfold Http.resolveExpiration
    split
    · exact .inr ⟨_, rfl⟩
    · exact .inl rfl
  rcases hresolve with hresolve | ⟨error, hresolve⟩
  · rw [hresolve]
    exact ⟨⟨expiration, hexpiration, hresolve⟩, ⟨hexpiration, hresolve⟩, rfl⟩
  · rw [hresolve]
    refine decides_throw ?_
    rintro ⟨expiration', hexpiration', hresolve'⟩
    obtain rfl : expiration = expiration' := Except.ok.inj (hexpiration.symm.trans hexpiration')
    exact nomatch hresolve.symm.trans hresolve'

/-- A path below the root of the uploads is not above the temporary files, nor one of them. -/
theorem uploadPath_beside {root path temp : Path} {headers : Headers} {sha256 : Str} {expiration : Option Nat}
    (hlayout : cfg.storage = .new root) (hpath : uploadPath cfg headers sha256 expiration = .ok path) (ht : Scratch cfg.storage temp) :
    ¬ temp <+: path ∧ path ≠ [] ∧ ¬ path <+: cfg.storage.temp := by
  have hhoused : Housed cfg.storage sha256 .upload (.localFile path) := housed_of_completedPath hpath
  obtain ⟨dirs, rest, hp⟩ := hhoused.place
  refine ⟨fun hleading => ?_, ?_, fun hleading => ?_⟩
  · obtain ⟨name, tail, rfl⟩ := ht
    rw [hp, hlayout] at hleading
    simp only [originRoot, StorageLayout.new, List.append_assoc, List.cons_append, List.nil_append] at hleading
    have hcons := (List.prefix_append_right_inj root).1 hleading
    exact absurd (List.cons_prefix_cons.1 hcons).1 (by decide)
  · rw [hp]
    simp
  · rw [hp, hlayout] at hleading
    simp only [originRoot, StorageLayout.new, List.append_assoc, List.cons_append, List.nil_append] at hleading
    have hcons := (List.prefix_append_right_inj root).1 hleading
    exact absurd (List.cons_prefix_cons.1 hcons).1 (by decide)

/-- A body that arrives whole, with the declared hash, is received exactly when it stays within the limit, no directory has the name of its
file, its event is valid for the hash, and the hash is cleared. -/
theorem receiveUpload_decides (h : Healthy env) {root temp : Path} (hlayout : cfg.storage = .new root) (ht : Scratch cfg.storage temp)
    (hfree : cfg.featurePaidUpload = false) (headers : Headers) {frames : List Bytes} {sha256 : Str} {authorized : Authorized}
    (hsha : cfg.libs.sha256Hex frames.flatten = sha256) (hfits : frames.flatten.length ≤ u64Max)
    (hv : BlobName.isValidHash sha256 = true) (ho : authorized.operation = .upload)
    (hauth : Auth.validateUploadAuth authorized.event sha256 = .ok ()) (hparent : s.disk.parentExists temp = true) :
    Decides (exec cfg t) (· = env) (receiveUpload cfg headers (frames.map .ok) authorized sha256 temp)
      (temp ∉ s.disk.dirs ∧ frames.flatten.length ≤ cfg.maxBlobSizeBytes ∧ Unquarantined cfg.storage s.disk sha256)
      (fun r s' => r = (sha256, frames.flatten.length) ∧ Beside cfg.storage temp s s' ∧ ∃ ino, s'.disk.names.lookup temp = some ino) s := by
  have hstream := (@Upload.streamToTempFile_decides cfg t env s h frames temp (Upload.clientUploadLimit cfg) hfits hparent).and
    ((@Upload.streamToTempFile_yields cfg t s (frames.map .ok) temp (Upload.clientUploadLimit cfg)).within
      fun _ _ => trivial)
  have hbeside : (Upload.streamToTempFile cfg.libs (frames.map .ok) temp (Upload.clientUploadLimit cfg)).run.Yields (exec cfg t) (· = env)
      (fun _ s' => True ∧ Beside cfg.storage temp s s') s :=
    (Upload.streamToTempFile_uses cfg.libs (frames.map .ok) temp (Upload.clientUploadLimit cfg)).yields
      (fun r e s' hr hs' => hs'.streams hr e) ⟨rfl, rfl, fun _ _ => Iff.rfl, fun _ _ => rfl⟩
  refine Decides.bind (hstream.and hbeside) (fun hand => ⟨hand.1, hand.2.1⟩) ?_
  rintro r s₁ ⟨hdirs, hle⟩ ⟨⟨hr, hfile⟩, -, hs₁⟩
  obtain ⟨_, _, ino, hino⟩ := hfile r rfl
  rw [hsha] at hr
  subst hr
  have hcleared : Unquarantined cfg.storage s₁.disk sha256 ↔ Unquarantined cfg.storage s.disk sha256 := by
    rw [hlayout] at hs₁ ht ⊢
    exact hs₁.cleared ht sha256
  refine decides_ofResult_bind (fun error he => ?_) fun _ _ => ?_
  · rw [ensureUploadHashMatches, if_pos rfl] at he
    nomatch he
  refine Decides.bind (bind_decides ho sha256) (fun _ => hauth) ?_
  rintro _ s₂ - rfl
  refine Decides.bind (ensureNotQuarantined_decides h hv) (fun hand => hcleared.2 hand.2.2) ?_
  rintro _ s₃ hclear rfl
  refine Decides.bind (charge_decides headers frames.flatten.length hfree) (fun _ => trivial) ?_
  rintro _ s₄ - rfl
  exact decides_pure ⟨hdirs, hle, hcleared.1 hclear⟩ ⟨rfl, hs₁, ino, hino.name⟩

/-- An upload of a body that arrives whole, with the declared hash and of the declared size, is accepted exactly when it is admitted and can
be stored. -/
theorem uploadFile_decides (h : Healthy env) {root : Path} (hlayout : cfg.storage = .new root) (hfree : cfg.featurePaidUpload = false)
    {headers : Headers} {frames : List Bytes} {sha256 value : Str} (hsha : Http.str headers "x-sha-256" = some sha256)
    (hvalue : Http.str headers "content-length" = some value) (hsize : parseU64 value = some frames.flatten.length)
    (hbody : cfg.libs.sha256Hex frames.flatten = sha256) :
    Decides (exec cfg t) (· = env) (uploadFile cfg headers (frames.map .ok))
      (Admitted cfg s env headers sha256 frames.flatten.length ∧ Storable cfg s headers sha256) (fun _ _ => True) s := by
  refine Decides.bind (authorize_decides headers .upload) (fun hand => ?_) ?_
  · obtain ⟨event, hpermitted, _⟩ := hand.1.event
    exact ⟨event, hpermitted⟩
  rintro authorized s₁ - ⟨hpermitted, ho, hs₁⟩
  have hdeclared : extractDeclaredUploadHash headers = (validateSha256Format sha256).map fun _ => sha256 := by
    unfold Http.str at hsha
    obtain ⟨value, hget, hstr⟩ := Option.bind_eq_some_iff.1 hsha
    simp only [extractDeclaredUploadHash, hget, hstr]
    cases validateSha256Format sha256 <;> rfl
  refine decides_ofResult_bind (fun error he hand => ?_) fun declared hok => ?_
  · rw [hdeclared, validateSha256Format, if_pos hand.1.valid] at he
    nomatch he
  have hv : BlobName.isValidHash sha256 = true := by
    by_contra hinvalid
    rw [hdeclared, validateSha256Format, if_neg hinvalid] at hok
    nomatch hok
  obtain rfl : sha256 = declared := by
    rw [hdeclared, validateSha256Format, if_pos hv] at hok
    exact Except.ok.inj hok
  refine decides_ofResult_bind (fun error he hand => ?_) fun u hauth => ?_
  · obtain ⟨event, hpermitted', hauth⟩ := hand.1.event
    rw [hpermitted.unique hpermitted'] at he
    exact nomatch he.symm.trans hauth
  have hclock : s₁.clock = s.clock := by rw [hs₁]
  refine Decides.bind (extractExpiration_decides headers) (fun hand => ?_) ?_
  · obtain ⟨expiration, path, hexpiration, hresolve, _⟩ := hand.2.place
    exact ⟨expiration, hexpiration, hclock ▸ hresolve⟩
  rintro expiration s₂ - ⟨⟨hexpiration, hresolve⟩, rfl⟩
  have hroom : HasRoom cfg s₂ env.fs.available frames.flatten.length ↔ HasRoom cfg s env.fs.available frames.flatten.length := by
    rw [hs₁]
    exact ⟨fun hr => ⟨hr.size, hr.quota, hr.reserve⟩, fun hr => ⟨hr.size, hr.quota, hr.reserve⟩⟩
  have hdeclaredSize : declaredSize cfg headers = frames.flatten.length := by
    simp only [declaredSize, hvalue, Option.bind_some, hsize, Option.getD_some]
  rw [hdeclaredSize]
  refine Decides.bind (ensureStorageCapacity_decides h _) (fun hand => hroom.2 hand.1.room) ?_
  rintro _ s₃ hroom₃ rfl
  have hadmitted : Admitted cfg s env headers sha256 frames.flatten.length := ⟨hv, ⟨authorized.event, hpermitted, hauth⟩, hroom.1 hroom₃⟩
  have hobstructed : s₃.disk.obstructed cfg.storage.temp = s.disk.obstructed cfg.storage.temp := by rw [hs₁]
  have hdropLast : (uploadTemp cfg s).dropLast = cfg.storage.temp := List.dropLast_concat
  refine Decides.bind (createDirAll_decides h _ cfg.storage.temp) (fun hand => ?_) ?_
  · rw [hobstructed, ← hdropLast]
    exact hand.2.temporary.unobstructed
  rintro _ s₄ hclear₄ ⟨hindex₄, hstatus₄, huuids₄, hnames₄, hdirs₄⟩
  refine Decides.lift_bind (Q := fun temp s₅ => temp = uploadTemp cfg s ∧ Beside cfg.storage temp s s₅ ∧
    (∀ q, q ∈ s₅.disk.dirs ↔ q ∈ s.disk.dirs ∨ q <+: cfg.storage.temp)) ?_ ?_
  · intro e _
    have huuids : s₄.uuids = s.uuids := by rw [huuids₄, hs₁]
    have hdirs : ∀ q, q ∈ s₄.disk.dirs ↔ q ∈ s.disk.dirs ∨ q <+: cfg.storage.temp := by rw [hs₁] at hdirs₄; exact hdirs₄
    refine ⟨by rw [uploadTemp, ← huuids]; rfl, ⟨by rw [hs₁] at hindex₄; exact hindex₄, by rw [hs₁] at hstatus₄; exact hstatus₄, ?_, ?_⟩, hdirs⟩
    · exact fun p hp => (hdirs p).trans (or_iff_left hp)
    · intro p _
      show s₄.disk.hasFile p = s.disk.hasFile p
      rw [Disk.hasFile, hnames₄, hs₁]
      rfl
  rintro _ s₅ ⟨rfl, hbeside₅, hdirs₅⟩
  have ht : Scratch cfg.storage (uploadTemp cfg s) := ⟨_, [], rfl⟩
  obtain ⟨path, hpath⟩ : ∃ path, uploadPath cfg headers sha256 expiration = .ok path := by
    rw [uploadPath, completedPath, BlobName.fanOut_eq hv, BlobName.name_eq hv]
    exact ⟨_, rfl⟩
  obtain ⟨hbelow, hnil, haside⟩ := uploadPath_beside hlayout hpath ht
  have hne : uploadTemp cfg s ≠ path := fun he => hbelow (he ▸ List.prefix_refl _)
  have hcleared : ∀ {s'}, Beside cfg.storage (uploadTemp cfg s) s s' → (Unquarantined cfg.storage s'.disk sha256 ↔ Unquarantined cfg.storage s.disk sha256) := by
    intro s' hs'
    rw [hlayout] at hs' ht ⊢
    exact hs'.cleared ht sha256
  have htemp : uploadTemp cfg s ∈ s₅.disk.dirs ↔ uploadTemp cfg s ∈ s.disk.dirs := by
    refine hbeside₅.dirs _ fun hleading => ?_
    have hlen := hleading.length_le
    rw [uploadTemp, List.length_append] at hlen
    exact absurd hlen (Nat.not_succ_le_self _)
  have hparent : s₅.disk.parentExists (uploadTemp cfg s) = true := by
    simp only [Disk.parentExists, uploadTemp, List.dropLast_concat, Bool.and_eq_true]
    exact ⟨by simp, List.contains_iff_mem.2 ((hdirs₅ _).2 (.inr (List.prefix_refl _)))⟩
  refine Decides.bind (withTemp_decides (receiveUpload_decides h hlayout ht hfree headers hbody (parseU64_le hsize) hv ho hauth hparent))
    (fun hand => ⟨mt htemp.1 hand.2.temporary.vacant, hand.1.room.size, (hcleared hbeside₅).2 hand.2.cleared⟩) ?_
  rintro _ s₆ ⟨htemp₅, _, hcleared₅⟩ ⟨rfl, hbeside₆, ino, hino⟩
  have hbeside := hbeside₅.trans hbeside₆
  have hplace : Storable cfg s headers sha256 ↔ s.index.held sha256 = true ∨ Placeable cfg s path := by
    refine ⟨fun hstorable => ?_, fun hplace => ?_⟩
    · obtain ⟨expiration', path', hexpiration', _, hpath', hplace⟩ := hstorable.place
      obtain rfl : expiration = expiration' := Except.ok.inj (hexpiration.symm.trans hexpiration')
      obtain rfl : path = path' := Except.ok.inj (hpath.symm.trans hpath')
      exact hplace
    · have htemporary : Accessible s.disk (uploadTemp cfg s) := ⟨mt htemp.2 htemp₅, by rw [hdropLast, ← hobstructed]; exact hclear₄⟩
      exact ⟨htemporary, (hcleared hbeside₅).1 hcleared₅, expiration, path, hexpiration, hclock ▸ hresolve, hpath, hplace⟩
  refine Decides.bind (publishBlob_decides h ⟨sha256, .upload, _, _, _, _⟩ rfl hv hino hne hnil hpath) ?_
    fun _ _ hand _ => decides_pure ⟨hadmitted, hplace.2 ?_⟩ trivial
  · intro hand
    refine ⟨(hcleared hbeside).2 hand.2.cleared, ?_⟩
    rw [hbeside.index, hbeside.placeable haside hbelow]
    exact hplace.1 hand.2
  · have hand' := hand.2
    rw [hbeside.index, hbeside.placeable haside hbelow] at hand'
    exact hand'

end Handlers

end Almond
