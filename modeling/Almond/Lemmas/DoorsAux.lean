import Almond.Conc.Calls
import Almond.Lemmas.HandlersAux
import Almond.Lemmas.IntakeAux

/-! # The doors through which a blob comes in

Each door receives a blob into a temporary file and calls the publication with what the file holds. -/

namespace Almond

open Conc

/-! ## What the parts of a door lead to -/

/-- A request that checks leaves the disk. -/
theorem disk_exec_of_checks {cfg : Config} {t : Tid} {r : Req} (h : r.Checks) (e : Env) (s : AppState) :
    (exec cfg t r e s).2.disk = s.disk := by
  cases r with
  | receiveToken token =>
    simp only [exec]
    split <;> rfl
  | consumeReplay eventId expiresAt now => rfl
  | _ => exact congrArg AppState.disk (exec_of_inspects h)

/-- The answer to a request that prepares is foreseen. -/
theorem foresees_of_prepares {cfg : Config} (t : Tid) {r : Req} (h : r.Prepares cfg.storage) (e : Env) (s : AppState) :
    r.Foresees cfg.storage (exec cfg t r e s).1 := by
  cases r with
  | reserveTemp dir namePrefix extension =>
    have hdir : dir = cfg.storage.temp := h
    exact ⟨_, [], by rw [← hdir]; rfl⟩
  | sessions r => exact h.elim
  | _ => exact trivial

/-- The entries and the sessions are as they were. -/
structure Undisturbed (s s' : AppState) : Prop where
  index : s'.index = s.index
  sessions : s'.sessions = s.sessions

/-- One part after another. -/
theorem Undisturbed.trans {s s' s'' : AppState} (h : Undisturbed s s') (h' : Undisturbed s' s'') : Undisturbed s s'' :=
  ⟨h'.index.trans h.index, h'.sessions.trans h.sessions⟩

/-- What prepares leaves the entries and the sessions. -/
theorem undisturbed_of_prepares {cfg : Config} (t : Tid) {r : Req} (h : r.Prepares cfg.storage) (e : Env) (s : AppState) :
    Undisturbed s (exec cfg t r e s).2 := by
  refine ⟨index_exec_of_never h.receives.never e s, ?_⟩
  cases r with
  | sessions r => exact h.elim
  | receiveToken token =>
    simp only [exec]
    split <;> rfl
  | dropTemp p =>
    simp only [exec]
    split <;> rfl
  | _ => rfl

section

variable {cfg : Config} {t : Tid} {s : AppState} {α : Type} {past : List (Task.Event Req Resp)}
  {P : List (Task.Event Req Resp) → Req → AppState → Prop}

/-- A path is the name of a file with some contents, on a disk. -/
def DiskHas (p : Path) (bytes : Bytes) (d : Disk) : Prop :=
  (d.file? p).map Node.data = some bytes

/-- A part of a handler that publishes nothing leads to its results, and disturbs nothing. -/
theorem leads_of_publishes {R : α → Prop} {p : Async α} (hp : Task.Publishes cfg (fun _ => False) R p)
    (hP : ∀ past r s, r.Prepares cfg.storage → P past r s) :
    p.Leads (exec cfg t) P (fun a _ s' => R a ∧ Undisturbed s s') past s :=
  hp.leads (I := Undisturbed s) (fun _ ⟨_, _, _, h, _⟩ => h) (fun past r s hr _ => hP past r s hr)
    (fun _ e s₁ hr h₁ => ⟨foresees_of_prepares t hr e s₁, h₁.trans (undisturbed_of_prepares t hr e s₁)⟩) ⟨rfl, rfl⟩

/-- A part that checks keeps what holds of the disk. -/
theorem leads_of_checks {I : Disk → Prop} {p : Async α} (hp : p.Uses Req.Checks) (hP : ∀ past r s, r.Prepares cfg.storage → P past r s)
    (hI : I s.disk) : p.Leads (exec cfg t) P (fun _ _ s' => I s'.disk) past s := by
  have hkeep : p.Yields (exec cfg t) (fun _ => True) (fun _ s' => True ∧ I s'.disk) s :=
    Task.Within.yields (I := fun s' : AppState => I s'.disk) hp (fun r e s hr hs => (disk_exec_of_checks hr e s).symm ▸ hs) hI
  exact (Task.Yields.leads hp hkeep fun past r s hr => hP past r s hr.prepares).mono fun _ _ _ h => h.2.2

/-- A part that reads keeps what holds of the disk. -/
theorem leads_of_inspects {I : Disk → Prop} {p : Async α} (hp : p.Uses Req.inspects)
    (hP : ∀ past r s, r.Prepares cfg.storage → P past r s) (hI : I s.disk) :
    p.Leads (exec cfg t) P (fun _ _ s' => I s'.disk) past s :=
  leads_of_checks (hp.mono (fun _ => Req.inspects.checks) fun _ _ => trivial) hP hI

/-- A body that is streamed to a temporary file leads to a file of what was received. -/
theorem streamToTempFile_leads (body : Body) {temp : Path} (ht : Scratch cfg.storage temp) (maxBytes : Nat)
    (hP : ∀ past r s, r.Prepares cfg.storage → P past r s) :
    (Upload.streamToTempFile cfg.libs body temp maxBytes).run.Leads (exec cfg t) P (fun x _ s' => ∀ r, x = .ok r →
      r = (cfg.libs.sha256Hex (receivedBytes body), (receivedBytes body).length) ∧ (receivedBytes body).length ≤ maxBytes ∧
        s'.bytesAt (.localFile temp) = some (receivedBytes body)) past s := by
  refine ((leads_of_publishes (Handlers.streamToTempFile_publishes body maxBytes ht) hP).yields
    (Upload.streamToTempFile_yields body temp maxBytes)).mono fun x _ s' h r hr => ?_
  obtain ⟨he, hl, ino, hf⟩ := h.2 r hr
  exact ⟨he, hl, hf.bytesAt⟩

/-- A response that is streamed to a temporary file leads to a file of what was received. -/
theorem streamResponseToTempFile_leads (response : Fetched) {temp : Path} (ht : Scratch cfg.storage temp) (maxSizeBytes : Nat)
    (hP : ∀ past r s, r.Prepares cfg.storage → P past r s) :
    (Handlers.streamResponseToTempFile cfg.libs response temp maxSizeBytes).run.Leads (exec cfg t) P (fun x _ s' => ∀ r, x = .ok r →
      r = (cfg.libs.sha256Hex (receivedBytes response.frames), (receivedBytes response.frames).length) ∧
        (receivedBytes response.frames).length ≤ maxSizeBytes ∧
        s'.bytesAt (.localFile temp) = some (receivedBytes response.frames)) past s := by
  refine ((leads_of_publishes (Handlers.streamResponseToTempFile_publishes response maxSizeBytes ht) hP).yields
    (Handlers.streamResponseToTempFile_yields response temp maxSizeBytes)).mono fun x _ s' h r hr => ?_
  obtain ⟨he, hl, ino, hf⟩ := h.2 r hr
  exact ⟨he, hl, hf.bytesAt⟩

/-- What an upload receives: the hash and the size of its body, which is in the temporary file. -/
theorem receiveUpload_leads (headers : Headers) (body : Body) (authorized : Authorization.Authorized) (declaredSha256 : Str)
    {temp : Path} (ht : Scratch cfg.storage temp) (hP : ∀ past r s, r.Prepares cfg.storage → P past r s) :
    (Handlers.receiveUpload cfg headers body authorized declaredSha256 temp).run.Leads (exec cfg t) P (fun x _ s' => ∀ r, x = .ok r →
      r = (cfg.libs.sha256Hex (receivedBytes body), (receivedBytes body).length) ∧
        (receivedBytes body).length ≤ cfg.maxBlobSizeBytes ∧ s'.bytesAt (.localFile temp) = some (receivedBytes body)) past s := by
  refine (streamToTempFile_leads body ht _ hP).run_bind (fun _ _ _ _ => nofun) fun received past₁ s₁ h₁ => ?_
  obtain ⟨rfl, hl, hf⟩ := h₁ received rfl
  refine Task.Leads.run_bind (Q := fun _ _ s' => DiskHas temp (receivedBytes body) s'.disk) (by exact hf)
    (fun _ _ _ _ => nofun) fun _ past₂ s₂ hf₂ => ?_
  refine Task.Leads.run_bind (leads_of_checks (I := DiskHas temp (receivedBytes body)) (Authorization.bind_uses authorized declaredSha256) hP hf₂) (fun _ _ _ _ => nofun)
    fun _ past₃ s₃ hf₃ => ?_
  refine Task.Leads.run_bind (leads_of_inspects (I := DiskHas temp (receivedBytes body))
    (FileStorage.ensureNotQuarantined_uses cfg.storage _) hP hf₃) (fun _ _ _ _ => nofun)
    fun _ past₄ s₄ hf₄ => ?_
  refine Task.Leads.run_bind (leads_of_checks (I := DiskHas temp (receivedBytes body)) (Cashu.charge_uses cfg headers .upload _) hP hf₄) (fun _ _ _ _ => nofun)
    fun _ past₅ s₅ hf₅ => ?_
  rintro r ⟨⟩
  exact ⟨rfl, hl, hf₅⟩

/-- What a mirror receives: a response of the hash it expects, which is in the temporary file. -/
theorem receiveMirror_leads (headers : Headers) (response : Fetched) (expectedSha256 : Str) {temp : Path}
    (ht : Scratch cfg.storage temp) (hP : ∀ past r s, r.Prepares cfg.storage → P past r s) :
    (Handlers.receiveMirror cfg headers response expectedSha256 temp).run.Leads (exec cfg t) P (fun x _ s' => ∀ size, x = .ok size →
      cfg.libs.sha256Hex (receivedBytes response.frames) = expectedSha256 ∧ size = (receivedBytes response.frames).length ∧
        (receivedBytes response.frames).length ≤ Upload.upstreamFetchLimit cfg ∧
        s'.bytesAt (.localFile temp) = some (receivedBytes response.frames)) past s := by
  refine (streamResponseToTempFile_leads response ht _ hP).run_bind (fun _ _ _ _ => nofun) fun received past₁ s₁ h₁ => ?_
  obtain ⟨rfl, hl, hf⟩ := h₁ received rfl
  by_cases hm : cfg.libs.sha256Hex (receivedBytes response.frames) ≠ expectedSha256
  · simp only [if_pos hm]
    exact fun _ h => nomatch h
  · simp only [if_neg hm]
    refine Task.Leads.run_bind (leads_of_inspects (I := DiskHas temp (receivedBytes response.frames))
      (FileStorage.ensureNotQuarantined_uses cfg.storage _) hP hf) (fun _ _ _ _ => nofun)
      fun _ past₂ s₂ hf₂ => ?_
    refine Task.Leads.run_bind (leads_of_checks (I := DiskHas temp (receivedBytes response.frames))
      (Cashu.charge_uses cfg headers .mirror _) hP hf₂) (fun _ _ _ _ => nofun)
      fun _ past₃ s₃ hf₃ => ?_
    rintro size ⟨⟩
    exact ⟨of_not_not hm, rfl, hl, hf₃⟩

/-- Work with a temporary blob leads to what the work leads to, when it succeeds. -/
theorem withTemp_leads {temp : Path} {work : AsyncResult α} {Q : α → List (Task.Event Req Resp) → AppState → Prop}
    (hP : ∀ past s, P past (.dropTemp temp) s)
    (hw : work.run.Leads (exec cfg t) P (fun x past s => ∀ a, x = .ok a → Q a past s) past s) :
    (Handlers.withTemp temp work).run.Leads (exec cfg t) P (fun x past s => ∀ a, x = .ok a → Q a past s) past s := by
  refine Task.Leads.run_bind (Q := fun x past s => ∀ y, x = .ok y → ∀ a, y = .ok a → Q a past s)
    (hw.bind fun x past s hx y hy => ?_) (fun _ _ _ _ => nofun) ?_
  · cases hy
    exact hx
  · intro x past s hx
    cases x with
    | ok a => exact hx _ rfl
    | error e => exact ⟨hP _ _, fun _ => nofun⟩

end

/-! ## The doors -/

/-- A publication of a temporary file that holds some bytes, with their hash and their size, which is within a limit. -/
def PublishesBytes (cfg : Config) (limit : Nat) (bytes : Bytes) (p : Async (AppResult FileStorage.StoredBlob)) (s : AppState) : Prop :=
  ∃ temp publication, p = (FileStorage.publishBlob cfg temp publication).run ∧ s.bytesAt (.localFile temp) = some bytes ∧
    publication.sha256 = cfg.libs.sha256Hex bytes ∧ publication.size = bytes.length ∧ bytes.length ≤ limit

/-- The most that is fetched: both limits hold. -/
def fetchLimit (cfg : Config) : Nat :=
  min cfg.maxBlobSizeBytes cfg.maxUpstreamDownloadSizeBytes

/-- The limit the code computes is the smaller one. -/
theorem upstreamFetchLimit_eq (cfg : Config) : Upload.upstreamFetchLimit cfg = fetchLimit cfg := by
  unfold Upload.upstreamFetchLimit fetchLimit
  split <;> omega

/-- A publication of the bytes of a response that was fetched. -/
def PublishesFetched (cfg : Config) (past : List (Task.Event Req Resp)) (p : Async (AppResult FileStorage.StoredBlob)) (s : AppState) :
    Prop :=
  ∃ url response, ⟨.fetchFromUrl url, .ok response⟩ ∈ past ∧
    PublishesBytes cfg (fetchLimit cfg) (receivedBytes response.frames) p s

/-- A request that changes no entry. -/
def Quiet (_ : List (Task.Event Req Resp)) (r : Req) (_ : AppState) : Prop :=
  r.Never

/-- What prepares changes no entry. -/
theorem quiet_of_prepares {layout : StorageLayout} (past : List (Task.Event Req Resp)) (r : Req) (s : AppState)
    (h : r.Prepares layout) : Quiet past r s :=
  h.receives.never

section

variable {cfg : Config} {t : Tid} {s : AppState} {past : List (Task.Event Req Resp)}

open Handlers

/-- A request of a door, followed by more. -/
theorem request_calls {ε α : Type} {S : List (Task.Event Req Resp) → Async (AppResult FileStorage.StoredBlob) → AppState → Prop}
    {P : List (Task.Event Req Resp) → Req → AppState → Prop} {r : Req} (hr : P past r s) {f : Resp r → ExceptT ε Async α}
    (hf : ∀ e, Task.Calls (exec cfg t) P S (f (exec cfg t r e s).1).run (⟨r, (exec cfg t r e s).1⟩ :: past) (exec cfg t r e s).2) :
    Task.Calls (exec cfg t) P S ((liftM (request r) : ExceptT ε Async (Resp r)) >>= f).run past s :=
  .request hr hf

/-- A file directly below the temporary directory is a scratch file. -/
theorem scratch_of_eq {layout : StorageLayout} {temp : Path} (h : ∃ name, temp = layout.temp ++ [name]) : Scratch layout temp :=
  h.imp fun _ hn => ⟨[], hn⟩

/-- A door names its temporary file below the temporary directory. -/
theorem reserveTemp_calls {ε α : Type} {S : List (Task.Event Req Resp) → Async (AppResult FileStorage.StoredBlob) → AppState → Prop}
    {P : List (Task.Event Req Resp) → Req → AppState → Prop} (hP : ∀ past r s, r.Prepares cfg.storage → P past r s) (namePrefix : Str)
    (extension : Option Str) {f : Path → ExceptT ε Async α}
    (hf : ∀ temp past' s', (∃ name, temp = cfg.storage.temp ++ [name]) → past <:+ past' → s'.disk = s.disk →
      Task.Calls (exec cfg t) P S (f temp).run past' s') :
    Task.Calls (exec cfg t) P S
      ((liftM (request (.reserveTemp cfg.storage.temp namePrefix extension)) : ExceptT ε Async Path) >>= f).run past s := by
  have hr : (Req.reserveTemp cfg.storage.temp namePrefix extension).Prepares cfg.storage := Eq.refl cfg.storage.temp
  refine request_calls (hP _ _ _ hr) fun e => ?_
  exact hf _ _ (exec cfg t (.reserveTemp cfg.storage.temp namePrefix extension) e s).2 ⟨_, rfl⟩ (List.suffix_cons ..) rfl

/-- A capacity check that succeeds found room. -/
theorem ensureStorageCapacity_yields (bytes : Nat) :
    (FileStorage.ensureStorageCapacity cfg bytes).run.Yields (exec cfg t) Anything
      (fun x _ => ∀ u, x = .ok u → FileStorage.overQuota cfg s.index.stats bytes = false) s := by
  unfold FileStorage.ensureStorageCapacity
  by_cases hlong : bytes > cfg.maxBlobSizeBytes
  · simp only [if_pos hlong]
    exact fun _ h => nomatch h
  · simp only [if_neg hlong]
    intro e _
    have hstats : (exec cfg t (.index .stats) e s).1 = s.index.stats := rfl
    rw [hstats]
    show Task.Yields _ _ (ExceptT.run (if FileStorage.overQuota cfg s.index.stats bytes = true then _ else _)) _ _
    cases hq : FileStorage.overQuota cfg s.index.stats bytes with
    | true => exact fun _ h => nomatch h
    | false => exact (Task.yields_trivial _).mono fun _ _ _ _ _ => rfl

/-- An upload publishes the body it received, when there was room for the size it declared. -/
theorem uploadFile_calls (headers : Headers) (body : Body) :
    (uploadFile cfg headers body).run.Calls (exec cfg t) (fun _ r _ => r.Prepares cfg.storage)
      (fun _ p s' => PublishesBytes cfg cfg.maxBlobSizeBytes (receivedBytes body) p s' ∧
        FileStorage.overQuota cfg s.index.stats (declaredSize cfg headers) = false) past s := by
  have hP : ∀ (_ : List (Task.Event Req Resp)) (r : Req) (_ : AppState), r.Prepares cfg.storage → r.Prepares cfg.storage :=
    fun _ _ _ h => h
  unfold uploadFile
  refine (leads_of_publishes (authorize_publishes headers .upload) hP).calls_run_bind fun authorized _ _ h₁ => ?_
  refine (leads_of_publishes publishes_ofResult hP).calls_run_bind fun declaredSha256 _ _ h₂ => ?_
  refine (leads_of_publishes publishes_ofResult hP).calls_run_bind fun _ _ _ h₃ => ?_
  refine (leads_of_publishes (extractExpiration_publishes headers) hP).calls_run_bind fun expiration _ s₄ h₄ => ?_
  have hindex : s₄.index = s.index := (h₁.2.trans (h₂.2.trans (h₃.2.trans h₄.2))).index
  refine ((leads_of_publishes (ensureStorageCapacity_publishes _) hP).yields (ensureStorageCapacity_yields _)).calls_run_bind
    fun _ _ _ h₅ => ?_
  have hroom := h₅.2 _ rfl
  rw [hindex] at hroom
  refine (leads_of_publishes ensureTempDir_publishes hP).calls_run_bind fun _ past s _ => ?_
  refine reserveTemp_calls hP _ _ fun temp _ _ hname _ _ => ?_
  have ht := scratch_of_eq hname
  have hdrop : (Req.dropTemp temp).Prepares cfg.storage := ht
  refine (withTemp_leads (fun _ _ => hdrop) (receiveUpload_leads headers body authorized declaredSha256 ht hP)).calls_run_bind
    fun received past s h => ?_
  obtain ⟨rfl, hl, hf⟩ := h received rfl
  refine .part ⟨⟨_, _, rfl, hf, rfl, rfl, hl⟩, hroom⟩ fun x _ _ => ?_
  cases x <;> exact trivial

/-- A fetch puts its response on record. -/
theorem fetch_leads {P : List (Task.Event Req Resp) → Req → AppState → Prop} (hP : ∀ past r s, r.Prepares cfg.storage → P past r s)
    (url : Str) :
    (ExceptT.mk (request (.fetchFromUrl url)) : AsyncResult Fetched).run.Leads (exec cfg t) P
      (fun x past' _ => ∀ response, x = .ok response → ⟨.fetchFromUrl url, .ok response⟩ ∈ past') past s := by
  refine ⟨hP _ _ _ trivial, fun e response he => ?_⟩
  rw [← he]
  exact List.mem_cons_self

/-- A mirror publishes what it fetched. -/
theorem mirrorBlob_calls (headers : Headers) (body : Body) :
    (mirrorBlob cfg headers body).run.Calls (exec cfg t) Quiet (PublishesFetched cfg) past s := by
  have hP := @quiet_of_prepares cfg.storage
  unfold mirrorBlob
  refine (leads_of_publishes (authorize_publishes headers .mirror) hP).calls_run_bind fun authorized _ _ _ => ?_
  refine (leads_of_publishes publishes_ofResult hP).calls_run_bind fun _ _ _ _ => ?_
  cases Auth.extractSha256FromEvent authorized.event with
  | none => exact .ret
  | some expectedSha256 =>
    refine (leads_of_publishes (extractExpiration_publishes headers) hP).calls_run_bind fun expiration _ _ _ => ?_
    refine (leads_of_publishes (collectBody_publishes _ body []) hP).calls_run_bind fun bytes _ _ _ => ?_
    refine (leads_of_publishes publishes_ofResult hP).calls_run_bind fun field _ _ _ => ?_
    cases field with
    | none => exact .ret
    | some url =>
      refine (fetch_leads hP url).calls_run_bind fun response past₁ _ hfetch => ?_
      have hmem := hfetch response rfl
      refine (leads_of_publishes publishes_ofResult hP).suffix.calls_run_bind fun _ past₂ _ h₂ => ?_
      refine (leads_of_publishes ensureTempDir_publishes hP).suffix.calls_run_bind fun _ past₃ _ h₃ => ?_
      refine reserveTemp_calls hP _ _ fun temp past₄ s₄ hname h₄ _ => ?_
      have ht := scratch_of_eq hname
      refine (withTemp_leads (fun _ _ => hP _ _ _ ht)
        (receiveMirror_leads headers response expectedSha256 ht hP)).suffix.calls_run_bind fun bodySize past₅ s₅ h₅ => ?_
      obtain ⟨hhash, rfl, hl, hf⟩ := h₅.1 bodySize rfl
      have hsuffix : past₁ <:+ past₅ := h₂.2.trans (h₃.2.trans (h₄.trans h₅.2))
      refine .part ⟨url, response, hsuffix.mem hmem, _, _, rfl, hf, hhash.symm, rfl, upstreamFetchLimit_eq cfg ▸ hl⟩
        fun x _ _ => ?_
      cases x <;> exact trivial

/-- A task whose error becomes a text leads to what it led to. -/
theorem orText_leads {α : Type} {P : List (Task.Event Req Resp) → Req → AppState → Prop}
    {Q : α → List (Task.Event Req Resp) → AppState → Prop} (message : String) {p : AsyncResult α}
    (hp : p.run.Leads (exec cfg t) P (fun x past s => ∀ a, x = .ok a → Q a past s) past s) :
    (Hls.orText message p).run.Leads (exec cfg t) P (fun x past s => ∀ a, x = .ok a → Q a past s) past s := by
  refine Task.Leads.bind hp fun x past s hx => ?_
  cases x with
  | error _ => exact fun _ h => nomatch h
  | ok a =>
    rintro _ ⟨⟩
    exact hx a rfl

/-- A part whose error becomes a text leads somewhere. -/
theorem orText_leads_of_publishes {α : Type} {P : List (Task.Event Req Resp) → Req → AppState → Prop}
    (hP : ∀ past r s, r.Prepares cfg.storage → P past r s) (message : String) {p : AsyncResult α}
    (hp : Task.Publishes cfg (fun _ => False) (fun _ => True) p.run) :
    (Hls.orText message p).run.Leads (exec cfg t) P (fun _ past' _ => past <:+ past') past s :=
  (orText_leads (Q := fun _ _ _ => True) message ((leads_of_publishes hp hP).mono fun _ _ _ _ _ _ => trivial)).suffix.mono
    fun _ _ _ h => h.2

/-- A mirrored segment publishes what it received. -/
theorem receiveSegment_calls (response : Fetched) (reference : Hls.HlsReference) (extension : Option Str) {temp : Path}
    (ht : Scratch cfg.storage temp) {url : Str} (hmem : ⟨.fetchFromUrl url, .ok response⟩ ∈ past) :
    (Hls.receiveSegment cfg response reference extension temp).run.Calls (exec cfg t) Quiet (PublishesFetched cfg) past s := by
  have hP := @quiet_of_prepares cfg.storage
  have hdrop : ∀ {past s} (message : String), Task.Calls (exec cfg t) Quiet (PublishesFetched cfg)
      ((do
        request (.dropTemp temp)
        throw message : ExceptT String Async Bool)).run past s := fun {past s} message =>
    .request (hP past _ s ht) fun _ => .ret
  refine (streamResponseToTempFile_leads response ht _ hP).suffix.calls_lift_bind fun x past₁ s₁ h₁ => ?_
  cases x with
  | error error => exact hdrop _
  | ok received =>
    obtain ⟨rfl, hl, hf⟩ := h₁.1 received rfl
    by_cases hm : cfg.libs.sha256Hex (receivedBytes response.frames) ≠ reference.sha256
    · simp only [if_pos hm]
      exact hdrop _
    · simp only [if_neg hm]
      refine .lift_part ⟨url, response, h₁.2.mem hmem, _, _, rfl, hf, (of_not_not hm).symm, rfl, upstreamFetchLimit_eq cfg ▸ hl⟩
        fun x _ _ => ?_
      cases x <;> exact trivial

/-- A mirrored reference publishes what it fetched. -/
theorem mirrorSingleReference_calls (originBaseUrl : Str) (reference : Hls.HlsReference) :
    (Hls.mirrorSingleReference cfg originBaseUrl reference).run.Calls (exec cfg t) Quiet (PublishesFetched cfg) past s := by
  have hP := @quiet_of_prepares cfg.storage
  unfold Hls.mirrorSingleReference
  refine .request (hP past (.index (.contains reference.sha256)) s trivial) fun e => ?_
  have hcontains : (exec cfg t (.index (.contains reference.sha256)) e s).1 = s.index.contains reference.sha256 := rfl
  rw [hcontains]
  cases s.index.contains reference.sha256 with
  | true => exact .ret
  | false =>
    refine (orText_leads _ (fetch_leads hP _)).calls_run_bind fun response past₁ _ hfetch => ?_
    have hmem := hfetch response rfl
    refine (orText_leads_of_publishes hP _ (ensureStorageCapacity_publishes _)).calls_run_bind fun _ past₂ _ h₂ => ?_
    refine (orText_leads_of_publishes hP _ ensureTempDir_publishes).calls_run_bind fun _ past₃ _ h₃ => ?_
    refine reserveTemp_calls hP _ _ fun temp past₄ s₄ hname h₄ _ => ?_
    exact receiveSegment_calls response reference _ (scratch_of_eq hname) ((h₂.trans (h₃.trans h₄)).mem hmem)

/-- Writing the frames of a download prepares. -/
theorem writeChunks_uses (layout : StorageLayout) (writer : Ino) (maxSizeBytes : Nat) (frames : List (AppResult Bytes))
    (received : Bytes) : (Upstream.writeChunks writer maxSizeBytes frames received).run.Uses (Req.Prepares layout) := by
  induction frames generalizing received with
  | nil => exact ⟨trivial, fun _ _ => trivial⟩
  | cons next frames ih =>
    refine Task.Uses.lift_bind (uses_request (r := .nextFrame) trivial) fun _ => ?_
    cases next with
    | error _ => exact trivial
    | ok chunk =>
      simp only
      split
      · exact trivial
      · refine Task.Uses.lift_bind (uses_request (r := .fs (.writeAll _ _)) trivial) fun x => ?_
        cases x with
        | error _ => exact trivial
        | ok _ => exact ih _

/-- A download publishes what it received. -/
theorem download_calls (upstreamResp : Fetched) (filename : Str) {prepared : Upstream.PreparedDownload}
    (hfile : FileHas prepared.tempPath prepared.writer [] s) :
    (Upstream.download cfg upstreamResp filename prepared).run.Calls (exec cfg t) Quiet
      (fun _ => PublishesBytes cfg (fetchLimit cfg) (receivedBytes upstreamResp.frames)) past s := by
  have hP := @quiet_of_prepares cfg.storage
  unfold Upstream.download
  by_cases hlong : ((prepared.totalLen.or upstreamResp.contentLength).any (· > Upload.upstreamFetchLimit cfg)) = true
  · simp only [if_pos hlong]
    exact .ret
  · simp only [if_neg hlong]
    refine (Task.Yields.leads (writeChunks_uses cfg.storage prepared.writer _ upstreamResp.frames [])
      (Upstream.writeChunks_yields upstreamResp.frames hfile (Nat.zero_le _)) hP).calls_run_bind fun received past₁ s₁ h₁ => ?_
    obtain ⟨rfl, hl, hf⟩ := h₁.2 received rfl
    rw [List.nil_append] at hl hf ⊢
    by_cases hlen : ((prepared.totalLen.or upstreamResp.contentLength).any (· ≠ (receivedBytes upstreamResp.frames).length)) = true
    · simp only [if_pos hlen]
      exact .ret
    · simp only [if_neg hlen]
      by_cases hhash : Upstream.upstreamHashMatchesFilename (cfg.libs.sha256Hex (receivedBytes upstreamResp.frames)) filename = true
      · simp only [if_neg (not_not.2 hhash)]
        refine request_calls (r := .adoptTemp prepared.tempPath) (fun _ h => h.elim) fun e => ?_
        refine .lift_part ⟨_, _, rfl, hf.bytesAt, rfl, rfl, upstreamFetchLimit_eq cfg ▸ hl⟩ fun x _ _ => ?_
        cases x <;> exact trivial
      · simp only [if_pos hhash]
        exact .ret

/-- Preparing a download changes no entry. -/
theorem prepareDownloadState_uses (contentType : Str) (totalLen : Option Nat) :
    (Upstream.prepareDownloadState cfg contentType totalLen).run.Uses Req.Never := by
  refine Task.Uses.run_bind (uses_orErr (uses_request (r := .fs (.createDirAll _)) fun _ h => h.elim)) fun _ => ?_
  refine Task.Uses.lift_bind (uses_request (r := .uuid) fun _ h => h.elim) fun uuid => ?_
  exact Task.Uses.run_bind (uses_orErr (uses_request (r := .fs (.createFile _)) fun _ h => h.elim)) fun _ => trivial

/-- A prepared download has an empty file. -/
theorem prepareDownloadState_yields (contentType : Str) (totalLen : Option Nat) :
    (Upstream.prepareDownloadState cfg contentType totalLen).run.Yields (exec cfg t) Anything
      (fun x s' => ∀ prepared, x = .ok prepared → FileHas prepared.tempPath prepared.writer [] s') s := by
  refine yields_orErr_bind (fun e _ => ?_)
  cases (exec cfg t (.fs (.createDirAll cfg.storage.temp)) e s).1 with
  | error _ => exact nofun
  | ok _ =>
    refine Task.Yields.lift_bind (Q := fun _ _ => True) (fun _ _ => trivial) fun uuid s₁ _ => ?_
    refine yields_orErr_bind ((createFile_yields _).mono fun x s₂ h₂ => ?_)
    cases x with
    | error _ => exact nofun
    | ok writer =>
      rintro prepared ⟨⟩
      exact h₂ writer rfl

/-- A cache fill publishes the response it received. -/
theorem fillCache_calls (filename contentType : Str) (totalLen : Option Nat) (upstreamResp : Fetched) :
    (Upstream.fillCache cfg filename contentType totalLen upstreamResp).run.Calls (exec cfg t) Quiet
      (fun _ => PublishesBytes cfg (fetchLimit cfg) (receivedBytes upstreamResp.frames)) past s := by
  have hclose : ∀ p, Req.Never (.closeFile p) := fun _ _ h => h.elim
  have hremove : ∀ p, Req.Never (.fs (.removeFile p)) := fun _ _ h => h.elim
  refine (Task.Yields.leads (prepareDownloadState_uses contentType totalLen) (prepareDownloadState_yields contentType totalLen)
    fun _ _ _ h => h).calls_run_bind fun prepared past₁ s₁ h₁ => ?_
  refine Task.Calls.bind (Task.Calls.bind (download_calls upstreamResp filename (h₁.2 prepared rfl)) fun x past₂ s₂ => ?_)
    fun _ _ _ => trivial
  cases x with
  | ok _ => exact ⟨hclose _, fun _ => trivial⟩
  | error _ => exact ⟨hremove _, fun _ => ⟨hclose _, fun _ => trivial⟩⟩

/-! ## Chunked uploads -/

/-- A state in which each file has a name of its own and the sessions are well formed. -/
structure Orderly (cfg : Config) (s : AppState) : Prop where
  sane : s.disk.Sane
  sessions : s.sessions.Each fun _ upload => upload.WellFormed cfg.storage

/-- A request of a chunked upload: a chunk that is committed has a file with the body that was received, of the declared length. -/
def CommitsReceived (cfg : Config) (body : Body) (_ : List (Task.Event Req Resp)) (r : Req) (s : AppState) : Prop :=
  r.Receives cfg.storage ∧ ∀ key params chunk, r = .sessions (.commit key params chunk) →
    s.bytesAt (.localFile chunk.chunkPath) = some (receivedBytes body) ∧ chunk.length = (receivedBytes body).length

/-- What settles commits no chunk. -/
theorem commitsReceived_of_settles (body : Body) (past : List (Task.Event Req Resp)) (r : Req) (s : AppState)
    (h : r.Settles cfg.storage) : CommitsReceived cfg body past r s := by
  refine ⟨h.receives, ?_⟩
  rintro key params chunk rfl
  exact h.elim

/-- What is permitted keeps the state orderly. -/
theorem Orderly.exec {body : Body} (h : Orderly cfg s) {r : Req} (hr : CommitsReceived cfg body past r s) (e : Env) :
    Orderly cfg (exec cfg t r e s).2 :=
  ⟨sane_exec cfg t r e h.sane, (wellFormed_exec h.sessions hr.1.keepsWellFormed).1⟩

/-- A part of a chunked upload that publishes nothing leads to its results, and keeps the state orderly. -/
theorem leads_of_receives {α : Type} (body : Body) {P : Req → Prop} {R : α → Prop} {p : Async α}
    (hp : p.Built (Req.Foresees cfg.storage) P (PublishesBlob cfg fun _ => False) R) (hP : ∀ r, P r → r.Settles cfg.storage)
    (h : Orderly cfg s) :
    p.Leads (exec cfg t) (CommitsReceived cfg body) (fun a past' s' => (R a ∧ Orderly cfg s') ∧ past <:+ past') past s := by
  have hkeep : ∀ r e s, P r → Orderly cfg s →
      r.Foresees cfg.storage (exec cfg t r e s).1 ∧ Orderly cfg (exec cfg t r e s).2 := by
    intro r e s hr hs
    exact ⟨(wellFormed_exec hs.sessions (hP r hr).receives.keepsWellFormed).2,
      hs.exec (commitsReceived_of_settles body [] r s (hP r hr)) e⟩
  exact (hp.leads (fun _ ⟨_, _, _, h, _⟩ => h) (fun past r s hr _ => commitsReceived_of_settles body past r s (hP r hr)) hkeep h).suffix

/-- A part of a chunked upload that prepares leads to its results, keeps the state orderly and disturbs nothing. -/
theorem leads_of_prepares {α : Type} {body : Body} {R : α → Prop} {p : Async α} (hp : Task.Publishes cfg (fun _ => False) R p)
    (h : Orderly cfg s) :
    p.Leads (exec cfg t) (CommitsReceived cfg body) (fun a _ s' => (R a ∧ Undisturbed s s') ∧ Orderly cfg s') past s :=
  (leads_of_publishes hp fun past r s hr => commitsReceived_of_settles body past r s hr.settles).keep
    (I := fun _ s => Orderly cfg s) (fun _ _ _ hr hs e => hs.exec hr e) h

/-- A chunk that is written has a file with the body that was received, which is as long as declared. -/
theorem writeChunk_yields (body : Body) (chunkPath : Path) (contentLength : Nat) :
    (writeChunk cfg body chunkPath contentLength).run.Yields (exec cfg t) Anything (fun x s' => ∀ u, x = .ok u →
      s'.bytesAt (.localFile chunkPath) = some (receivedBytes body) ∧ (receivedBytes body).length = contentLength) s := by
  refine yields_attempt_bind (Upload.streamToTempFile_yields body chunkPath contentLength) fun x s₁ h₁ => ?_
  cases x with
  | error _ => exact fun _ _ => nofun
  | ok received =>
    obtain ⟨rfl, _, ino, hf⟩ := h₁ received rfl
    by_cases hlen : (receivedBytes body).length ≠ contentLength
    · simp only [if_pos hlen]
      exact fun _ _ => nofun
    · simp only [if_neg hlen]
      exact fun _ _ => ⟨hf.bytesAt, of_not_not hlen⟩

/-- A stored chunk has a file with the body that was received, which is as long as declared. -/
theorem storeChunk_yields (body : Body) (chunk : ChunkHeaders) :
    (storeChunk cfg body chunk).run.Yields (exec cfg t) Anything (fun x s' => ∀ p, x = .ok p →
      s'.bytesAt (.localFile p) = some (receivedBytes body) ∧ (receivedBytes body).length = chunk.contentLength) s := by
  refine Task.Yields.run_bind (Task.yields_trivial _) (fun _ _ _ _ => nofun) fun _ s₁ _ => ?_
  refine Task.Yields.lift_bind (Task.yields_trivial _) fun uuid s₂ _ => ?_
  refine Task.Yields.run_bind (writeChunk_yields body _ _) (fun _ _ _ _ => nofun) fun u s₃ h₃ => ?_
  rintro p ⟨⟩
  exact h₃ u rfl

/-- A received chunk has a file with the body that was received, which is as long as declared. -/
theorem receiveChunk_leads (body : Body) (key : ChunkUploadKey) (chunk : ChunkHeaders) (h : Orderly cfg s) :
    (receiveChunk cfg body key chunk).run.Leads (exec cfg t) (CommitsReceived cfg body) (fun x _ s' => ∀ p, x = .ok p →
      (Orderly cfg s' ∧ Undisturbed s s') ∧ ChunkFile cfg.storage p ∧ s'.bytesAt (.localFile p) = some (receivedBytes body) ∧
        (receivedBytes body).length = chunk.contentLength) past s := by
  refine Task.Leads.run_bind (Q := fun x _ s' => ∀ y, x = .ok y → ∀ p, y = .ok p → (Orderly cfg s' ∧ Undisturbed s s') ∧
      ChunkFile cfg.storage p ∧ s'.bytesAt (.localFile p) = some (receivedBytes body) ∧
        (receivedBytes body).length = chunk.contentLength)
    (((leads_of_prepares (storeChunk_publishes body chunk) h).yields (storeChunk_yields body chunk)).bind
      fun x _ s₁ h₁ y hy p hp => ?_) (fun _ _ _ _ => nofun) fun x past₁ s₁ h₁ => ?_
  · cases hy
    exact ⟨⟨h₁.1.2, h₁.1.1.2⟩, h₁.1.1.1 p hp, h₁.2 p hp⟩
  · cases x with
    | ok p => exact h₁ _ rfl
    | error e => exact ⟨⟨trivial, fun _ _ _ => nofun⟩, fun _ _ => nofun⟩

/-- A publication of what the chunk files of a completed upload hold, one after another. -/
def PublishesChunks (cfg : Config) (past : List (Task.Event Req Resp)) (p : Async (AppResult FileStorage.StoredBlob)) (s : AppState) :
    Prop :=
  ∃ key params chunk upload, ⟨.sessions (.commit key params chunk), .complete upload⟩ ∈ past ∧ ChunkFiles s.disk upload.chunks ∧
    PublishesBytes cfg cfg.maxBlobSizeBytes ((sortChunks upload.chunks).flatMap (chunkBytes s.disk)) p s

/-- A publication of a completed upload, under a hash and with a size. -/
def PublishesUpload (cfg : Config) (sha256 : Str) (size : Nat) (past : List (Task.Event Req Resp))
    (p : Async (AppResult FileStorage.StoredBlob)) (s : AppState) : Prop :=
  PublishesChunks cfg past p s ∧ ∃ temp publication, p = (FileStorage.publishBlob cfg temp publication).run ∧
    publication.sha256 = sha256 ∧ publication.size = size

/-- A chunk file is not a temporary file. -/
theorem ChunkFile.ne {layout : StorageLayout} {p temp : Path} (h : ChunkFile layout p) (ht : ∃ name, temp = layout.temp ++ [name]) :
    p ≠ temp := by
  obtain ⟨name, rfl⟩ := h
  obtain ⟨name', rfl⟩ := ht
  intro he
  have hlen := congrArg List.length he
  simp only [chunksDir, List.length_append, List.length_singleton] at hlen
  omega

/-- A reconstruction publishes what the chunk files hold. -/
theorem reconstructCovered_calls {body : Body} {key : ChunkUploadKey} {params : SessionParams} {chunk : ChunkInfo}
    {upload : ChunkUpload} (h : Orderly cfg s) (hu : upload.WellFormed cfg.storage) (hlimit : upload.uploadLength ≤ cfg.maxBlobSizeBytes)
    (hmem : ⟨.sessions (.commit key params chunk), .complete upload⟩ ∈ past) (sha256 : Str) :
    (reconstructCovered cfg upload (sortChunks upload.chunks) sha256).run.Calls (exec cfg t) (CommitsReceived cfg body)
      (PublishesUpload cfg sha256 upload.uploadLength) past s := by
  have hP : ∀ past r s, r.Prepares cfg.storage → CommitsReceived cfg body past r s := fun past r s hr =>
    commitsReceived_of_settles body past r s hr.settles
  have hfiles : ∀ c ∈ sortChunks upload.chunks, ChunkFile cfg.storage c.chunkPath := fun c hc =>
    (hu.fits c ((perm_sortChunks _).mem_iff.1 hc)).file
  refine (leads_of_receives body ensureTempDir_publishes (fun _ => Req.Prepares.settles) h).calls_run_bind
    fun _ past₁ s₁ h₁ => ?_
  refine reserveTemp_calls hP _ _ fun temp past₂ s₂ hname h₂ hdisk => ?_
  have ht := scratch_of_eq hname
  have hsane : s₂.disk.Sane := hdisk ▸ h₁.1.2.sane
  have hdiscard : ∀ (x : AppResult FileMetadata) past s, Task.Leads (exec cfg t) (CommitsReceived cfg body)
      ((do discardChunkFiles (sortChunks upload.chunks); ofResult x : AsyncResult FileMetadata)).run (fun _ _ _ => True) past s :=
    fun x past s => (leads_of_publishes (Task.Built.lift_bind (discardChunkFiles_publishes fun c hc => (hfiles c hc).scratch)
      fun _ _ => publishes_ofResult) hP).mono fun _ _ _ _ => trivial
  refine Task.Calls.bind (Task.Calls.bind ?_ fun _ _ _ => trivial) fun x past s => ?_
  · refine (withTemp_leads (fun past s => hP past _ s ht) (((leads_of_publishes (reconstructInto_publishes _ _ sha256 ht) hP).yields
      (reconstructInto_writes hsane fun c hc => (hfiles c hc).ne hname)).mono fun x _ s' hx total he => hx.2 total he)).suffix.calls_run_bind
      fun total past₃ s₃ h₃ => ?_
    obtain ⟨hfiles₃, ⟨ino, hf⟩, rfl, hlen, hhash⟩ := h₃.1 total rfl
    have hmem₃ := (h₁.2.trans (h₂.trans h₃.2)).mem hmem
    refine .part ⟨⟨key, params, chunk, upload, hmem₃, fun c hc => ?_, temp, _, rfl, hf.bytesAt, hhash.symm, rfl, hlen ▸ hlimit⟩,
      temp, _, rfl, rfl, hlen⟩ fun x _ _ => ?_
    · exact hfiles₃ c ((perm_sortChunks _).mem_iff.2 hc)
    · cases x <;> exact trivial
  · cases x with
    | ok result => exact hdiscard result past s
    | error _ => exact trivial

/-- A claimed upload publishes what its chunk files hold. -/
theorem reconstructBlob_calls {body : Body} {key : ChunkUploadKey} {params : SessionParams} {chunk : ChunkInfo}
    {upload : ChunkUpload} (h : Orderly cfg s) (hu : upload.WellFormed cfg.storage) (hlimit : upload.uploadLength ≤ cfg.maxBlobSizeBytes)
    (hmem : ⟨.sessions (.commit key params chunk), .complete upload⟩ ∈ past) (sha256 : Str) :
    (reconstructBlob cfg upload sha256).run.Calls (exec cfg t) (CommitsReceived cfg body)
      (PublishesUpload cfg sha256 upload.uploadLength) past s := by
  have hdiscard : ∀ x : AppResult FileMetadata, Task.Calls (exec cfg t) (CommitsReceived cfg body)
      (PublishesUpload cfg sha256 upload.uploadLength) ((do discardChunkFiles (sortChunks upload.chunks); ofResult x : AsyncResult FileMetadata)).run past s := fun x =>
    (leads_of_receives body (Task.Built.lift_bind (discardChunkFiles_publishes fun c hc =>
      (hu.fits c ((perm_sortChunks _).mem_iff.1 hc)).file.scratch) fun _ _ => publishes_ofResult) (fun _ => Req.Prepares.settles) h).calls
  unfold reconstructBlob
  simp only
  split
  · exact hdiscard (.error _)
  · exact .ret
  · split
    · exact hdiscard (.error _)
    · exact reconstructCovered_calls h hu hlimit hmem sha256

/-- What follows the completion of an upload publishes what its chunk files hold. -/
theorem finishUpload_calls {body : Body} {key : ChunkUploadKey} {params : SessionParams} {chunk : ChunkInfo} {upload : ChunkUpload}
    (h : Orderly cfg s) (hu : upload.WellFormed cfg.storage) (hlimit : upload.uploadLength ≤ cfg.maxBlobSizeBytes)
    (hmem : ⟨.sessions (.commit key params chunk), .complete upload⟩ ∈ past) (headers : Headers) (header : ChunkHeaders)
    {chunkPath : Path} (hp : Scratch cfg.storage chunkPath) :
    (finishUpload cfg headers key header chunkPath upload).run.Calls (exec cfg t) (CommitsReceived cfg body)
      (PublishesUpload cfg header.sha256 upload.uploadLength) past s := by
  refine Task.Leads.calls_lift_bind (p := (Cashu.charge cfg headers .upload header.uploadLength).run)
    (leads_of_receives body (charge_publishes headers .upload header.uploadLength) (fun _ => Req.Prepares.settles) h) fun x past₁ s₁ h₁ => ?_
  cases x with
  | error paymentError =>
    exact (leads_of_receives body (R := fun _ => True) (Task.Built.lift_bind (undoCompletion_settles hu hp) fun _ _ => .ret trivial)
      (fun _ => id) h₁.1.2).calls
  | ok _ =>
    simp only
    split
    · exact .ret
    · split
      · exact .ret
      · refine Task.Calls.bind (reconstructBlob_calls h₁.1.2 hu hlimit (h₁.2.mem hmem) header.sha256) fun x _ _ => ?_
        cases x <;> exact trivial

/-- A request that brings the received bytes of its session to the length of its upload. -/
structure Completes (cfg : Config) (headers : Headers) (st : SessionState) (header : ChunkHeaders) : Prop where
  read : readChunkHeaders cfg headers = .ok header
  received : ∃ authHeader event, Http.str headers "authorization" = some authHeader ∧
    Auth.parseAuthHeader cfg.libs authHeader = .ok event ∧
    st.receivedLength ⟨event.pubkey, header.sha256⟩ + header.contentLength = header.uploadLength

/-- Reserving leaves the uploads. -/
theorem uploads_exec_reserve (key : ChunkUploadKey) (e : Env) (s : AppState) :
    (exec cfg t (.sessions (.reserve key)) e s).2.sessions.uploads = s.sessions.uploads := by
  have hu := s.sessions.reserve_uploads cfg.sessionLimits key
  simp only [exec, SessionReq.exec]
  rcases hres : s.sessions.reserve cfg.sessionLimits key with ⟨_ | _ | _, st⟩ <;> rw [hres] at hu <;> exact hu

/-- A commit keeps the state orderly, and completes an upload when it brings the received bytes to its length. -/
theorem commit_spec {body : Body} {key : ChunkUploadKey} {params : SessionParams} {chunk : ChunkInfo} (h : Orderly cfg s)
    (hcommit : CommitsReceived cfg body past (.sessions (.commit key params chunk)) s) (e : Env) :
    Orderly cfg (exec cfg t (.sessions (.commit key params chunk)) e s).2 ∧
      ∀ upload, (exec cfg t (.sessions (.commit key params chunk)) e s).1 = .complete upload →
        upload.WellFormed cfg.storage ∧ upload.uploadLength = params.uploadLength ∧
          s.sessions.receivedLength key + chunk.length = params.uploadLength := by
  refine ⟨h.exec hcommit e, fun upload hu => ?_⟩
  have hforeseen := (wellFormed_exec (t := t) (e := e) h.sessions hcommit.1.keepsWellFormed).2
  rw [hu] at hforeseen
  exact ⟨hforeseen.1.toWellFormed, hforeseen.2, (SessionState.receivedLength_of_complete hu).1⟩

/-- A chunked upload publishes what the chunk files of the upload it completes hold. -/
theorem patchUpload_calls (headers : Headers) (body : Body) (h : Orderly cfg s) :
    (patchUpload cfg headers body).run.Calls (exec cfg t) (CommitsReceived cfg body) (fun past p s' =>
      ∃ header, Completes cfg headers s.sessions header ∧ PublishesUpload cfg header.sha256 header.uploadLength past p s') past s := by
  unfold patchUpload
  refine (leads_of_prepares (publishes_ofResult_eq _) h).calls_run_bind fun header past₁ s₁ h₁ => ?_
  have hheader := h₁.1.1.symm
  obtain ⟨_, hpos, hin, hlen⟩ := readChunkHeaders_spec hheader
  refine (leads_of_prepares (authorize_event headers .chunkUpload) h₁.2).calls_run_bind fun authorized past₂ s₂ h₂ => ?_
  obtain ⟨authHeader, hauth, hevent⟩ := h₂.1.1 authorized rfl
  refine (leads_of_prepares (bind_publishes authorized _) h₂.2).calls_run_bind fun _ past₃ s₃ h₃ => ?_
  refine (leads_of_prepares (ensureNotQuarantined_publishes _) h₃.2).calls_run_bind fun _ past₄ s₄ h₄ => ?_
  refine (leads_of_prepares (extractExpiration_publishes headers) h₄.2).calls_run_bind fun expiration past₅ s₅ h₅ => ?_
  have hsessions : s₅.sessions = s.sessions :=
    (h₁.1.2.trans (h₂.1.2.trans (h₃.1.2.trans (h₄.1.2.trans h₅.1.2)))).sessions
  have hreserve : CommitsReceived cfg body past₅ (.sessions (.reserve ⟨authorized.event.pubkey, header.sha256⟩)) s₅ :=
    ⟨trivial, fun _ _ _ => nofun⟩
  refine request_calls hreserve fun e => ?_
  have h₆ := h₅.2.exec (t := t) hreserve e
  have huploads : (exec cfg t (.sessions (.reserve ⟨authorized.event.pubkey, header.sha256⟩)) e s₅).2.sessions.uploads =
      s.sessions.uploads := by rw [uploads_exec_reserve, hsessions]
  generalize (exec cfg t (.sessions (.reserve ⟨authorized.event.pubkey, header.sha256⟩)) e s₅) = reserved at h₆ huploads ⊢
  obtain ⟨reservation, s₆⟩ := reserved
  cases reservation with
  | globalLimit => exact .ret
  | perPubkeyLimit => exact .ret
  | granted =>
    refine (receiveChunk_leads body _ header h₆).calls_run_bind fun chunkPath past₇ s₇ h₇ => ?_
    obtain ⟨⟨horderly, hundisturbed⟩, hfile, hbytes, hlength⟩ := h₇ chunkPath rfl
    have hcommit : CommitsReceived cfg body past₇ (.sessions (.commit ⟨authorized.event.pubkey, header.sha256⟩
        ⟨header.sha256, authorized.event.pubkey, header.uploadType, header.uploadLength, expiration⟩
        ⟨header.uploadOffset, header.contentLength, chunkPath⟩)) s₇ := by
      refine ⟨⟨⟨hfile, hpos, hin⟩, hlen⟩, ?_⟩
      rintro _ _ _ ⟨⟩
      exact ⟨hbytes, hlength.symm⟩
    refine request_calls hcommit fun e => ?_
    have hspec := commit_spec (t := t) horderly hcommit e
    rw [SessionState.receivedLength, hundisturbed.sessions, huploads] at hspec
    generalize exec cfg t (.sessions (.commit _ _ _)) e s₇ = committed at hspec ⊢
    obtain ⟨outcome, s₈⟩ := committed
    obtain ⟨h₈, hcomplete⟩ := hspec
    have hdiscard : ∀ past s, Task.Leads (exec cfg t) (CommitsReceived cfg body) ((do
          let _ ← fs (.removeFile chunkPath)
          throw (.conflict "Chunk conflicts with an existing session") : AsyncResult Response)).run (fun _ _ _ => True) past s :=
      fun past s => ⟨commitsReceived_of_settles body past _ s hfile.scratch, fun _ => trivial⟩
    cases outcome with
    | incomplete => exact .ret
    | overlap => exact (hdiscard _ _).calls
    | paramMismatch => exact (hdiscard _ _).calls
    | complete upload =>
      obtain ⟨hu, hlength, hreceived⟩ := hcomplete upload rfl
      have hul : upload.uploadLength = header.uploadLength := hlength
      have hlimit : upload.uploadLength ≤ cfg.maxBlobSizeBytes := hul ▸ readChunkHeaders_limit hheader
      refine (finishUpload_calls h₈ hu hlimit List.mem_cons_self headers header hfile.scratch).mono (fun _ _ _ h => h)
        fun past p s hp => ?_
      exact ⟨header, ⟨hheader, authHeader, authorized.event, hauth, hevent, hreceived⟩, hul ▸ hp⟩

end

end Almond
