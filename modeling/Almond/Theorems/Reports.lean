import Almond.Conc.Solo
import Almond.Moderation
import Almond.Sample
import Almond.Theorems.BlobName

/-! # A report is processed -/

namespace Almond.Moderation

open Authorization FileStorage Conc

variable {cfg : Config} {settings : Settings} {report : ReportEvent} {event : Event} {env : Nat → Env} {s : AppState} {t : Tid} {n : Nat}

/-! ## The record -/

/-- The path of the record of an event. -/
def recordPath (cfg : Config) (event : Event) : Path :=
  cfg.storage.reports ++ [event.id ++ ".json".toList]

/-- A file can be written as a whole: it can be created, and written to. -/
def Writable (path : Path) (env : Nat → Env) (n : Nat) (s : AppState) : Prop :=
  (s.disk.exec (env n).fs s.clock.system (.createFile path)).1.isOk = true ∧ (env (n + 1)).fs.fault = none

/-- What is left of the requests that write a file, when it ends in a result. -/
def Writes (path : Path) (env : Nat → Env) (n : Nat) (s : AppState) (bytes : Bytes) (requests : List Req) (result : Except Nat Unit) : Prop :=
  (∀ sha256, .index (.get sha256) ∉ requests) ∧
    (Writable path env n s ∧ result = .ok () ∧ (∃ ino, .fs (.writeAll ino bytes) ∈ requests) ∨
      ¬ Writable path env n s ∧ result = .error 500)

/-- A file is written as a whole, or the status is 500. -/
theorem write_run (path : Path) (bytes : Bytes) :
    ∃ rest, Task.requests (exec cfg t) env (write path bytes).run n s = .fs (.createFile path) :: rest ∧
      Writes path env n s bytes rest (Task.alone (exec cfg t) env (write path bytes).run n s).1 := by
  unfold write orCode fs request
  simp only [Task.perform, ExceptT.stM_eq, Task.call_bind, Task.ret_bind, Task.requests_run_bind, ExceptT.run_mk, Task.requests,
    Task.alone, Task.run_lift_bind, List.cons_append, List.nil_append, List.cons.injEq, true_and, Writes, Writable,
    Task.alone_run_bind, not_and, exists_eq_left']
  have hcreate : (exec cfg t (.fs (.createFile path)) (env n) s).1 = (s.disk.exec (env n).fs s.clock.system (.createFile path)).1 := rfl
  rw [hcreate]
  cases (s.disk.exec (env n).fs s.clock.system (.createFile path)).1 with
  | error e => simp [Except.mapError, Except.isOk, Except.toBool]
  | ok ino =>
    have hwrite : ∀ s' : AppState, (exec cfg t (.fs (.writeAll ino bytes)) (env (n + 1)) s').1 =
      (s'.disk.exec (env (n + 1)).fs s'.clock.system (.writeAll ino bytes)).1 := fun _ => rfl
    simp only [Except.mapError, List.mem_cons, reduceCtorEq, List.not_mem_nil, or_self, not_false_eq_true, implies_true,
      Except.isOk, Except.toBool, true_and, hwrite, ExceptT.stM_eq, Disk.exec, Req.fs.injEq, FsReq.writeAll.injEq, and_true,
      or_false, exists_eq, forall_const]
    cases (env (n + 1)).fs.fault <;> simp [Disk.perform, Disk.faulted]

/-- A record is written, or the status is 500. -/
theorem recordReport_run (cfg : Config) (settings : Settings) (event : Event) (env : Nat → Env) (t : Tid) (n : Nat) (s : AppState)
    (status action : String) (requested processed : List Str) :
    ∃ rest, Task.requests (exec cfg t) env (recordReport cfg settings event status action requested processed).run n s =
        .systemTime :: .fs (.createFile (recordPath cfg event)) :: rest ∧
      Writes (recordPath cfg event) env (n + 1) s
        (settings.recordBody ⟨status, modeName settings.featureReportEnabled, action, requested, processed, asSecs s.clock.system, event⟩)
        rest (Task.alone (exec cfg t) env (recordReport cfg settings event status action requested processed).run n s).1 := by
  unfold recordReport nowSecs request
  simp only [Task.perform, Task.pure_eq, Task.bind_eq, Task.call_bind, Task.ret_bind, Task.run_lift_bind, Task.requests, Task.alone,
    List.cons.injEq, true_and]
  exact write_run (recordPath cfg event) _

/-! ## The blobs -/

/-- Every reported hash is looked up. -/
theorem processBlobs_reads (cfg : Config) (env : Nat → Env) (t : Tid) (n : Nat) (s : AppState) (action : ReportAction) (hashes : List Str) :
    ∀ sha256 ∈ hashes, .index (.get sha256) ∈ (processBlobs cfg action hashes).requests (exec cfg t) env n s := by
  induction hashes generalizing n s with
  | nil => simp
  | cons first hashes ih =>
    intro sha256 hmem
    rw [processBlobs, Task.bind_eq, Task.requests_bind]
    rcases List.mem_cons.1 hmem with rfl | hmem
    · exact List.mem_append_left _ List.mem_cons_self
    · apply List.mem_append_right
      split
      · exact ih _ _ sha256 hmem
      · rw [Task.bind_eq, Task.requests_bind, Task.bind_eq, Task.requests_bind]
        exact List.mem_append_right _ (List.mem_append_left _ (ih _ _ sha256 hmem))

/-- A report is processed: each of its hashes is looked up, and its record is written again with what became of them, unless the
file system refuses. -/
def Processed (cfg : Config) (settings : Settings) (event : Event) (hashes : List Str) (requests : List Req)
    (outcome : Except Nat ReportReply) : Prop :=
  outcome ≠ .ok .panicked ∧ ∃ before after, requests = before ++ .fs (.createFile (recordPath cfg event)) :: after ∧
    (∀ sha256 ∈ hashes, .index (.get sha256) ∈ before) ∧
    (outcome = .error 500 ∨ ∃ ino status processed now, (status = "noop" ∨ status = "processed") ∧
      .fs (.writeAll ino (settings.recordBody ⟨status, modeName settings.featureReportEnabled, settings.reportAction.asStr, hashes,
        processed, now, event⟩)) ∈ after)

/-- More requests before it leave a report processed. -/
theorem Processed.append {hashes : List Str} {requests earlier : List Req} {outcome : Except Nat ReportReply}
    (h : Processed cfg settings event hashes requests outcome) :
    Processed cfg settings event hashes (earlier ++ requests) outcome := by
  obtain ⟨hpanicked, before, after, hrequests, hread, hwritten⟩ := h
  refine ⟨hpanicked, earlier ++ before, after, ?_, fun sha256 hmem => ?_, hwritten⟩
  · rw [hrequests, List.append_assoc]
  · exact List.mem_append_right _ (hread sha256 hmem)

/-- The blobs of a report are processed. -/
theorem processReport_processed (hashes : List Str) :
    Processed cfg settings event hashes (Task.requests (exec cfg t) env (processReport cfg settings event hashes).run n s)
      (Task.alone (exec cfg t) env (processReport cfg settings event hashes).run n s).1 := by
  unfold processReport
  simp only [Task.run_lift_bind, Task.requests_bind, Task.alone_bind, Task.requests_run_bind, Task.alone_run_bind]
  have hreads := processBlobs_reads cfg env t n s settings.reportAction hashes
  generalize (processBlobs cfg settings.reportAction hashes).requests (exec cfg t) env n s = reads at hreads
  obtain ⟨processed, n', s'⟩ := (processBlobs cfg settings.reportAction hashes).alone (exec cfg t) env n s
  dsimp only
  have hstatus : (if processed = [] then "noop" else "processed") = "noop" ∨
      (if processed = [] then "noop" else "processed") = "processed" := by split <;> simp
  generalize (if processed = [] then "noop" else "processed") = status at hstatus
  obtain ⟨rest, hrequests, _, hresult⟩ := recordReport_run cfg settings event env t n' s' status settings.reportAction.asStr hashes processed
  rw [hrequests]
  generalize Task.alone (exec cfg t) env (recordReport cfg settings event status settings.reportAction.asStr hashes processed).run n' s' =
    run at hresult
  obtain ⟨result, n'', s''⟩ := run
  rcases hresult with ⟨_, rfl, ino, hwritten⟩ | ⟨_, rfl⟩
  · refine ⟨?_, reads ++ [.systemTime], rest, ?_, fun sha256 hmem => List.mem_append_left _ (hreads sha256 hmem),
      .inr ⟨ino, status, processed, _, hstatus, hwritten⟩⟩
    · dsimp only
      split <;> rintro ⟨⟩
    · dsimp only
      split <;> simp [Task.requests]
  · refine ⟨?_, reads ++ [.systemTime], rest, ?_, fun sha256 hmem => List.mem_append_left _ (hreads sha256 hmem), .inl rfl⟩
    · rintro ⟨⟩
    · simp

/-! ## Reports -/

/-- The content of a report is short, or no character lies across its byte 100. -/
def Cuttable (content : Str) : Prop :=
  byteLen content ≤ 100 ∨ ∃ head rest, content = head ++ rest ∧ byteLen head = 100

/-- The content of a report is logged exactly when it can be cut. -/
theorem loggedContent_eq_none_iff (content : Str) : loggedContent content = none ↔ ¬ Cuttable content := by
  unfold loggedContent Cuttable
  by_cases hlen : byteLen content > 100
  · rw [if_pos hlen, Option.map_eq_none_iff, Option.eq_none_iff_forall_ne_some]
    constructor
    · intro hnone hcut
      rcases hcut with hshort | ⟨head, rest, rfl, hhead⟩
      · omega
      · exact hnone (head, rest) (hhead ▸ BlobName.splitAtByte_append head rest)
    · intro hcut halves hsome
      obtain ⟨hcontent, hhead⟩ := BlobName.splitAtByte_eq_some hsome
      exact hcut (.inr ⟨_, _, hcontent, hhead⟩)
  · rw [if_neg hlen]
    simp
    omega

/-- A report is processed exactly when its content can be cut, or is not logged, and its first record can be written. -/
theorem resolveReport_processed_iff {content : Str} {hashes : List Str} {earlier : List Req} (hne : hashes ≠ [])
    (hearlier : ∀ sha256, .index (.get sha256) ∉ earlier) :
    Processed cfg settings event hashes
        (earlier ++ Task.requests (exec cfg t) env (resolveReport cfg settings content event hashes).run n s)
        (Task.alone (exec cfg t) env (resolveReport cfg settings content event hashes).run n s).1 ↔
      (settings.infoEnabled = false ∨ Cuttable content) ∧ Writable (recordPath cfg event) env (n + 1) s := by
  unfold resolveReport
  simp only [Task.requests_run_bind, Task.alone_run_bind]
  obtain ⟨rest, hrequests, hunread, hresult⟩ := recordReport_run cfg settings event env t n s "pending" settings.reportAction.asStr hashes []
  rw [hrequests]
  generalize Task.alone (exec cfg t) env (recordReport cfg settings event "pending" settings.reportAction.asStr hashes []).run n s =
    run at hresult
  obtain ⟨result, n', s'⟩ := run
  rcases hresult with ⟨hwritable, rfl, _⟩ | ⟨hwritable, rfl⟩
  · dsimp only
    by_cases hpanics : settings.infoEnabled = true ∧ loggedContent content = none
    · rw [if_pos hpanics, loggedContent_eq_none_iff] at *
      simp [Processed, Task.alone, hpanics]
    · rw [if_neg hpanics, ← List.append_assoc]
      rw [loggedContent_eq_none_iff] at hpanics
      simp only [(processReport_processed hashes).append, hwritable, and_true, true_iff]
      by_cases hinfo : settings.infoEnabled = true
      · exact .inr (not_not.1 fun hcut => hpanics ⟨hinfo, hcut⟩)
      · exact .inl (Bool.eq_false_iff.2 hinfo)
  · simp only [hwritable, and_false, iff_false]
    intro hprocessed
    obtain ⟨_, before, after, hsplit, hread, _⟩ := hprocessed
    obtain ⟨sha256, hmem⟩ := List.exists_mem_of_ne_nil hashes hne
    have hwhole : Req.index (.get sha256) ∈ before ++ .fs (.createFile (recordPath cfg event)) :: after :=
      List.mem_append_left _ (hread sha256 hmem)
    rw [← hsplit] at hwhole
    simp [hunread, hearlier] at hwhole

/-- The resolution of a report panics exactly when its record can be written, and its content is logged and cannot be cut. -/
theorem resolveReport_panics_iff {content : Str} {hashes : List Str} :
    (Task.alone (exec cfg t) env (resolveReport cfg settings content event hashes).run n s).1 = .ok .panicked ↔
      settings.infoEnabled = true ∧ ¬ Cuttable content ∧ Writable (recordPath cfg event) env (n + 1) s := by
  unfold resolveReport
  simp only [Task.alone_run_bind]
  obtain ⟨_, _, _, hresult⟩ := recordReport_run cfg settings event env t n s "pending" settings.reportAction.asStr hashes []
  generalize Task.alone (exec cfg t) env (recordReport cfg settings event "pending" settings.reportAction.asStr hashes []).run n s =
    run at hresult
  obtain ⟨result, n', s'⟩ := run
  rcases hresult with ⟨hwritable, rfl, _⟩ | ⟨hwritable, rfl⟩
  · dsimp only
    by_cases hpanics : settings.infoEnabled = true ∧ loggedContent content = none
    · rw [if_pos hpanics]
      rw [loggedContent_eq_none_iff] at hpanics
      simp [hwritable, hpanics, Task.alone]
    · rw [if_neg hpanics]
      rw [loggedContent_eq_none_iff] at hpanics
      simp [(processReport_processed hashes).1, hwritable]
      simpa using hpanics
  · simp [hwritable]

/-- A report that is signed, authorized to remove blobs, and names one. -/
structure Admitted (cfg : Config) (settings : Settings) (report : ReportEvent) (event : Event) (s : AppState) : Prop where
  enabled : settings.featureReportEnabled ≠ .off
  destructive : settings.featureReportEnabled ≠ .public
  kind : report.kind = 1984
  allowed : ∃ pubkey ∈ cfg.allowedPubkeys, settings.publicKeyFromHex report.pubkey = some pubkey
  parsed : settings.parseReport report = .ok event
  signed : cfg.libs.verifyEvent event = .ok ()
  created : 0 ≤ report.createdAt ∧ report.createdAt ≤ saturatingAdd (asSecs s.clock.system) settings.authClockSkewSecs
  fresh : (retain (fun _ expiry => asSecs s.clock.system ≤ expiry) s.destructiveEventReplays).lookup report.id = none
  hashes : extractBlobHashes report.tags ≠ []

/-- The state in which an admitted report is resolved: its event is consumed. -/
def consumed (cfg : Config) (report : ReportEvent) (s : AppState) : AppState :=
  let seen := retain (fun _ expiry => asSecs s.clock.system ≤ expiry) s.destructiveEventReplays
  { s with destructiveEventReplays := seen.insert report.id (saturatingAdd (asSecs s.clock.system) cfg.authMaxTtlSecs) }

/-- The wall clock is read. -/
theorem exec_systemTime (e : Env) : exec cfg t .systemTime e s = (s.clock.system, s) :=
  rfl

/-- An admitted report is resolved. -/
theorem reportBlob_admitted (env : Nat → Env) (t : Tid) (h : Admitted cfg settings report event s) :
    Task.alone (exec cfg t) env (reportBlob cfg settings report).run 0 s =
      Task.alone (exec cfg t) env (resolveReport cfg settings report.content event (extractBlobHashes report.tags)).run 3
        (consumed cfg report s) ∧
    Task.requests (exec cfg t) env (reportBlob cfg settings report).run 0 s =
      [.systemTime, .systemTime, .consumeReplay report.id (saturatingAdd (asSecs s.clock.system) cfg.authMaxTtlSecs) (asSecs s.clock.system)] ++
        Task.requests (exec cfg t) env (resolveReport cfg settings report.content event (extractBlobHashes report.tags)).run 3
          (consumed cfg report s) := by
  obtain ⟨henabled, hdestructive, hkind, ⟨pubkey, hmem, hpubkey⟩, hparsed, hsigned, ⟨hpast, hskew⟩, hfresh, hhashes⟩ := h
  have hconsume : ∀ e,
      (exec cfg t (.consumeReplay report.id (saturatingAdd (asSecs s.clock.system) cfg.authMaxTtlSecs) (asSecs s.clock.system)) e s).1 =
        false ∧
      (exec cfg t (.consumeReplay report.id (saturatingAdd (asSecs s.clock.system) cfg.authMaxTtlSecs) (asSecs s.clock.system)) e s).2 =
        consumed cfg report s := by
    intro e
    refine ⟨?_, rfl⟩
    simp only [exec]
    rw [hfresh]
    rfl
  unfold reportBlob consumeSingleUse nowSecs orCode orStatus request
  simp only [henabled, ↓reduceIte, hkind, ne_eq, not_true_eq_false, hpubkey, hparsed, Except.mapError, Task.ret_bind, Task.perform,
    Task.pure_eq, Task.bind_eq, Task.call_bind, not_lt.2 hpast, gt_iff_lt, Int.lt_toNat, Task.run_lift_bind, hdestructive,
    List.contains_eq_mem, hmem, decide_true, Bool.true_eq_false, hhashes, ExceptT.bind_throw, Task.alone_run_bind, ExceptT.run_mk,
    Task.alone, hsigned, exec_systemTime, not_lt.2 hskew, Nat.zero_add, Nat.reduceAdd, hconsume, Bool.false_eq_true,
    ExceptT.run_pure, Task.requests_run_bind, Task.requests, List.cons_append, List.nil_append, and_self]

/-- An admitted report is processed, and the handler does not panic, exactly when its content can be cut at byte 100 or is not logged,
and its first record can be written. -/
theorem report_processed_iff (cfg : Config) (settings : Settings) (report : ReportEvent) (event : Event) (env : Nat → Env) (t : Tid)
    (s : AppState) (h : Admitted cfg settings report event s) :
    (Processed cfg settings event (extractBlobHashes report.tags)
        (Task.requests (exec cfg t) env (reportBlob cfg settings report).run 0 s)
        (Task.alone (exec cfg t) env (reportBlob cfg settings report).run 0 s).1 ↔
      (settings.infoEnabled = false ∨ Cuttable report.content) ∧ Writable (recordPath cfg event) env 4 s) ∧
    ((Task.alone (exec cfg t) env (reportBlob cfg settings report).run 0 s).1 = .ok .panicked ↔
      settings.infoEnabled = true ∧ ¬ Cuttable report.content ∧ Writable (recordPath cfg event) env 4 s) := by
  obtain ⟨halone, hrequests⟩ := reportBlob_admitted env t h
  rw [halone, hrequests]
  exact ⟨resolveReport_processed_iff h.hashes (by simp), resolveReport_panics_iff⟩

end Almond.Moderation

namespace Almond.Sample

open Moderation

/-- A server that quarantines the blobs of a report. -/
def reportSettings : Settings where
  featureListEnabled := false
  featureReportEnabled := .dvm
  reportAction := .quarantine
  authClockSkewSecs := 60
  publicKeyFromHex _ := some []
  parseReport r := .ok ⟨r.id, [], r.createdAt.toNat, r.kind, [], r.content, r.sig⟩
  recordBody _ := []
  infoEnabled := true

/-- A server that knows who may report. -/
def moderated : Config :=
  { config with allowedPubkeys := [[]] }

/-- A report of the hash. -/
def reportSaying (content : Str) : ReportEvent :=
  ⟨List.replicate 64 'a', [], 1700000000, 1984, [["x".toList, hash]], content, []⟩

/-- The event of a report. -/
def eventSaying (content : Str) : Event :=
  ⟨List.replicate 64 'a', [], 1700000000, 1984, [], content, []⟩

/-- A report of the hash is admitted. -/
theorem admitted_reportSaying (content : Str) : Admitted moderated reportSettings (reportSaying content) (eventSaying content) started where
  enabled := by decide
  destructive := by decide
  kind := rfl
  allowed := ⟨[], by decide, rfl⟩
  parsed := rfl
  signed := rfl
  created := by
    simp only [reportSaying]
    decide
  fresh := rfl
  hashes := by
    simp only [reportSaying]
    decide

end Almond.Sample

namespace Almond.Moderation

open Conc Sample

/-- A short report is processed. -/
theorem report_processed_iff_short :
    Processed moderated reportSettings (eventSaying "spam".toList) (extractBlobHashes (reportSaying "spam".toList).tags)
      (Task.requests (exec moderated 0) (fun _ => calm) (reportBlob moderated reportSettings (reportSaying "spam".toList)).run 0 started)
      (Task.alone (exec moderated 0) (fun _ => calm) (reportBlob moderated reportSettings (reportSaying "spam".toList)).run 0 started).1 :=
  (report_processed_iff moderated reportSettings (reportSaying "spam".toList) (eventSaying "spam".toList) (fun _ => calm) 0 started
    (admitted_reportSaying _)).1.2 ⟨.inr (.inl (by decide)), by decide, rfl⟩

/-- A report of 34 euro signs, of three bytes each, is admitted, and the handler panics. -/
theorem report_processed_iff_false :
    ¬ ∀ (cfg : Config) (settings : Settings) (report : ReportEvent) (event : Event) (env : Nat → Env) (t : Tid) (s : AppState),
      Admitted cfg settings report event s →
      Processed cfg settings event (extractBlobHashes report.tags)
        (Task.requests (exec cfg t) env (reportBlob cfg settings report).run 0 s)
        (Task.alone (exec cfg t) env (reportBlob cfg settings report).run 0 s).1 := by
  intro h
  have hadmitted := admitted_reportSaying (List.replicate 34 '€')
  have hcut : ¬ Cuttable (List.replicate 34 '€') := (loggedContent_eq_none_iff _).1 (by decide)
  have hwritable : Writable (recordPath moderated (eventSaying (List.replicate 34 '€'))) (fun _ => calm) (3 + 1) started :=
    ⟨by decide, rfl⟩
  refine (h moderated reportSettings _ _ (fun _ => calm) 0 started hadmitted).1 ?_
  rw [(reportBlob_admitted _ _ hadmitted).1]
  exact resolveReport_panics_iff.2 ⟨rfl, hcut, hwritable⟩

end Almond.Moderation
