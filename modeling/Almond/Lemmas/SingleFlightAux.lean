import Almond.Lemmas.FetchAux
import Almond.Lemmas.RangesAux
import Almond.SingleFlight

/-! # The order of a request's steps

A request looks for a download, claims the negotiation, follows it or leads it, and lets go of it. It asks a server for all bytes of a blob
only as the leader. -/

namespace Almond

open Conc (HandleId Task Protocol)
open Coalescing Fetch UpstreamServers UpstreamCandidates

/-! ## Ranges -/

namespace UpstreamServers

/-- The copied headers have their values, and there are no others. -/
theorem get_copyHeaders (names : List String) (headers : Headers) (name : String) :
    Http.get (copyHeaders names headers) name = if name ∈ names then Http.get headers name else none := by
  induction names with
  | nil => rfl
  | cons first names ih =>
    have hcopy : copyHeaders (first :: names) headers =
        ((Http.get headers first).map fun value => (first.toList, value)).toList ++ copyHeaders names headers := by
      unfold copyHeaders
      rw [List.filterMap_cons]
      cases Http.get headers first <;> rfl
    rw [hcopy]
    cases hget : Http.get headers first with
    | none =>
      rw [Option.map_none, Option.toList_none, List.nil_append, ih]
      by_cases hname : name = first
      · rw [hname, hget]
        simp only [ite_self]
      · simp only [List.mem_cons, hname, false_or]
    | some value =>
      rw [Option.map_some, Option.toList_some, List.singleton_append, Http.get, List.lookup_cons]
      by_cases hname : name = first
      · rw [hname]
        simp only [beq_self_eq_true, List.mem_cons_self, if_true, hget]
      · have hkey : (name.toList == first.toList) = false := beq_false_of_ne fun he => hname (String.toList_inj.1 he)
        simp only [hkey, List.mem_cons, hname, false_or]
        exact ih

/-- A number is not white space around one. -/
theorem trim_of_parseU64 {s : Str} {n : Nat} (h : parseU64 s = some n) : trim s = s := by
  refine Trimming.trimBy_of_forall fun c hc => ?_
  unfold parseU64 at h
  split at h
  · rename_i hdigits
    have hcases : c = '+' ∨ c ∈ unsigned s := by
      unfold unsigned
      split
      · exact (List.mem_cons.1 hc)
      · exact .inr hc
    rcases hcases with rfl | hmem
    · decide
    · exact Http.not_isWhitespace_of_isDigit (List.all_eq_true.1 hdigits.2.1 c hmem)
  · nomatch h

/-- A range that a download can serve starts where the download is asked to start. -/
theorem start_of_coalescible {headers : Headers} {range : Str} {start totalLen first last : Nat}
    (hstart : coalescibleRangeStart headers = some start) (hrange : Http.str headers "range" = some range)
    (hparse : Http.parseRangeHeader range totalLen = .satisfiable first last) : first = start ∧ start ≤ seekAheadLimit := by
  simp only [coalescibleRangeStart, hrange, Option.bind_eq_bind, Option.bind_some, Option.bind_eq_some_iff] at hstart
  obtain ⟨spec, hspec, hstart⟩ := hstart
  split at hstart
  · nomatch hstart
  rename_i hcomma
  simp only [Option.bind_eq_some_iff] at hstart
  obtain ⟨⟨a, b⟩, hsplit, n, hn, hstart⟩ := hstart
  split at hstart
  · rename_i hlimit
    obtain rfl : n = start := Option.some.inj hstart
    have hparts : Http.rangeParts range = some (trim a, trim b) := by
      refine Http.rangeParts_eq_some.2 ⟨[], a, b, nofun, ?_, not_mem_of_splitOnce hsplit, ?_, rfl, rfl⟩
      · rw [Http.stripPrefix_eq_some.1 hspec, eq_of_splitOnce hsplit]
        rfl
      · rw [eq_of_splitOnce hsplit] at hcomma
        simp only [List.mem_append, List.mem_cons, not_or] at hcomma ⊢
        exact ⟨hcomma.1, hcomma.2.2⟩
    have hnil : a ≠ [] := by
      rintro rfl
      nomatch hn
    rw [Http.parseRangeHeader_eq, hparts] at hparse
    simp only [Option.elim_some, Http.readParts, trim_of_parseU64 hn, hnil, if_false, Http.boundedRange, hn] at hparse
    refine ⟨?_, hlimit⟩
    split at hparse
    · nomatch hparse
    · split at hparse
      · nomatch hparse
      · split at hparse
        · nomatch hparse
        · split at hparse
          · nomatch hparse
          · cases hparse
            rfl
  · nomatch hstart

end UpstreamServers

namespace SingleFlight

/-! ## The protocol -/

/-- Where a request stands. -/
inductive Stage where
  /-- Before it looks for a download. -/
  | arriving
  /-- It saw no download and is about to claim the negotiation. -/
  | unseen
  | following (id : HandleId)
  /-- The negotiation that it waited for is ready, and it is about to look for the download. -/
  | rechecking
  /-- It leads a negotiation and walks the servers. -/
  | walking (id : HandleId)
  /-- A server has the blob. -/
  | answered (id : HandleId)
  /-- It neither prepares a download any more nor asks for all bytes; it may still hold its guard. -/
  | over (guard : Option HandleId)
  deriving DecidableEq

namespace Stage

/-- The guard that a request holds. -/
def guard : Stage → Option HandleId
  | .walking id | .answered id => some id
  | .over guard => guard
  | _ => none

/-- Whether a request leads a negotiation. -/
def leads : Stage → Bool
  | .walking _ | .answered _ => true
  | _ => false

/-- What a request may await at a stage. -/
def may (length : Nat) (request : Request) (stage : Stage) : NetReq → Prop
  | .ongoing fileHash => fileHash = request.fileHash ∧ (stage = .arriving ∨ stage = .rechecking)
  | .claim fileHash => fileHash = request.fileHash ∧ stage = .unseen
  | .wait id => stage = .following id
  | .send _ _ _ headers => (∃ id, stage = .walking id) ∨ asksForAll length headers = false
  | .prepare fileHash _ _ => fileHash = request.fileHash ∧ ∃ id, stage = .answered id
  | .finishNegotiation id phase => phase ≠ .pending ∧ (stage = .answered id ∨ stage = .over (some id))
  | _ => True

/-- The stage after a response. -/
def next : Stage → (r : NetReq) → NetResp r → Stage
  | _, .ongoing _, some _ => .over none
  | _, .ongoing _, none => .unseen
  | _, .claim _, .leader id => .walking id
  | _, .claim _, .follower id => .following id
  | _, .wait _, .ready => .rechecking
  | _, .wait _, _ => .unseen
  | .walking id, .send _ _ _ _, sent => if sent.result.toOption.any HttpResponse.isSuccess then .answered id else .walking id
  | .answered id, .prepare _ _ _, _ => .over (some id)
  | _, .finishNegotiation _ _, _ => .over none
  | stage, _, _ => stage

end Stage

/-- The protocol of a request whose responses are agreeable. -/
def protocol (cfg : UpstreamConfig) (length : Nat) (request : Request) : Protocol NetReq NetResp Empty Stage where
  sees := Agreeable cfg length request
  may := Stage.may length request
  next := Stage.next
  mayTake _ _ := False
  take stage _ := stage
  mayGive _ _ := False
  give stage _ := stage

/-- What a request may await at every stage, and stays where it is. -/
def Quiet : NetReq → Prop
  | .ongoing _ | .claim _ | .wait _ | .send _ _ _ _ | .prepare _ _ _ | .finishNegotiation _ _ => False
  | _ => True

section

variable {cfg : UpstreamConfig} {length : Nat} {request : Request} {stage : Stage} {α β : Type}

/-- What is quiet changes no stage. -/
theorem next_of_quiet {r : NetReq} (hr : Quiet r) (x : NetResp r) : stage.next r x = stage := by
  cases r with
  | ongoing | claim | wait | send | prepare | finishNegotiation => exact hr.elim
  | _ => cases stage <;> rfl

/-- What is quiet is admitted at every stage, and changes none. -/
theorem may_of_quiet {r : NetReq} (hr : Quiet r) : stage.may length request r ∧ ∀ x, stage.next r x = stage := by
  refine ⟨?_, next_of_quiet hr⟩
  cases r with
  | ongoing | claim | wait | send | prepare | finishNegotiation => exact hr.elim
  | _ => exact trivial

/-- A quiet task stays at its stage. -/
theorem obeys_of_quiet {R : α → Prop} {p : Net α} (h : p.Within Quiet R) :
    p.Obeys (protocol cfg length request) (fun q a => q = stage ∧ R a) stage :=
  h.obeys fun _ hr => may_of_quiet hr

/-- What a task awaits, followed by more. -/
theorem obeys_ask {S : Stage → β → Prop} {r : NetReq} {f : NetResp r → Net β} (hmay : stage.may length request r)
    (hf : ∀ x, Agreeable cfg length request r x → (f x).Obeys (protocol cfg length request) S (stage.next r x)) :
    ((ask r).bind f).Obeys (protocol cfg length request) S stage :=
  ⟨hmay, hf⟩

/-- A quiet task followed by more. -/
theorem obeys_quiet_bind {R : α → Prop} {S : Stage → β → Prop} {p : Net α} {f : α → Net β} (hp : p.Within Quiet R)
    (hf : ∀ a, R a → (f a).Obeys (protocol cfg length request) S stage) : (p.bind f).Obeys (protocol cfg length request) S stage := by
  refine (obeys_of_quiet hp).bind ?_
  rintro q a ⟨rfl, ha⟩
  exact hf a ha

/-! ## Quiet tasks -/

/-- The building of a response. -/
theorem respond_quiet (answer : Answer) : (respond answer).Uses Quiet :=
  ⟨trivial, fun built _ => by cases built <;> trivial⟩

/-- Opening and following a download. -/
theorem serveTail_quiet (handle : DownloadHandle) (start : Nat) (limit : Option Nat) : (serveTail handle start limit).Uses Quiet := by
  refine ⟨trivial, fun opened _ => ?_⟩
  cases opened with
  | false => trivial
  | true =>
    refine ⟨trivial, fun followed _ => ?_⟩
    cases followed with
    | false => trivial
    | true => exact respond_quiet _

/-- A range that is served from a download is declined only for an unknown length. -/
theorem serveRangeDownload_quiet (handle : DownloadHandle) {headers : Headers} (hstart : (coalescibleRangeStart headers).isSome = true) :
    (serveRangeDownload handle headers).Within Quiet fun x => x = none → handle.totalLen = none := by
  have hserved : ∀ p : Net Answered, p.Uses Quiet →
      (p.bind fun answer => .ret (some answer)).Within Quiet fun x => x = none → handle.totalLen = none :=
    fun p hp => Task.Within.bind hp fun _ _ => nofun
  obtain ⟨start, hstart⟩ := Option.isSome_iff_exists.1 hstart
  have hrange : ∃ range, Http.str headers "range" = some range := by
    cases hrange : Http.str headers "range" with
    | none =>
      simp only [coalescibleRangeStart, hrange] at hstart
      nomatch hstart
    | some range => exact ⟨range, rfl⟩
  obtain ⟨range, hrange⟩ := hrange
  unfold serveRangeDownload
  cases hlen : handle.totalLen with
  | none => exact fun _ => rfl
  | some totalLen =>
    simp only [hrange]
    cases hparse : Http.parseRangeHeader range totalLen with
    | satisfiable first last =>
      refine ⟨trivial, fun snapshot _ => ?_⟩
      have hnear : ¬ (snapshot.phase = .running ∧ first > saturatingAdd snapshot.written seekAheadLimit) := by
        obtain ⟨rfl, hlimit⟩ := start_of_coalescible hstart hrange hparse
        have hmax : seekAheadLimit ≤ u64Max := by decide
        rintro ⟨-, hfar⟩
        unfold saturatingAdd at hfar
        omega
      show Task.Within Quiet _ (if snapshot.phase = .running ∧ first > saturatingAdd snapshot.written seekAheadLimit then _ else _)
      rw [if_neg hnear]
      exact hlen ▸ hserved _ (serveTail_quiet ..)
    | unsatisfiable => exact hlen ▸ hserved _ (respond_quiet _)
    | ignore => exact hlen ▸ hserved _ (serveTail_quiet ..)

/-- A request is declined by a download only when it is a `GET` of a range and the length of the download is unknown. -/
theorem serveExistingDownload_quiet (request : Request) (handle : DownloadHandle) :
    (serveExistingDownload handle request.headers request.head).Within Quiet fun x => x = none →
      request.head = false ∧ (Http.get request.headers "range").isSome = true ∧ handle.totalLen = none := by
  have hserved : ∀ (p : Net Answered) (R : Prop), p.Uses Quiet →
      (p.bind fun answer => .ret (some answer)).Within Quiet fun x => x = none → R :=
    fun p R hp => Task.Within.bind hp fun _ _ => nofun
  unfold serveExistingDownload
  split
  · exact hserved _ _ (respond_quiet _)
  · next hhead =>
    split
    · exact hserved _ _ (serveTail_quiet ..)
    · next hrange =>
      have hstart : (coalescibleRangeStart request.headers).isSome = true :=
        ((Bool.or_eq_true_iff).1 request.coalesces).resolve_left hrange
      refine (serveRangeDownload_quiet handle hstart).mono (fun _ => id) fun x hx hnone => ⟨eq_false_of_ne_true hhead, ?_, hx hnone⟩
      exact Option.isSome_iff_ne_none.2 fun hnone => hrange (Option.isNone_iff_eq_none.2 hnone)

/-- Validating a URL asks the resolver only. -/
theorem validateUpstreamUrl_quiet (libs : NetLibs) (hint : Str) : (validateUpstreamUrl libs hint).run.Uses Quiet := by
  have hrecord : (resolvePublicTarget libs (normalizeServerUrl hint)).run.Obeys
      (.recording (fun _ _ => True) (fun _ _ => False) fun _ => Quiet) _ [] :=
    resolvePublicTarget_obeys (normalizeServerUrl hint) fun _ _ => trivial
  have hresolve : (resolvePublicTarget libs (normalizeServerUrl hint)).run.Uses Quiet :=
    Task.Obeys.sim (T := fun _ _ => True)
      ⟨fun _ _ _ => trivial, fun _ _ _ _ hr => ⟨hr, fun _ => trivial⟩, fun _ _ l => l.elim, fun _ _ l => l.elim⟩
      (fun _ _ _ _ _ => trivial) trivial hrecord
  exact Task.Uses.run_bind (Task.Uses.run_bind hresolve fun _ => trivial) fun _ => trivial

/-- Handing out a candidate asks the resolver only. -/
theorem popPending_quiet (libs : NetLibs) (pending : List (Tier × Str)) (walk : Walk) :
    (Walk.popPending libs pending walk).Uses Quiet := by
  induction pending with
  | nil => trivial
  | cons e pending ih =>
    refine (validateUpstreamUrl_quiet libs e.2).bind fun x => ?_
    cases x with
    | error error => exact ih
    | ok base =>
      show Task.Uses Quiet (if base ∈ walk.tried then _ else _)
      split
      · exact ih
      · trivial

/-- The list of the author is fetched at every stage. -/
theorem takeUserServers_quiet (walk : Walk) : walk.takeUserServers.Uses Quiet := by
  unfold Walk.takeUserServers
  split
  · trivial
  · dsimp only
    split
    · trivial
    · refine ⟨trivial, fun servers _ => ?_⟩
      cases servers with
      | error error => trivial
      | ok servers =>
        show Task.Uses Quiet (if servers.isEmpty = true then _ else _)
        split <;> trivial

/-! ## Walks -/

/-- The loop over pending hints stays at its stage until the caller has an answer. -/
theorem tryPending_obeys {attempt : Candidate → Net (Option α)}
    (hattempt : ∀ candidate, (attempt candidate).Obeys (protocol cfg length request) (fun q answer => answer = none → q = stage) stage)
    (rounds : Nat) (walk : Walk) : (tryPending cfg.libs attempt rounds walk).Obeys (protocol cfg length request)
      (fun q x => x.1 = none → q = stage) stage := by
  induction rounds generalizing walk with
  | zero => exact fun _ => rfl
  | succ rounds ih =>
    refine obeys_quiet_bind (popPending_quiet cfg.libs walk.pending walk) fun x _ => ?_
    obtain ⟨candidate, walk⟩ := x
    cases candidate with
    | none => exact fun _ => rfl
    | some candidate =>
      refine (hattempt candidate).bind fun q answer hq => ?_
      cases answer with
      | some answer => exact nofun
      | none =>
        obtain rfl := hq rfl
        exact ih walk

/-- A walk attempts its candidates at its stage. -/
theorem walk_obeys {attempt : Candidate → Net (Option α)} (filename : Str) (customOrigin : Option Str) (xsServers : Option (List Str))
    (authorPubkey : Option PublicKey)
    (hattempt : ∀ candidate, (attempt candidate).Obeys (protocol cfg length request) (fun q answer => answer = none → q = stage) stage) :
    (walk cfg filename customOrigin xsServers authorPubkey attempt).Obeys (protocol cfg length request) (fun _ _ => True) stage := by
  refine (tryPending_obeys hattempt _ _).bind fun q x hq => ?_
  obtain ⟨answer, walk⟩ := x
  cases answer with
  | some answer => trivial
  | none =>
    obtain rfl := hq rfl
    refine obeys_quiet_bind (takeUserServers_quiet walk) fun x _ => ?_
    obtain ⟨added, walk⟩ := x
    cases added with
    | false => trivial
    | true => exact (tryPending_obeys hattempt _ _).bind fun _ _ _ => trivial

/-! ## Requests to a server -/

/-- A request whose own range does not ask for all bytes, or that has none, sends it at the end. -/
theorem asksForAll_own (hget : request.head = false) (hrange : (Http.get request.headers "range").isSome = true)
    (hpart : ¬ request.RangesOverAll length) : asksForAll length (copyHeadersToReqwest request.headers) = false := by
  have hsame : Http.str (copyHeadersToReqwest request.headers) "range" = Http.str request.headers "range" := by
    rw [Http.str, copyHeadersToReqwest, get_copyHeaders, if_pos (by decide), Http.str]
  unfold asksForAll
  rw [hsame]
  exact eq_false_of_ne_true fun hall => hpart ⟨hget, hrange, hall⟩

/-- A request with its own range, sent to a server when there is no guard to hold any more. -/
theorem sendTo_own_obeys {guard : Option HandleId} (hown : asksForAll length (copyHeadersToReqwest request.headers) = false)
    (method : Fetch.Method) (url : Str) : (sendTo cfg.libs method url (copyHeadersToReqwest request.headers)).Obeys
      (protocol cfg length request) (fun q _ => q = .over guard) (.over guard) := by
  unfold sendTo
  split
  · rfl
  · exact ⟨.inr hown, fun _ _ => rfl⟩

/-- The request of the client, sent to the servers. -/
theorem proxyRequestToUpstream_obeys {guard : Option HandleId}
    (hown : asksForAll length (copyHeadersToReqwest request.headers) = false) (filename : Str) (customOrigin : Option Str)
    (xsServers : Option (List Str)) (authorPubkey : Option PublicKey) :
    (proxyRequestToUpstream cfg filename request.headers customOrigin xsServers authorPubkey).Obeys (protocol cfg length request)
      (fun _ _ => True) (.over guard) := by
  refine (walk_obeys _ _ _ _ fun candidate => ?_).bind fun _ _ _ => trivial
  refine (sendTo_own_obeys hown .get candidate.url).bind ?_
  rintro _ result rfl
  cases result with
  | error error => exact fun _ => rfl
  | ok response =>
    show Task.Obeys _ _ (if response.isSuccess = true then _ else _) _
    split
    · exact obeys_quiet_bind (respond_quiet _) fun _ _ => nofun
    · exact fun _ => rfl

/-- A request that found a download is served from it, or sends its own range, which does not ask for all bytes. -/
theorem attachOrProxy_obeys {guard : Option HandleId} {handle : DownloadHandle}
    (hhandle : request.RangesOverAll length → handle.totalLen.isSome = true) (filename : Str) (customOrigin : Option Str)
    (xsServers : Option (List Str)) (authorPubkey : Option PublicKey) :
    (attachOrProxy cfg handle filename request.headers request.head customOrigin xsServers authorPubkey).Obeys
      (protocol cfg length request) (fun _ _ => True) (.over guard) := by
  refine obeys_quiet_bind (serveExistingDownload_quiet request handle) fun answer hanswer => ?_
  cases answer with
  | some answer => trivial
  | none =>
    obtain ⟨hget, hrange, hlen⟩ := hanswer rfl
    refine proxyRequestToUpstream_obeys (asksForAll_own hget hrange fun hall => ?_) _ _ _ _
    nomatch hlen ▸ hhandle hall

/-! ## The negotiation -/

/-- The end of a negotiation that a request leads. -/
theorem finishNegotiation_obeys {id : HandleId} {phase : NegotiationPhase} (hphase : phase ≠ .pending)
    (hstage : stage = .answered id ∨ stage = .over (some id)) : (finishNegotiation (some id) phase).Obeys (protocol cfg length request)
      (fun q _ => q = .over none) stage := by
  refine ⟨⟨hphase, hstage⟩, fun _ _ => ?_⟩
  rcases hstage with rfl | rfl <;> rfl

/-- The end of a negotiation followed by more. -/
theorem finishNegotiation_bind {id : HandleId} {phase : NegotiationPhase} {S : Stage → α → Prop} {f : Unit → Net α}
    (hphase : phase ≠ .pending)
    (hstage : stage = .answered id ∨ stage = .over (some id)) (hf : (f ()).Obeys (protocol cfg length request) S (.over none)) :
    ((finishNegotiation (some id) phase).bind f).Obeys (protocol cfg length request) S stage := by
  refine (finishNegotiation_obeys hphase hstage).bind ?_
  rintro _ _ rfl
  exact hf

/-- The loop ends as the leader of a negotiation, unless it has an answer. -/
theorem negotiate_obeys {attach : DownloadHandle → Net Answered}
    (hattach : ∀ handle, (request.RangesOverAll length → handle.totalLen.isSome = true) →
      (attach handle).Obeys (protocol cfg length request) (fun _ _ => True) (.over none)) (rounds : Nat) :
    (negotiate request.fileHash attach rounds).Obeys (protocol cfg length request)
      (fun q x => ∀ negotiation, x = .ok negotiation → ∃ id, negotiation = some id ∧ q = .walking id) .unseen := by
  induction rounds with
  | zero => exact ⟨trivial, fun x => nomatch x⟩
  | succ rounds ih =>
    refine ⟨⟨rfl, rfl⟩, fun claim _ => ?_⟩
    cases claim with
    | leader id =>
      rintro _ ⟨⟩
      exact ⟨id, rfl, rfl⟩
    | follower id =>
      refine ⟨rfl, fun phase hphase => ?_⟩
      cases phase with
      | pending => exact absurd rfl hphase
      | failed => exact ih
      | ready =>
        refine ⟨⟨rfl, .inr rfl⟩, fun found hfound => ?_⟩
        cases found with
        | none => exact ih
        | some handle => exact (hattach handle hfound).bind fun _ _ _ => nofun

/-! ## The leader -/

/-- A download goes on in the background, and the leader lets go of its guard. -/
theorem answerInBackground_obeys {id : HandleId} (prepared : DownloadHandle) (answer : Answered) :
    (answerInBackground prepared (some id) answer).Obeys (protocol cfg length request) (fun _ _ => True) (.over (some id)) := by
  cases answer with
  | ok answer => exact finishNegotiation_bind nofun (.inr rfl) ⟨trivial, fun _ _ => trivial⟩
  | error status => exact ⟨trivial, fun _ _ => trivial⟩

/-- A leader that serves what it downloads. -/
theorem streamAndSaveFromUpstream_obeys {id : HandleId} (response : HttpResponse) (prepared : DownloadHandle) :
    (streamAndSaveFromUpstream cfg response prepared (some id)).Obeys (protocol cfg length request)
      (fun _ _ => True) (.over (some id)) := by
  have hdrop : ∀ removeFile status, ((ask (.dropPrepared prepared.id removeFile)).bind fun _ => .ret (.error status : Answered)).Obeys
      (protocol cfg length request) (fun _ _ => True) (.over (some id)) := fun _ _ => ⟨trivial, fun _ _ => trivial⟩
  unfold streamAndSaveFromUpstream
  split
  · refine ⟨trivial, fun _ _ => ?_⟩
    exact finishNegotiation_bind nofun (.inr rfl) ((obeys_of_quiet (respond_quiet _)).mono fun _ _ _ => trivial)
  · refine ⟨trivial, fun opened _ => ?_⟩
    cases opened with
    | false => exact hdrop _ _
    | true =>
      refine ⟨trivial, fun followed _ => ?_⟩
      cases followed with
      | false => exact hdrop _ _
      | true =>
        refine obeys_quiet_bind (p := respond (.attached prepared 0 response.contentLength)) (respond_quiet _) fun answer _ => ?_
        cases answer with
        | error status => exact hdrop _ _
        | ok answer => exact finishNegotiation_bind nofun (.inr rfl) ⟨trivial, fun _ _ => trivial⟩

/-- A leader whose download is impossible lets go of its guard, and sends its own range, which does not ask for all bytes. -/
theorem proxyOriginalRange_obeys {id : HandleId} (hown : asksForAll length (copyHeadersToReqwest request.headers) = false) (fileUrl : Str) :
    (proxyOriginalRange cfg fileUrl request.headers (some id)).Obeys (protocol cfg length request) (fun _ _ => True) (.answered id) := by
  refine finishNegotiation_bind nofun (.inl rfl) ((sendTo_own_obeys hown .get fileUrl).bind ?_)
  rintro _ result rfl
  cases result with
  | ok response => exact (obeys_of_quiet (respond_quiet _)).mono fun _ _ _ => trivial
  | error error => trivial

/-- What a leader makes of the response of a server that has the blob. -/
theorem handleSuccessfulUpstreamResponse_obeys {id : HandleId} {response : HttpResponse}
    (hresponse : request.RangesOverAll length → ∃ totalLen, upstreamResponseTotalLen response = some totalLen ∧ totalLen ≤ cfg.maxSizeBytes)
    (fileUrl : Str) :
    (handleSuccessfulUpstreamResponse cfg response fileUrl request.fileHash request.headers request.head (some id)).Obeys
      (protocol cfg length request) (fun _ _ => True) (.answered id) := by
  unfold handleSuccessfulUpstreamResponse
  simp only
  split
  · refine ⟨⟨rfl, id, rfl⟩, fun prepared _ => ?_⟩
    cases prepared with
    | none => trivial
    | some prepared =>
      exact obeys_quiet_bind (p := serveHeadDownload prepared) (respond_quiet _) fun answer _ => answerInBackground_obeys prepared answer
  · next hhead =>
    split
    · refine ⟨⟨rfl, id, rfl⟩, fun prepared _ => ?_⟩
      cases prepared with
      | none => trivial
      | some prepared => exact streamAndSaveFromUpstream_obeys response prepared
    · next hrange =>
      split
      · exact (obeys_of_quiet (respond_quiet _)).mono fun _ _ _ => trivial
      · next hstart =>
        have hsome : (Http.get request.headers "range").isSome = true :=
          Option.isSome_iff_ne_none.2 fun hnone => hrange (Option.isNone_iff_eq_none.2 hnone)
        -- A range that asks for all bytes has an answer that can be stored.
        have hown : (∀ totalLen, upstreamResponseTotalLen response = some totalLen → totalLen > cfg.maxSizeBytes) →
            asksForAll length (copyHeadersToReqwest request.headers) = false := by
          refine fun hlarge => asksForAll_own (eq_false_of_ne_true hhead) hsome fun hall => ?_
          obtain ⟨totalLen, hlen, hle⟩ := hresponse hall
          exact Nat.not_lt_of_le hle (hlarge totalLen hlen)
        split
        · next hlen => exact proxyOriginalRange_obeys (hown fun _ he => nomatch hlen.symm.trans he) fileUrl
        · next totalLen hlen =>
          split
          · next hlarge =>
            refine proxyOriginalRange_obeys (hown fun totalLen' he => ?_) fileUrl
            obtain rfl : totalLen = totalLen' := Option.some.inj (hlen.symm.trans he)
            exact hlarge
          · refine ⟨⟨rfl, id, rfl⟩, fun prepared _ => ?_⟩
            cases prepared with
            | none => trivial
            | some prepared =>
              have hstart' : (coalescibleRangeStart request.headers).isSome = true :=
                Option.isSome_iff_ne_none.2 fun hnone => hstart (Option.isNone_iff_eq_none.2 hnone)
              exact obeys_quiet_bind (p := serveRangeDownload prepared request.headers) (serveRangeDownload_quiet prepared hstart')
                fun answer _ => answerInBackground_obeys prepared _

/-- The first request for a blob: when a server has the blob, its leader is about to make something of the response. -/
theorem coldFetch_obeys {id : HandleId} (method : Fetch.Method) (url : Str) (headers : Headers) :
    (sendTo cfg.libs method url headers).Obeys (protocol cfg length request) (fun q result => match result with
      | .ok response =>
        if response.isSuccess then q = .answered id ∧ (request.RangesOverAll length →
          ∃ totalLen, upstreamResponseTotalLen response = some totalLen ∧ totalLen ≤ cfg.maxSizeBytes)
        else q = .walking id
      | .error _ => q = .walking id) (.walking id) := by
  unfold sendTo
  split
  · rfl
  · refine ⟨.inl ⟨id, rfl⟩, fun sent hsent => ?_⟩
    obtain ⟨dns, connected, result⟩ := sent
    cases result with
    | error error => rfl
    | ok response =>
      show if response.isSuccess = true then _ else _
      split
      · next hsuccess => exact ⟨if_pos hsuccess, fun hall => hsent hall response rfl hsuccess⟩
      · next hsuccess => exact if_neg hsuccess

/-- A request obeys the protocol. -/
theorem body_obeys (cfg : UpstreamConfig) (length : Nat) (request : Request) :
    (request.body cfg).Obeys (protocol cfg length request) (fun _ _ => True) .arriving := by
  have hattach : ∀ handle, (request.RangesOverAll length → handle.totalLen.isSome = true) →
      (attachOrProxy cfg handle request.filename request.headers request.head request.customOrigin request.xsServers
        request.authorPubkey).Obeys (protocol cfg length request) (fun _ _ => True) (.over none) :=
    fun _ hhandle => attachOrProxy_obeys hhandle _ _ _ _
  refine obeys_ask ⟨rfl, .inl rfl⟩ fun found hfound => ?_
  cases found with
  | some handle => exact hattach handle hfound
  | none =>
    refine Task.Obeys.bind (R := fun q x => ∀ negotiation, x = .ok negotiation → ∃ id, negotiation = some id ∧ q = .walking id) ?_ ?_
    · split
      · exact negotiate_obeys hattach request.rounds
      · next hcoalesces => exact absurd request.coalesces hcoalesces
    · intro q x hx
      cases x with
      | error answer => trivial
      | ok negotiation =>
        obtain ⟨id, rfl, rfl⟩ := hx negotiation rfl
        refine (walk_obeys _ _ _ _ fun candidate => ?_).bind fun _ _ _ => trivial
        refine (coldFetch_obeys .get candidate.url _).bind fun q result hq => ?_
        cases result with
        | error error => exact fun _ => hq
        | ok response =>
          show Task.Obeys _ _ (if response.isSuccess = true then _ else _) _
          split
          · next hsuccess =>
            obtain ⟨rfl, hresponse⟩ := (if_pos hsuccess).mp hq
            exact (handleSuccessfulUpstreamResponse_obeys hresponse candidate.url).bind fun _ _ _ => nofun
          · next hsuccess => exact fun _ => (if_neg hsuccess).mp hq

end

end SingleFlight

end Almond
