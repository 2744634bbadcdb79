import Almond.Lemmas.FetchAux
import Almond.UpstreamServers

/-! # The servers that the walks ask -/

namespace Almond.UpstreamServers

open Conc (HandleId Task Protocol)
open Coalescing (NegotiationPhase)
open Fetch UpstreamCandidates

/-- The host of a URL was looked up, and one of its addresses passed the filter. -/
def Validated (past : List (Task.Event NetReq NetResp)) (url : Url) : Prop :=
  ∃ host port found, url.hostStr = some host ∧ (⟨.lookupHost host port, .ok found⟩ : Task.Event NetReq NetResp) ∈ past ∧
    ∃ address ∈ found, admits host address.ip = true

/-- What the walks may request: another server only over the client of the upstream servers, and after its host was validated. -/
def MayWalk (past : List (Task.Event NetReq NetResp)) : NetReq → Prop
  | .send client _ url _ => client = upstreamClient ∧ Validated past url
  | _ => True

/-- The protocol of the walks. -/
abbrev walking : Protocol NetReq NetResp Empty (List (Task.Event NetReq NetResp)) :=
  .recording (fun _ _ => True) (fun _ _ => False) MayWalk

/-- The requests that ask no other server. -/
def Local : NetReq → Prop
  | .send _ _ _ _ => False
  | _ => True

/-- A URL text is that of a validated URL, if it is one of a URL. -/
def ValidText (libs : NetLibs) (past : List (Task.Event NetReq NetResp)) (url : Str) : Prop :=
  ∀ parsed, libs.parse url = some parsed → Validated past parsed

/-- The host of a URL ends where its path begins: a path that is appended to a URL leaves its host. -/
def KeepsHost (libs : NetLibs) : Prop :=
  ∀ base filename parsed parsed', hasScheme base = true → libs.parse base = some parsed → libs.parse (blobUrl base filename) = some parsed' →
    parsed'.hostStr = parsed.hostStr

section

variable {past q : List (Task.Event NetReq NetResp)} {libs : NetLibs} {cfg : UpstreamConfig} {α : Type}

/-- What was validated stays so. -/
theorem Validated.mono {url : Url} (h : Validated past url) (hq : past <:+ q) : Validated q url := by
  obtain ⟨host, port, found, hhost, hmem, hadmits⟩ := h
  exact ⟨host, port, found, hhost, hq.subset hmem, hadmits⟩

/-- A text of a validated URL stays so. -/
theorem ValidText.mono {url : Str} (h : ValidText libs past url) (hq : past <:+ q) : ValidText libs q url :=
  fun parsed hparsed => (h parsed hparsed).mono hq

/-- A task that keeps to the protocol of the walks. -/
abbrev Walks (past : List (Task.Event NetReq NetResp)) (p : Net α) : Prop :=
  p.Obeys walking (fun q _ => past <:+ q) past

/-- A sequence keeps to the protocol when both parts do, whatever was requested before the second. -/
theorem Walks.bind {β : Type} {p : Net α} {f : α → Net β} (hp : Walks past p) (hf : ∀ q a, past <:+ q → Walks q (f a)) :
    Walks past (p.bind f) :=
  Task.Obeys.bind hp fun q a hq => (hf q a hq).mono fun _ _ h => hq.trans h

/-- A task that has its result. -/
theorem walks_ret (a : α) : Walks past (.ret a : Net α) :=
  List.suffix_refl past

/-- A request that asks no other server, followed by more. -/
theorem walks_ask {r : NetReq} {f : NetResp r → Net α} (hr : Local r) (hf : ∀ q x, past <:+ q → Walks q (f x)) :
    Walks past ((ask r).bind f) := by
  refine Walks.bind (p := ask r) ⟨?_, fun x _ => List.suffix_cons ..⟩ hf
  cases r with
  | send => exact hr.elim
  | _ => trivial

/-! ## Answers -/

/-- The building of a response. -/
theorem respond_walks (answer : Answer) : Walks past (respond answer) :=
  walks_ask trivial fun _ built _ => by cases built <;> exact walks_ret _

/-- Opening and following a download. -/
theorem serveTail_walks (handle : DownloadHandle) (start : Nat) (limit : Option Nat) : Walks past (serveTail handle start limit) := by
  refine walks_ask trivial fun q opened _ => ?_
  cases opened with
  | false => exact walks_ret _
  | true =>
    refine walks_ask trivial fun q followed _ => ?_
    cases followed with
    | false => exact walks_ret _
    | true => exact respond_walks _

/-- A range of a download. -/
theorem serveRangeDownload_walks (handle : DownloadHandle) (headers : Headers) : Walks past (serveRangeDownload handle headers) := by
  unfold serveRangeDownload
  split
  · next totalLen range _ _ =>
    split
    · next start limit _ =>
      refine walks_ask trivial fun q snapshot _ => ?_
      split
      · exact walks_ret _
      · exact (serveTail_walks _ _ _).bind fun _ _ _ => walks_ret _
    · exact (respond_walks _).bind fun _ _ _ => walks_ret _
    · exact (serveTail_walks _ _ _).bind fun _ _ _ => walks_ret _
  · exact walks_ret _

/-- A download under way. -/
theorem serveExistingDownload_walks (handle : DownloadHandle) (headers : Headers) (head : Bool) :
    Walks past (serveExistingDownload handle headers head) := by
  unfold serveExistingDownload
  split
  · exact (respond_walks _).bind fun _ _ _ => walks_ret _
  · split
    · exact (serveTail_walks _ _ _).bind fun _ _ _ => walks_ret _
    · exact serveRangeDownload_walks handle headers

/-- The end of a negotiation. -/
theorem finishNegotiation_walks (negotiation : Option HandleId) (phase : NegotiationPhase) :
    Walks past (finishNegotiation negotiation phase) := by
  cases negotiation with
  | none => exact walks_ret _
  | some id => exact walks_ask (f := .ret) trivial fun _ _ _ => walks_ret _

/-- A response that is served while it is downloaded. -/
theorem streamAndSaveFromUpstream_walks (response : HttpResponse) (prepared : DownloadHandle) (negotiation : Option HandleId) :
    Walks past (streamAndSaveFromUpstream cfg response prepared negotiation) := by
  have hdrop : ∀ {q} removeFile status, Walks q ((ask (.dropPrepared prepared.id removeFile)).bind fun _ => .ret (.error status : Answered)) :=
    fun _ _ => walks_ask trivial fun _ _ _ => walks_ret _
  unfold streamAndSaveFromUpstream
  split
  · exact walks_ask trivial fun _ _ _ => (finishNegotiation_walks _ _).bind fun _ _ _ => respond_walks _
  · refine walks_ask trivial fun q opened _ => ?_
    cases opened with
    | false => exact hdrop _ _
    | true =>
      refine walks_ask trivial fun q followed _ => ?_
      cases followed with
      | false => exact hdrop _ _
      | true =>
        refine (respond_walks _).bind fun q answer _ => ?_
        cases answer with
        | error status => exact hdrop _ _
        | ok answer =>
          refine (finishNegotiation_walks _ _).bind fun q _ _ => ?_
          exact walks_ask trivial fun _ _ _ => walks_ret _

/-- An answer from a download that goes on in the background. -/
theorem answerInBackground_walks (prepared : DownloadHandle) (negotiation : Option HandleId) (answer : Answered) :
    Walks past (answerInBackground prepared negotiation answer) := by
  cases answer with
  | ok answer =>
    refine (finishNegotiation_walks _ _).bind fun q _ _ => ?_
    exact walks_ask trivial fun _ _ _ => walks_ret _
  | error status => exact walks_ask trivial fun _ _ _ => walks_ret _

/-! ## Requests to a server -/

/-- A request to a validated URL. -/
theorem sendTo_walks {method : Fetch.Method} {url : Str} {headers : Headers} (h : ValidText libs past url) :
    Walks past (sendTo libs method url headers) := by
  unfold sendTo
  cases hparse : libs.parse url with
  | none => exact walks_ret _
  | some parsed => exact ⟨⟨rfl, h parsed hparse⟩, fun _ _ => List.suffix_cons ..⟩

/-- The range of the client, asked of a server again. -/
theorem proxyOriginalRange_walks {fileUrl : Str} (h : ValidText cfg.libs past fileUrl) (headers : Headers)
    (negotiation : Option HandleId) : Walks past (proxyOriginalRange cfg fileUrl headers negotiation) := by
  refine (finishNegotiation_walks _ _).bind fun q _ hq => ?_
  refine (sendTo_walks (h.mono hq)).bind fun q result _ => ?_
  cases result with
  | ok response => exact respond_walks _
  | error error => exact walks_ret _

/-- The response of a server that has the blob. -/
theorem handleSuccessfulUpstreamResponse_walks {fileUrl : Str} (h : ValidText cfg.libs past fileUrl) (response : HttpResponse)
    (fileHash : Str) (headers : Headers) (head : Bool) (negotiation : Option HandleId) :
    Walks past (handleSuccessfulUpstreamResponse cfg response fileUrl fileHash headers head negotiation) := by
  unfold handleSuccessfulUpstreamResponse
  simp only
  split
  · refine walks_ask trivial fun q prepared _ => ?_
    cases prepared with
    | none => exact walks_ret _
    | some prepared => exact (respond_walks _).bind fun _ _ _ => answerInBackground_walks _ _ _
  · split
    · refine walks_ask trivial fun q prepared _ => ?_
      cases prepared with
      | none => exact walks_ret _
      | some prepared => exact streamAndSaveFromUpstream_walks _ _ _
    · split
      · exact respond_walks _
      · split
        · exact proxyOriginalRange_walks h _ _
        · split
          · exact proxyOriginalRange_walks h _ _
          · refine walks_ask trivial fun q prepared _ => ?_
            cases prepared with
            | none => exact walks_ret _
            | some prepared => exact (serveRangeDownload_walks _ _).bind fun _ _ _ => answerInBackground_walks _ _ _

/-! ## Walks -/

/-- A base that was validated leads to validated URLs. -/
theorem validateUpstreamUrl_obeys (hkeeps : KeepsHost libs) (hint filename : Str) :
    (validateUpstreamUrl libs hint).run.Obeys walking
      (fun q x => past <:+ q ∧ ∀ base, x = .ok base → ValidText libs q (blobUrl base filename)) past := by
  have hscheme : hasScheme (normalizeServerUrl hint) = true := by
    unfold normalizeServerUrl
    split
    · assumption
    · rfl
  have hresolve : (resolvePublicTarget libs (normalizeServerUrl hint)).run.Obeys walking _ past :=
    resolvePublicTarget_obeys (normalizeServerUrl hint) fun _ _ => trivial
  refine Task.Obeys.run_bind (R := fun q x => past <:+ q ∧ ∀ u, x = .ok u → ValidText libs q (blobUrl (normalizeServerUrl hint) filename)) ?_
    (fun q error h => ⟨h.1, fun _ hx => nomatch hx⟩) fun q u h => ⟨h.1, fun base hx => ?_⟩
  · refine Task.Obeys.run_bind (R := fun q x => past <:+ q ∧ ∀ target, x = .ok target → Resolved target past q ∧
      libs.parse (normalizeServerUrl hint) = some target.url) ?_ (fun q error h => ⟨h.1, fun _ hx => nomatch hx⟩) fun q target h => ⟨h.1, ?_⟩
    · refine hresolve.mono fun q x hx => ?_
      cases x with
      | error error => exact ⟨hx.1, fun _ he => nomatch he⟩
      | ok target =>
        obtain ⟨_, _, hfound, _⟩ := hx.1.found
        exact ⟨hfound ▸ List.suffix_cons .., fun _ he => by cases he; exact hx⟩
    · rintro u - parsed hparsed
      obtain ⟨hresolved, hparse⟩ := h.2 target rfl
      obtain ⟨port, found, hfound, haddresses⟩ := hresolved.found
      obtain ⟨address, hmem⟩ := List.exists_mem_of_ne_nil _ hresolved.nonempty
      have hadmits := hresolved.admits hmem
      rw [haddresses] at hmem
      exact ⟨target.host, port, found, (hkeeps _ _ _ _ hscheme hparse hparsed).trans hresolved.host, hfound ▸ List.mem_cons_self, address,
        List.mem_of_mem_filter hmem, hadmits⟩
  · cases hx
    exact h.2 u rfl

/-- A candidate that is handed out has a validated URL. -/
theorem popPending_obeys (hkeeps : KeepsHost libs) (pending : List (Tier × Str)) (walk : UpstreamCandidates.Walk) :
    (Walk.popPending libs pending walk).Obeys walking
      (fun q x => past <:+ q ∧ ∀ candidate, x.1 = some candidate → ValidText libs q candidate.url) past := by
  induction pending generalizing past with
  | nil => exact ⟨List.suffix_refl past, nofun⟩
  | cons e pending ih =>
    refine Task.Obeys.bind (validateUpstreamUrl_obeys hkeeps e.2 walk.filename) ?_
    rintro q x ⟨hq, hvalid⟩
    have hlater : (Walk.popPending libs pending walk).Obeys walking
        (fun q x => past <:+ q ∧ ∀ candidate, x.1 = some candidate → ValidText libs q candidate.url) q :=
      Task.Obeys.mono (fun _ _ h => ⟨hq.trans h.1, h.2⟩) ih
    cases x with
    | error error => exact hlater
    | ok base =>
      show Task.Obeys _ _ (if base ∈ walk.tried then _ else _) q
      split
      · exact hlater
      · refine ⟨hq, ?_⟩
        rintro _ ⟨⟩
        exact hvalid base rfl

/-- What follows the loop of a walk may count on a hint being used up. -/
theorem popPending_bind_congr {β : Type} {f g : Option Candidate × UpstreamCandidates.Walk → Net β} (pending : List (Tier × Str))
    (walk : UpstreamCandidates.Walk) (h : ∀ x, (x.1 = none ∨ x.2.pending.length < pending.length) → f x = g x) :
    (Walk.popPending libs pending walk).bind f = (Walk.popPending libs pending walk).bind g := by
  induction pending with
  | nil => exact h _ (.inl rfl)
  | cons e pending ih =>
    rw [Walk.popPending]
    simp only [Task.bind_eq, Task.bind_assoc]
    refine congrArg _ (funext fun result => ?_)
    have hlater := ih fun x hx => h x (hx.imp_right Nat.lt_succ_of_lt)
    cases result with
    | error error => exact hlater
    | ok base =>
      by_cases hseen : base ∈ walk.tried
      · simp only [hseen, if_true]
        exact hlater
      · simp only [hseen, if_false]
        exact h _ (.inr (Nat.lt_succ_self _))

/-- A loop has as many rounds as it needs: more of them change nothing. -/
theorem tryPending_rounds (attempt : Candidate → Net (Option α)) {rounds rounds' : Nat} (walk : UpstreamCandidates.Walk)
    (h : walk.pending.length ≤ rounds) (h' : walk.pending.length ≤ rounds') :
    tryPending libs attempt rounds walk = tryPending libs attempt rounds' walk := by
  -- A loop without rounds has nothing to try, and returns what a round over nothing returns.
  have hnone : ∀ rounds (walk : UpstreamCandidates.Walk), walk.pending = [] → tryPending libs attempt rounds walk = .ret (none, walk) := by
    intro rounds walk hnil
    cases rounds with
    | zero => rfl
    | succ rounds =>
      rw [tryPending, hnil, Walk.popPending]
      exact congrArg (fun pending => Task.ret (none, { walk with pending := pending })) hnil.symm
  induction rounds generalizing rounds' walk with
  | zero =>
    have hnil := List.length_eq_zero_iff.1 (Nat.le_zero.1 h)
    rw [hnone 0 walk hnil, hnone rounds' walk hnil]
  | succ rounds ih =>
    cases rounds' with
    | zero =>
      have hnil := List.length_eq_zero_iff.1 (Nat.le_zero.1 h')
      rw [hnone _ walk hnil, hnone 0 walk hnil]
    | succ rounds' =>
      refine popPending_bind_congr walk.pending walk fun x hx => ?_
      obtain ⟨candidate, walk'⟩ := x
      cases candidate with
      | none => rfl
      | some candidate =>
        have hless : walk'.pending.length < walk.pending.length := hx.resolve_left nofun
        refine congrArg (Conc.Task.bind (attempt candidate)) (funext fun answer => ?_)
        cases answer with
        | some answer => rfl
        | none => exact ih walk' (by omega) (by omega)

/-- The loop over pending hints hands validated URLs to the caller. -/
theorem tryPending_walks (hkeeps : KeepsHost libs) {attempt : Candidate → Net (Option α)}
    (hattempt : ∀ q candidate, past <:+ q → ValidText libs q candidate.url → Walks q (attempt candidate)) (rounds : Nat)
    (walk : UpstreamCandidates.Walk) : Walks past (tryPending libs attempt rounds walk) := by
  induction rounds generalizing past walk with
  | zero => exact walks_ret _
  | succ rounds ih =>
    refine Task.Obeys.bind (popPending_obeys hkeeps walk.pending walk) ?_
    rintro q ⟨candidate, walk'⟩ ⟨hq, hvalid⟩
    cases candidate with
    | none => exact hq
    | some candidate =>
      refine Task.Obeys.bind (hattempt q candidate hq (hvalid candidate rfl)) fun q' answer hq' => ?_
      cases answer with
      | some answer => exact hq.trans hq'
      | none =>
        exact (ih (fun q'' candidate hq'' => hattempt q'' candidate ((hq.trans hq').trans hq'')) walk').mono
          fun _ _ h => (hq.trans hq').trans h

/-- The list of the author is fetched from no upstream server. -/
theorem takeUserServers_walks (walk : UpstreamCandidates.Walk) : Walks past walk.takeUserServers := by
  unfold Walk.takeUserServers
  split
  · exact walks_ret _
  · dsimp only
    split
    · exact walks_ret _
    · refine walks_ask trivial fun q servers _ => ?_
      cases servers with
      | error error => exact walks_ret _
      | ok servers =>
        show Walks _ (if servers.isEmpty = true then _ else _)
        split <;> exact walks_ret _

/-- A walk hands validated URLs to the caller. -/
theorem walk_walks (hkeeps : KeepsHost cfg.libs) {filename : Str} {attempt : Candidate → Net (Option α)} (customOrigin : Option Str)
    (xsServers : Option (List Str)) (authorPubkey : Option PublicKey)
    (hattempt : ∀ q candidate, past <:+ q → ValidText cfg.libs q candidate.url → Walks q (attempt candidate)) :
    Walks past (walk cfg filename customOrigin xsServers authorPubkey attempt) := by
  refine (tryPending_walks hkeeps hattempt _ _).bind fun q answer hq => ?_
  obtain ⟨answer, walk⟩ := answer
  cases answer with
  | some answer => exact walks_ret _
  | none =>
    refine (takeUserServers_walks walk).bind fun q' taken hq' => ?_
    obtain ⟨added, walk'⟩ := taken
    cases added with
    | false => exact walks_ret _
    | true =>
      refine (tryPending_walks hkeeps (fun q'' candidate hq'' => hattempt q'' candidate ((hq.trans hq').trans hq'')) _ _).bind ?_
      exact fun _ _ _ => walks_ret _

/-- The request of the client, sent to the servers. -/
theorem proxyRequestToUpstream_walks (hkeeps : KeepsHost cfg.libs) (filename : Str) (headers : Headers) (customOrigin : Option Str)
    (xsServers : Option (List Str)) (authorPubkey : Option PublicKey) :
    Walks past (proxyRequestToUpstream cfg filename headers customOrigin xsServers authorPubkey) := by
  refine (walk_walks hkeeps _ _ _ fun q candidate _ hvalid => ?_).bind fun _ _ _ => walks_ret _
  refine (sendTo_walks hvalid).bind fun q' result _ => ?_
  cases result with
  | error error => exact walks_ret _
  | ok response =>
    show Walks _ (if response.isSuccess = true then _ else _)
    split
    · exact (respond_walks _).bind fun _ _ _ => walks_ret _
    · exact walks_ret _

/-- A download under way, or the request of the client. -/
theorem attachOrProxy_walks (hkeeps : KeepsHost cfg.libs) (handle : DownloadHandle) (filename : Str) (headers : Headers) (head : Bool)
    (customOrigin : Option Str) (xsServers : Option (List Str)) (authorPubkey : Option PublicKey) :
    Walks past (attachOrProxy cfg handle filename headers head customOrigin xsServers authorPubkey) := by
  refine (serveExistingDownload_walks _ _ _).bind fun q answer _ => ?_
  cases answer with
  | some answer => exact walks_ret _
  | none => exact proxyRequestToUpstream_walks hkeeps _ _ _ _ _

/-- The loop that claims the negotiation. -/
theorem negotiate_walks {fileHash : Str} {attach : DownloadHandle → Net Answered} (hattach : ∀ q handle, past <:+ q → Walks q (attach handle))
    (rounds : Nat) : Walks past (negotiate fileHash attach rounds) := by
  induction rounds generalizing past with
  | zero => exact ⟨trivial, fun x _ => nomatch x⟩
  | succ rounds ih =>
    refine walks_ask trivial fun q claim hq => ?_
    cases claim with
    | leader id => exact walks_ret _
    | follower id =>
      refine walks_ask trivial fun q₁ phase hq₁ => ?_
      have hagain : ∀ q', past <:+ q' → Walks q' (negotiate fileHash attach rounds) := fun q' hq' =>
        ih fun q'' handle hq'' => hattach q'' handle (hq'.trans hq'')
      cases phase with
      | failed => exact hagain q₁ (hq.trans hq₁)
      | pending => exact walks_ret _
      | ready =>
        refine walks_ask trivial fun q₂ handle hq₂ => ?_
        have hpast := (hq.trans hq₁).trans hq₂
        cases handle with
        | some handle => exact (hattach q₂ handle hpast).bind fun _ _ _ => walks_ret _
        | none => exact hagain q₂ hpast

/-- `try_upstream_servers` keeps to the protocol of the walks. -/
theorem tryUpstreamServers_walks (hkeeps : KeepsHost cfg.libs) (rounds : Nat) (filename : Str) (headers : Headers) (head : Bool)
    (customOrigin : Option Str) (xsServers : Option (List Str)) (authorPubkey : Option PublicKey) :
    Walks past (tryUpstreamServers cfg rounds filename headers head customOrigin xsServers authorPubkey) := by
  refine walks_ask trivial fun q handle _ => ?_
  cases handle with
  | some handle => exact attachOrProxy_walks hkeeps _ _ _ _ _ _ _
  | none =>
    refine Walks.bind ?_ fun q₁ negotiation _ => ?_
    · split
      · exact negotiate_walks (fun _ _ _ => attachOrProxy_walks hkeeps _ _ _ _ _ _ _) _
      · exact walks_ret _
    · cases negotiation with
      | error answer => exact walks_ret _
      | ok negotiation =>
        refine (walk_walks hkeeps _ _ _ fun q₂ candidate _ hvalid => ?_).bind fun _ _ _ => walks_ret _
        refine (sendTo_walks hvalid).bind fun q₃ result hq₃ => ?_
        cases result with
        | error error => exact walks_ret _
        | ok response =>
          show Walks _ (if response.isSuccess = true then _ else _)
          split
          · exact (handleSuccessfulUpstreamResponse_walks (hvalid.mono hq₃) _ _ _ _ _).bind fun _ _ _ => walks_ret _
          · exact walks_ret _

/-- A download in the background. -/
theorem startBackgroundDownloadForRedirect_walks {fileUrl : Str} (h : ValidText cfg.libs past fileUrl) (fileHash contentType : Str) :
    Walks past (startBackgroundDownloadForRedirect cfg fileUrl fileHash contentType) := by
  refine (sendTo_walks h).bind fun q result _ => ?_
  cases result with
  | error error => exact walks_ret _
  | ok response =>
    show Walks _ (if response.isSuccess = true then _ else _)
    split
    · refine walks_ask trivial fun q prepared _ => ?_
      cases prepared with
      | some prepared => exact walks_ask (f := .ret) trivial fun _ _ _ => walks_ret _
      | none => exact walks_ret _
    · exact walks_ret _

/-- A server that a request is redirected to. -/
theorem tryHeadAndRedirect_walks {fileUrl : Str} (h : ValidText cfg.libs past fileUrl) (fileHash : Str) (cacheInBackground : Bool) :
    Walks past (tryHeadAndRedirect cfg fileUrl fileHash cacheInBackground) := by
  have hrespond : ∀ {q} {k : Answered → Net (Option Answered)}, (∀ answer, ∃ x, k answer = .ret x) →
      Walks q ((respond (.redirected fileUrl)).bind k) := by
    intro q k hk
    refine (respond_walks _).bind fun q answer _ => ?_
    obtain ⟨x, hx⟩ := hk answer
    rw [hx]
    exact walks_ret x
  refine (sendTo_walks h).bind fun q result hq => ?_
  cases result with
  | error error => exact walks_ret _
  | ok response =>
    show Walks _ (if response.isSuccess = true then _ else _)
    split
    · cases cacheInBackground with
      | false =>
        refine hrespond fun answer => ?_
        cases answer <;> exact ⟨_, rfl⟩
      | true =>
        refine walks_ask trivial fun q₁ ongoing hq₁ => ?_
        show Walks _ (if ongoing.isNone ∧ ¬ response.contentLength.any (· > cfg.maxSizeBytes) then _ else _)
        split
        · refine (startBackgroundDownloadForRedirect_walks (h.mono (hq.trans hq₁)) _ _).bind fun _ _ _ => ?_
          refine hrespond fun answer => ?_
          cases answer <;> exact ⟨_, rfl⟩
        · refine hrespond fun answer => ?_
          cases answer <;> exact ⟨_, rfl⟩
    · exact walks_ret _

/-- `try_upstream_redirect` keeps to the protocol of the walks. -/
theorem tryUpstreamRedirect_walks (hkeeps : KeepsHost cfg.libs) (filename : Str) (customOrigin : Option Str)
    (xsServers : Option (List Str)) (authorPubkey : Option PublicKey) (cacheInBackground : Bool) :
    Walks past (tryUpstreamRedirect cfg filename customOrigin xsServers authorPubkey cacheInBackground) := by
  refine walks_ask trivial fun q _ _ => ?_
  refine (walk_walks hkeeps _ _ _ fun q candidate _ hvalid => ?_).bind fun _ _ _ => walks_ret _
  exact tryHeadAndRedirect_walks hvalid _ _

end

end Almond.UpstreamServers
