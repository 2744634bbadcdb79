import Almond.Lemmas.FetchAux

/-! # What the fetches connect to -/

namespace Almond.Fetch

open Conc (Task Protocol)

/-! ## The mirror fetch -/

/-- What precedes a request of `fetch_from_url`: the client was just built, pinned to the addresses that the lookup before it found for
the host of the URL. -/
structure PinnedSend (libs : NetLibs) (client : Client) (url : Url) (before : List (Task.Event NetReq NetResp)) : Prop where
  redirects : client.redirects = false
  pinned : ∃ host port found rest, url.hostStr = some host ∧ allowedScheme url.scheme host = true ∧
    before = ⟨.buildClient client, .ok ()⟩ :: ⟨.lookupHost host port, .ok found⟩ :: rest ∧
    (∃ address ∈ found, admits host address.ip = true ∧ client.pins.lookup host = some address) ∧
    ∀ ip, libs.hostAddress host = some ip → ∃ address ∈ found, admits host address.ip = true ∧ address.ip = ip

/-- What `fetch_from_url` may request: no panic, and another server only over a pinned connection and within the limit. -/
def MayFetch (libs : NetLibs) (past : List (Task.Event NetReq NetResp)) : NetReq → Prop
  | .panic _ => False
  | .send client _ url _ => (∀ e ∈ past, Answers libs e.1 e.2) → PinnedSend libs client url past ∧ sends past ≤ httpRequestMaxRedirects
  | _ => True

/-- The protocol of `fetch_from_url`. -/
abbrev fetching (libs : NetLibs) : Protocol NetReq NetResp Empty (List (Task.Event NetReq NetResp)) :=
  .recording (Answers libs) (fun _ _ => False) (MayFetch libs)

section

variable {libs : NetLibs} {past : List (Task.Event NetReq NetResp)}

/-- A request over the client of a target is pinned. -/
theorem Resolved.pinnedSend {target : ResolvedTarget} {q : List (Task.Event NetReq NetResp)} (h : Resolved target past q)
    (hq : ∀ e ∈ q, Answers libs e.1 e.2) :
    PinnedSend libs (pinnedClient target) target.url (⟨.buildClient (pinnedClient target), .ok ()⟩ :: q) := by
  obtain ⟨hredirects, address, hmem, hpin⟩ := pinnedClient_spec h.nonempty
  obtain ⟨port, found, hfound, haddresses⟩ := h.found
  have hof : ∀ {a}, a ∈ target.addresses → a ∈ found := fun ha => by
    rw [haddresses] at ha
    exact List.mem_of_mem_filter ha
  refine ⟨hredirects, target.host, port, found, past, h.host, h.scheme, hfound ▸ rfl, ⟨address, hof hmem, h.admits hmem, hpin⟩, ?_⟩
  intro ip hip
  obtain ⟨a, ha, haip⟩ := h.literal hq hip
  exact ⟨a, hof ha, h.admits ha, haip⟩

/-- What holds when `fetch_from_url` has returned. -/
def Fetched (q : List (Task.Event NetReq NetResp)) (x : AppResult HttpResponse) : Prop :=
  sends q ≤ httpRequestMaxRedirects + 1 ∧ ∀ response, x = .ok response → response.isSuccess = true

/-- An error within the limit. -/
theorem fetched_error {q : List (Task.Event NetReq NetResp)} (h : sends q ≤ httpRequestMaxRedirects + 1) (e : AppError) :
    Fetched q (.error e) :=
  ⟨h, fun _ hx => nomatch hx⟩

/-- One round of the loop, when the rounds after it keep to the protocol. -/
theorem fetchHops_round {redirects : Nat} {range : List Nat} (url : Str) (hsends : sends past = redirects)
    (hle : redirects ≤ httpRequestMaxRedirects)
    (hrest : redirects ≠ httpRequestMaxRedirects → ∀ q url, sends q = redirects + 1 →
      (fetchHops libs range url).run.Obeys (fetching libs) Fetched q) :
    (fetchHops libs (redirects :: range) url).run.Obeys (fetching libs) Fetched past := by
  have hlimit : sends past ≤ httpRequestMaxRedirects + 1 := hsends ▸ Nat.le_succ_of_le hle
  rw [fetchHops]
  refine Task.Obeys.run_bind (resolvePublicTarget_obeys url fun _ _ => trivial) (fun q e hq => fetched_error (hq.2 ▸ hlimit) e) ?_
  intro q target ⟨htarget, _⟩
  obtain ⟨_, found, hfound, _⟩ := htarget.found
  have hq : sends q = sends past := hfound ▸ rfl
  refine Task.Obeys.run_bind (R := fun q' x => sends q' = sends q ∧ (x = .ok () → q' = ⟨.buildClient (pinnedClient target), .ok ()⟩ :: q)) ?_
    (fun q' e hq' => fetched_error (hq'.1.trans hq ▸ hlimit) e) ?_
  · refine ⟨trivial, fun x _ => ?_⟩
    cases x with
    | error error => exact ⟨rfl, fun hx => nomatch hx⟩
    | ok u => exact ⟨rfl, fun _ => rfl⟩
  · rintro q' u ⟨hsends', hq'⟩
    have hq' := hq' rfl
    have hcount : sends q' = redirects := (hsends'.trans hq).trans hsends
    refine Task.Obeys.lift_bind (R := fun q _ => sends q = redirects + 1) ⟨fun hanswers => ⟨?_, hcount ▸ hle⟩, fun sent _ => ?_⟩ ?_
    · rw [hq'] at hanswers ⊢
      exact htarget.pinnedSend fun e he => hanswers e (List.mem_cons_of_mem _ he)
    · exact congrArg (· + 1) hcount
    · intro q sent hsent
      have hlimit : sends q ≤ httpRequestMaxRedirects + 1 := hsent ▸ Nat.succ_le_succ hle
      cases hresult : sent.result with
      | error error =>
        exact fetched_error hlimit _
      | ok response =>
        show Task.Obeys _ _ (if response.isSuccess = true then _ else _ : NetResult HttpResponse).run q
        by_cases hsuccess : response.isSuccess = true
        · rw [if_pos hsuccess]
          exact ⟨hlimit, fun _ hx => by cases hx; exact hsuccess⟩
        · rw [if_neg hsuccess]
          show Task.Obeys _ _ (if ¬ response.isRedirection = true then _ else _ : NetResult HttpResponse).run q
          by_cases hredirection : response.isRedirection = true
          · rw [if_neg (not_not_intro hredirection)]
            show Task.Obeys _ _ (if redirects = httpRequestMaxRedirects then _ else _ : NetResult HttpResponse).run q
            by_cases hlast : redirects = httpRequestMaxRedirects
            · rw [if_pos hlast]
              exact fetched_error hlimit _
            · rw [if_neg hlast]
              cases hlocation : Http.str response.headers "location" with
              | none => exact fetched_error hlimit _
              | some location =>
                refine Task.Obeys.run_bind (R := fun q _ => sends q = redirects + 1) hsent (fun q e hq => ?_) fun q url hq => ?_
                · exact fetched_error (hq ▸ Nat.succ_le_succ hle) e
                · exact hrest hlast q url hq
          · rw [if_pos hredirection]
            exact fetched_error hlimit _

/-- The loop keeps to the protocol from every round on: its last round ends it. -/
theorem fetchHops_obeys (n k : Nat) (hk : k + n = httpRequestMaxRedirects) (url : Str) (hsends : sends past = k) :
    (fetchHops libs (List.range' k (n + 1)) url).run.Obeys (fetching libs) Fetched past := by
  induction n generalizing k url past with
  | zero => exact fetchHops_round url hsends (Nat.le_of_eq hk) fun hne => absurd hk hne
  | succ n ih =>
    refine fetchHops_round url hsends (by omega) fun _ q url hq => ?_
    exact ih (k + 1) (by omega) url hq

/-- `fetch_from_url` keeps to its protocol. -/
theorem fetchFromUrl_obeys (libs : NetLibs) (url : Str) : (fetchFromUrl libs url).run.Obeys (fetching libs) Fetched [] := by
  have hobeys := @fetchHops_obeys libs [] httpRequestMaxRedirects 0 (Nat.zero_add _) url rfl
  rwa [← List.range_eq_range'] at hobeys

/-- A record within the protocol has at most one request more than the limit of redirects. -/
theorem sends_le_of_after {p q : Net (AppResult HttpResponse)} {R : List (Task.Event NetReq NetResp) → AppResult HttpResponse → Prop}
    (hobeys : p.Obeys (fetching libs) R []) (h : p.After past q) (hpast : ∀ e ∈ past, Answers libs e.1 e.2) :
    sends past ≤ httpRequestMaxRedirects + 1 := by
  induction h with
  | refl => exact Nat.zero_le _
  | @call past r k h x ih =>
    have hpast' := fun e he => hpast e (List.mem_cons_of_mem _ he)
    cases r with
    | send client method url headers =>
      have hmay : MayFetch libs past (.send client method url headers) := (hobeys.after h hpast').1
      exact Nat.succ_le_succ (hmay hpast').2
    | _ => exact ih hpast'
  | acquire _ ih => exact ih hpast
  | release _ ih => exact ih hpast

end

/-- Whatever the start, the redirects and the answers of the resolver are, every request of `fetch_from_url` goes over HTTPS, or over HTTP
to a host of the FIPS overlay, over a client that follows no redirects and was pinned to the addresses that the lookup before it found for
the very host, and connects only to one of them that passed the filter. It sends at most one request more than the limit of redirects, it
never panics, and when it returns without an error the response is a success. -/
theorem fetch_from_url_pinned {libs : NetLibs} {url : Str} {past : List (Task.Event NetReq NetResp)} {q : Net (AppResult HttpResponse)}
    (h : Task.After (fetchFromUrl libs url).run past q) (hpast : ∀ e ∈ past, Answers libs e.1 e.2) :
    (∀ after client method target headers x before, past = after ++ ⟨.send client method target headers, x⟩ :: before →
      ∃ host port found rest, target.hostStr = some host ∧ allowedScheme target.scheme host = true ∧ client.redirects = false ∧
        before = ⟨.buildClient client, .ok ()⟩ :: ⟨.lookupHost host port, .ok found⟩ :: rest ∧
        ∀ ip ∈ x.connected, (∃ address ∈ found, address.ip = ip) ∧ admits host ip = true) ∧
    sends past ≤ httpRequestMaxRedirects + 1 ∧ (∀ message k, q ≠ .call (.panic message) k) ∧
    ∀ response, q = .ret (.ok response) → response.isSuccess = true := by
  have hobeys := fetchFromUrl_obeys libs url
  refine ⟨?_, ?_, ?_, ?_⟩
  · rintro after client method target headers x before rfl
    obtain ⟨k, hbefore⟩ := h.split
    have hanswers : ∀ e ∈ before, Answers libs e.1 e.2 := fun e he => hpast e (List.mem_append_right _ (List.mem_cons_of_mem _ he))
    have hsend : Answers libs (.send client method target headers) x := hpast _ (List.mem_append_right _ List.mem_cons_self)
    have hmay : MayFetch libs before (.send client method target headers) := (hobeys.after hbefore hanswers).1
    obtain ⟨hpinned, _⟩ := hmay hanswers
    obtain ⟨host, port, found, rest, hhost, hscheme, heq, ⟨address, hmem, hadmits, hpin⟩, hliteral⟩ := hpinned.pinned
    refine ⟨host, port, found, rest, hhost, hscheme, hpinned.redirects, heq, fun ip hip => ?_⟩
    obtain ⟨host', hhost', hto⟩ := hsend ip hip
    obtain rfl : host = host' := Option.some.inj (hhost.symm.trans hhost')
    cases hl : libs.hostAddress host with
    | some literal =>
      obtain ⟨a, ha, hadmits, hip'⟩ := hliteral literal hl
      simp only [hl] at hto
      subst hto
      exact ⟨⟨a, ha, hip'⟩, hip' ▸ hadmits⟩
    | none =>
      simp only [hl, hpin] at hto
      subst hto
      exact ⟨⟨address, hmem, rfl⟩, hadmits⟩
  · exact sends_le_of_after hobeys h hpast
  · rintro message k rfl
    exact (hobeys.after h hpast).1
  · rintro response rfl
    exact (hobeys.after h hpast).2 response rfl

/-- The libraries, on the URLs of two hosts. -/
def twoHosts : NetLibs where
  parse s :=
    if s = "https://a.example/".toList then some ⟨"https".toList, some "a.example".toList, some 443, s⟩
    else if s = "https://b.example/".toList then some ⟨"https".toList, some "b.example".toList, some 443, s⟩
    else none
  join _ location :=
    if location = "https://b.example/".toList then some ⟨"https".toList, some "b.example".toList, some 443, location⟩ else none
  parseIp _ := none
  showStatus status := toString status

/-- A fetch that is redirected once. -/
theorem fetch_from_url_pinned_redirected :
    ∃ past response, Task.After (fetchFromUrl twoHosts "https://a.example/".toList).run past (.ret (.ok response)) ∧ sends past = 2 ∧
      response.isSuccess = true := by
  let a : SocketAddr := ⟨.v4 #v[8, 8, 8, 8], 443⟩
  let b : SocketAddr := ⟨.v4 #v[9, 9, 9, 9], 443⟩
  let moved : HttpResponse := ⟨302, [("location".toList, "https://b.example/".toList)], none⟩
  let found : HttpResponse := ⟨200, [], none⟩
  have h₁ := (Task.After.refl (p := (fetchFromUrl twoHosts "https://a.example/".toList).run)).call (.ok [a])
  have h₂ := (h₁.call (.ok ())).call ⟨[], [a.ip], .ok moved⟩
  have h₃ := ((h₂.call (.ok [b])).call (.ok ())).call ⟨[], [b.ip], .ok found⟩
  refine ⟨_, found, h₃, rfl, (fetch_from_url_pinned h₃ ?_).2.2.2 found rfl⟩
  simp only [List.forall_mem_cons]
  refine ⟨fun ip hip => ⟨_, rfl, List.mem_singleton.1 hip⟩, trivial, ⟨fun rest h => ?_, fun _ h => nomatch h⟩,
    fun ip hip => ⟨_, rfl, List.mem_singleton.1 hip⟩, trivial, ⟨fun rest h => ?_, fun _ h => nomatch h⟩, nofun⟩
  · exact absurd (List.cons.inj h).1 (by decide)
  · exact absurd (List.cons.inj h).1 (by decide)

end Almond.Fetch
