import Almond.Lemmas.UpstreamServersAux

/-! # Where the walks connect to

The walks validate a server with one lookup and connect to it with another. -/

namespace Almond.UpstreamServers

open Conc (Task)
open Fetch

/-- The functions that walk the upstream servers. -/
inductive Walk (cfg : UpstreamConfig) : Net Answered → Prop
  | tryUpstreamServers (rounds : Nat) (filename : Str) (headers : Headers) (head : Bool) (customOrigin : Option Str)
      (xsServers : Option (List Str)) (authorPubkey : Option PublicKey) :
    Walk cfg (tryUpstreamServers cfg rounds filename headers head customOrigin xsServers authorPubkey)
  | tryUpstreamRedirect (filename : Str) (customOrigin : Option Str) (xsServers : Option (List Str)) (authorPubkey : Option PublicKey)
      (cacheInBackground : Bool) :
    Walk cfg (tryUpstreamRedirect cfg filename customOrigin xsServers authorPubkey cacheInBackground)
  | proxyRequestToUpstream (filename : Str) (headers : Headers) (customOrigin : Option Str) (xsServers : Option (List Str))
      (authorPubkey : Option PublicKey) :
    Walk cfg (proxyRequestToUpstream cfg filename headers customOrigin xsServers authorPubkey)

/-- A request connects only to addresses that the program admits for the host of its URL. -/
def ConnectsAdmitted : Task.Event NetReq NetResp → Prop
  | ⟨.send _ _ url _, x⟩ => ∀ ip ∈ x.connected, ∃ host, url.hostStr = some host ∧ admits host ip = true
  | _ => True

/-- Where the client looks a host name up for a request, it finds only addresses that the program admits for the host name. -/
def LookupAdmitted (libs : NetLibs) : Task.Event NetReq NetResp → Prop
  | ⟨.send _ _ url _, x⟩ =>
    ∀ host, url.hostStr = some host → libs.hostAddress host = none → ∀ address ∈ x.dns, admits host address.ip = true
  | _ => True

/-- A walk keeps to the protocol of the walks. -/
theorem Walk.walks {cfg : UpstreamConfig} {p : Net Answered} (hwalk : Walk cfg p) (hkeeps : KeepsHost cfg.libs) : Walks [] p := by
  cases hwalk with
  | tryUpstreamServers => exact tryUpstreamServers_walks hkeeps _ _ _ _ _ _ _
  | tryUpstreamRedirect => exact tryUpstreamRedirect_walks hkeeps _ _ _ _ _
  | proxyRequestToUpstream => exact proxyRequestToUpstream_walks hkeeps _ _ _ _ _

/-- A request to a validated URL connects only to admitted addresses when the client finds only such. -/
theorem connectsAdmitted_of_validated {libs : NetLibs} {past : List (Task.Event NetReq NetResp)} {method : Fetch.Method} {url : Url}
    {headers : Headers} {x : Sent} (hvalidated : Validated past url) (hpast : ∀ e ∈ past, Answers libs e.1 e.2)
    (hsend : Answers libs (.send upstreamClient method url headers) x)
    (hlookup : LookupAdmitted libs ⟨.send upstreamClient method url headers, x⟩) :
    ConnectsAdmitted ⟨.send upstreamClient method url headers, x⟩ := by
  intro ip hip
  obtain ⟨host, hhost, hto⟩ := hsend ip hip
  refine ⟨host, hhost, ?_⟩
  cases hliteral : libs.hostAddress host with
  | some literal =>
    simp only [hliteral] at hto
    subst hto
    -- the lookup of an address finds that address, and it passed the filter
    obtain ⟨host', port, found, hhost', hmem, address, haddress, hadmits⟩ := hvalidated
    obtain rfl : host' = host := Option.some.inj (hhost'.symm.trans hhost)
    have hfound : Answers libs (.lookupHost host' port) (.ok found) := hpast _ hmem
    rwa [hfound.literal hliteral haddress] at hadmits
  | none =>
    simp only [hliteral] at hto
    obtain ⟨address, haddress, rfl⟩ := hto
    exact hlookup host hhost hliteral address haddress

/-- Whatever the candidates and the answers of the resolver are, a walk whose client finds only admitted addresses when it looks a host
name up of its own connects only to admitted addresses. -/
theorem walks_connect_admitted {cfg : UpstreamConfig} {p q : Net Answered} {past : List (Task.Event NetReq NetResp)}
    (hwalk : Walk cfg p) (h : p.After past q) (hkeeps : KeepsHost cfg.libs) (hpast : ∀ e ∈ past, Answers cfg.libs e.1 e.2)
    (hlookup : ∀ e ∈ past, LookupAdmitted cfg.libs e) :
    ∀ e ∈ past, ConnectsAdmitted e := by
  rintro ⟨r, x⟩ he
  obtain ⟨after, before, rfl⟩ := List.append_of_mem he
  cases r with
  | send client method url headers =>
    obtain ⟨k, hbefore⟩ := h.split
    have hanswers : ∀ e ∈ before, Answers cfg.libs e.1 e.2 := fun e he => hpast e (List.mem_append_right _ (List.mem_cons_of_mem _ he))
    have hmay : MayWalk before (.send client method url headers) := ((hwalk.walks hkeeps).after hbefore fun _ _ => trivial).1
    obtain ⟨rfl, hvalidated⟩ := hmay
    exact connectsAdmitted_of_validated hvalidated hanswers (hpast _ he) (hlookup _ he)
  | _ => trivial

/-! ## A resolver that changes its answer -/

/-- The libraries, on the URLs of one host. -/
def oneHost : NetLibs where
  parse s := if "https://a.example".toList.isPrefixOf s then some ⟨"https".toList, some "a.example".toList, some 443, s⟩ else none
  join _ _ := none
  parseIp _ := none
  showStatus status := toString status

/-- A configuration with one server. -/
def oneServer : UpstreamConfig where
  libs := oneHost
  upstreamServers := ["https://a.example".toList]
  upstreamMode := .proxy
  featureCustomUpstreamOriginEnabled := .off
  maxSizeBytes := 0

/-- The host of a URL of one host is that host. -/
theorem oneHost_keepsHost : KeepsHost oneHost := by
  have hhost : ∀ {s parsed}, oneHost.parse s = some parsed → parsed.hostStr = some "a.example".toList := by
    intro s parsed h
    simp only [oneHost] at h
    split at h
    · cases h
      rfl
    · nomatch h
  intro base filename parsed parsed' _ h h'
  rw [hhost h, hhost h']

/-- What is recorded when the server is asked for a blob, and the client finds an address of its own. -/
def askedOneServer (b : SocketAddr) : List (Task.Event NetReq NetResp) :=
  [⟨.send upstreamClient .get ⟨"https".toList, some "a.example".toList, some 443, "https://a.example/x".toList⟩ [],
      ⟨[b], [b.ip], .error ⟨false⟩⟩⟩,
    ⟨.lookupHost "a.example".toList 443, .ok [⟨.v4 #v[8, 8, 8, 8], 443⟩]⟩]

/-- A resolver may answer the validation with one address, and the client with another. -/
theorem answers_askedOneServer (b : SocketAddr) : ∀ e ∈ askedOneServer b, Answers oneHost e.1 e.2 := by
  simp only [askedOneServer, List.forall_mem_cons]
  refine ⟨fun ip hip => ⟨_, rfl, b, List.mem_singleton_self b, (List.mem_singleton.1 hip).symm⟩, ⟨fun rest h => ?_, nofun⟩, nofun⟩
  exact absurd (List.cons.inj h).1 (by decide)

/-- Whatever the client finds, the request is sent. -/
theorem after_askedOneServer (b : SocketAddr) :
    ∃ q, (proxyRequestToUpstream oneServer "x".toList [] none none none).After (askedOneServer b) q := by
  have h₁ := (Task.After.refl (p := proxyRequestToUpstream oneServer "x".toList [] none none none)).call
    (.ok [⟨.v4 #v[8, 8, 8, 8], 443⟩])
  exact ⟨_, h₁.call ⟨[b], [b.ip], .error ⟨false⟩⟩⟩

/-- A walk that connects to the address that it validated. -/
theorem walks_connect_admitted_public :
    ∃ e, (askedOneServer ⟨.v4 #v[8, 8, 8, 8], 443⟩).head? = some e ∧ ConnectsAdmitted e := by
  obtain ⟨q, h⟩ := after_askedOneServer ⟨.v4 #v[8, 8, 8, 8], 443⟩
  have hlookup : ∀ e ∈ askedOneServer ⟨.v4 #v[8, 8, 8, 8], 443⟩, LookupAdmitted oneServer.libs e := by
    simp only [askedOneServer, List.forall_mem_cons]
    refine ⟨fun host _ _ address haddress => ?_, trivial, nofun⟩
    rw [List.mem_singleton.1 haddress]
    rfl
  exact ⟨_, rfl, walks_connect_admitted (.proxyRequestToUpstream ..) h oneHost_keepsHost (answers_askedOneServer _) hlookup _
    List.mem_cons_self⟩

/-- A walk may connect to a loopback address: the resolver answers the validation with a public address, and the client with that one. -/
theorem walks_connect_admitted_false :
    ¬ ∀ (cfg : UpstreamConfig) (p q : Net Answered) (past : List (Task.Event NetReq NetResp)), Walk cfg p → p.After past q →
      KeepsHost cfg.libs → (∀ e ∈ past, Answers cfg.libs e.1 e.2) → ∀ e ∈ past, ConnectsAdmitted e := by
  intro hall
  obtain ⟨q, h⟩ := after_askedOneServer ⟨.v4 #v[127, 0, 0, 1], 443⟩
  have hconnects := hall oneServer _ q _ (.proxyRequestToUpstream ..) h oneHost_keepsHost (answers_askedOneServer _)
  obtain ⟨host, hhost, hadmits⟩ := hconnects _ List.mem_cons_self _ (List.mem_singleton_self _)
  cases hhost
  exact absurd hadmits (by decide)

end Almond.UpstreamServers
