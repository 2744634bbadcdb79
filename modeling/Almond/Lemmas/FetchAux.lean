import Almond.Fetch

/-! # What a resolved target is, and what its pinned client does -/

namespace Almond.Fetch

open Conc (Task Protocol)

/-- The last lookup of a record found the addresses of a target. -/
structure Resolved (target : ResolvedTarget) (past q : List (Task.Event NetReq NetResp)) : Prop where
  host : target.url.hostStr = some target.host
  scheme : allowedScheme target.url.scheme target.host = true
  found : ∃ port found, q = ⟨.lookupHost target.host port, .ok found⟩ :: past ∧
    target.addresses = found.filter fun address => admits target.host address.ip
  nonempty : target.addresses ≠ []

section

variable {sees : (r : NetReq) → NetResp r → Prop} {mayTake : List (Task.Event NetReq NetResp) → Empty → Prop}
  {may : List (Task.Event NetReq NetResp) → NetReq → Prop} {past : List (Task.Event NetReq NetResp)} {libs : NetLibs}

/-- `resolve_public_target` looks a host up at most once. -/
theorem resolvePublicTarget_obeys (url : Str) (hmay : ∀ host port, may past (.lookupHost host port)) :
    (resolvePublicTarget libs url).run.Obeys (.recording sees mayTake may)
      (fun q x => match x with
        | .ok target => Resolved target past q ∧ libs.parse url = some target.url
        | .error _ => past <:+ q ∧ sends q = sends past) past := by
  have hnone : past <:+ past ∧ sends past = sends past := ⟨List.suffix_refl past, rfl⟩
  unfold resolvePublicTarget
  cases hparse : libs.parse url with
  | none => exact hnone
  | some parsed =>
    cases hhost : parsed.hostStr with
    | none =>
      simp only [hhost]
      exact hnone
    | some host =>
      simp only [hhost]
      by_cases hscheme : allowedScheme parsed.scheme host = true
      · rw [if_neg (not_not_intro hscheme)]
        refine Task.Obeys.run_bind (R := fun q x => (past <:+ q ∧ sends q = sends past) ∧
          ∀ found, x = .ok found → q = ⟨.lookupHost host (parsed.portOrKnownDefault.getD 443), .ok found⟩ :: past) ?_ (fun _ _ h => h.1) ?_
        · refine ⟨hmay _ _, fun x _ => ?_⟩
          cases x with
          | error error => exact ⟨⟨List.suffix_cons .., rfl⟩, fun _ he => nomatch he⟩
          | ok found => exact ⟨⟨List.suffix_cons .., rfl⟩, fun _ he => by cases he; rfl⟩
        · rintro q found ⟨hsends, hq⟩
          have hq := hq found rfl
          by_cases hempty : (found.filter fun address => admits host address.ip).isEmpty = true
          · rw [if_pos hempty]
            exact hsends
          · rw [if_neg hempty]
            refine ⟨⟨hhost, hscheme, ⟨_, found, hq, rfl⟩, fun hnil => hempty ?_⟩, rfl⟩
            exact List.isEmpty_iff.2 hnil
      · rw [if_pos hscheme]
        exact hnone

end

/-! ## The pinned client -/

/-- A host name is pinned to one of the addresses that were given, or to the one it was pinned to before. -/
theorem lookup_foldl_resolve (host : Str) (addresses : List SocketAddr) (client : Client) :
    (addresses.foldl (fun client address => client.resolve host address) client).redirects = client.redirects ∧
    ((addresses.foldl (fun client address => client.resolve host address) client).pins.lookup host = client.pins.lookup host ∧ addresses = [] ∨
      ∃ address ∈ addresses, (addresses.foldl (fun client address => client.resolve host address) client).pins.lookup host = some address) := by
  induction addresses generalizing client with
  | nil => exact ⟨rfl, .inl ⟨rfl, rfl⟩⟩
  | cons address addresses ih =>
    obtain ⟨hredirects, hpins⟩ := ih (client.resolve host address)
    refine ⟨hredirects, .inr ?_⟩
    rcases hpins with ⟨hl, _⟩ | ⟨other, hmem, hl⟩
    · exact ⟨address, List.mem_cons_self, hl.trans (AList.lookup_insert ..)⟩
    · exact ⟨other, List.mem_cons_of_mem _ hmem, hl⟩

/-- The client of a target follows no redirects and pins the host of the target to one of its addresses. -/
theorem pinnedClient_spec {target : ResolvedTarget} (h : target.addresses ≠ []) :
    (pinnedClient target).redirects = false ∧
      ∃ address ∈ target.addresses, (pinnedClient target).pins.lookup target.host = some address := by
  obtain ⟨hredirects, hpins⟩ := lookup_foldl_resolve target.host target.addresses ⟨false, ∅⟩
  exact ⟨hredirects, hpins.resolve_left fun hnil => h hnil.2⟩

/-- A host that is an address leads to that address. -/
theorem Answers.literal {libs : NetLibs} {host : Str} {port : Nat} {found : List SocketAddr} {ip : IpAddr}
    (h : Answers libs (.lookupHost host port) (.ok found)) (hip : libs.hostAddress host = some ip) {address : SocketAddr}
    (hmem : address ∈ found) : address.ip = ip := by
  have hparse : libs.parseIp host = some ip := by
    unfold NetLibs.hostAddress at hip
    split at hip
    · next rest => exact absurd rfl (h.1 rest)
    · exact hip
  exact h.2 ip hparse address hmem

/-- A target whose host is an address has that address. -/
theorem Resolved.literal {target : ResolvedTarget} {past q : List (Task.Event NetReq NetResp)} {libs : NetLibs} (h : Resolved target past q)
    (hq : ∀ e ∈ q, Answers libs e.1 e.2) {ip : IpAddr} (hip : libs.hostAddress target.host = some ip) :
    ∃ address ∈ target.addresses, address.ip = ip := by
  obtain ⟨port, found, hfound, haddresses⟩ := h.found
  obtain ⟨address, hmem⟩ := List.exists_mem_of_ne_nil _ h.nonempty
  have hlookup : Answers libs (.lookupHost target.host port) (.ok found) := hq _ (hfound ▸ List.mem_cons_self)
  rw [haddresses] at hmem
  exact ⟨address, haddresses ▸ hmem, hlookup.literal hip (List.mem_of_mem_filter hmem)⟩

/-- The program may connect to the addresses of a target. -/
theorem Resolved.admits {target : ResolvedTarget} {past q : List (Task.Event NetReq NetResp)} (h : Resolved target past q)
    {address : SocketAddr} (hmem : address ∈ target.addresses) : admits target.host address.ip = true := by
  obtain ⟨_, found, _, haddresses⟩ := h.found
  rw [haddresses] at hmem
  exact (List.mem_filter.1 hmem).2

end Almond.Fetch
