import Almond.Authorization
import Almond.Lemmas.Rules

/-! # What an accepted authorization event says -/

namespace Almond

open Auth Authorization Conc

/-- The event that a request presents. -/
def eventOf (cfg : Config) (headers : Headers) : Option Event :=
  (Http.str headers "authorization").bind fun h => (parseAuthHeader cfg.libs h).toOption

/-- The expiration of an event. -/
def expirationOf (event : Event) : Option Nat :=
  ((firstTag event "expiration").bind Tag.content).bind parseU64

/-- The rule for the `server` tags of an event: one where one is required, and where there is one, all are canonical domains and one is
this server's. -/
def ServerRule (cfg : Config) (event : Event) : Prop :=
  (cfg.authRequireServerTag = true → ∃ tag ∈ event.tags, tag.kind = "server".toList) ∧
    (tagsOf event "server" ≠ [] →
      (∀ tag ∈ tagsOf event "server", ∃ domain, tag.content = some domain ∧ isLowercaseDomain domain = true) ∧
        ∃ tag ∈ tagsOf event "server", tag.content = some (extractDomain cfg.publicUrl))

/-- An event that the clock and the policy of the server accept. -/
structure Accepted (cfg : Config) (now expiration : Nat) (event : Event) : Prop where
  signed : cfg.libs.verifyEvent event = .ok ()
  created : event.createdAt ≤ now
  expiration_eq : expirationOf event = some expiration
  unexpired : now < expiration
  lifetime : expiration - event.createdAt ≤ cfg.authMaxTtlSecs
  server : ServerRule cfg event

/-- A guard that throws. -/
theorem throw_else_eq_ok {α : Type} {c : Prop} [Decidable c] {e : AppError} {x : AppResult α} {a : α} :
    (if c then .error e else x) = .ok a ↔ ¬ c ∧ x = .ok a := by
  by_cases h : c
  · simp [h]
  · simp [h]

/-- A mapped error. -/
theorem mapError_eq_ok {ε ε' α : Type} {x : Except ε α} {f : ε → ε'} {a : α} : x.mapError f = .ok a ↔ x = .ok a := by
  cases x <;> simp [Except.mapError]

/-- What the verification of an event checks. -/
theorem verifyEvent_spec {libs : Libs} {now : Nat} {event : Event} {u : Unit} (h : verifyEvent libs now event = .ok u) :
    libs.verifyEvent event = .ok () ∧ event.createdAt ≤ now ∧ ∃ expiration, expirationOf event = some expiration ∧ now < expiration := by
  unfold verifyEvent at h
  obtain ⟨_, hsig, h⟩ := bind_eq_ok.1 h
  obtain ⟨hcreated, h⟩ := throw_else_eq_ok.1 h
  refine ⟨mapError_eq_ok.1 hsig, Nat.le_of_not_lt hcreated, ?_⟩
  unfold expirationOf
  split at h
  · nomatch h
  · rename_i tag htag
    rw [htag, Option.bind_some]
    split at h
    · nomatch h
    · rename_i expiration hexp
      obtain ⟨hnow, _⟩ := throw_else_eq_ok.1 h
      exact ⟨expiration, hexp, Nat.lt_of_not_le hnow⟩

/-- What the check of the `server` tags checks. -/
theorem checkServerTags_spec {tags : List Tag} {u : Unit} (h : checkServerTags tags = .ok u) :
    ∀ tag ∈ tags, ∃ domain, tag.content = some domain ∧ isLowercaseDomain domain = true := by
  induction tags with
  | nil => exact nofun
  | cons tag tags ih =>
    unfold checkServerTags at h
    cases hc : tag.content with
    | none =>
      rw [hc] at h
      nomatch h
    | some domain =>
      simp only [hc] at h
      by_cases hd : isLowercaseDomain domain = true
      · rw [if_pos hd] at h
        exact List.forall_mem_cons.2 ⟨⟨domain, hc, hd⟩, ih h⟩
      · rw [if_neg hd] at h
        nomatch h

/-- What the policy checks. -/
theorem verifyEventWithPolicy_spec {cfg : Config} {now expiration : Nat} {event : Event}
    (h : verifyEventWithPolicy cfg now event = .ok expiration) : Accepted cfg now expiration event := by
  unfold verifyEventWithPolicy at h
  obtain ⟨_, hverify, h⟩ := bind_eq_ok.1 h
  obtain ⟨hsigned, hcreated, e, he, hnow⟩ := verifyEvent_spec hverify
  have he' : ((firstTag event "expiration").bind Tag.content).bind parseU64 = some e := he
  rw [he'] at h
  obtain ⟨httl, h⟩ := throw_else_eq_ok.1 h
  obtain ⟨hrequired, h⟩ := throw_else_eq_ok.1 h
  obtain ⟨_, hserver, h⟩ := bind_eq_ok.1 h
  cases h
  refine ⟨hsigned, hcreated, he, hnow, Nat.le_of_not_lt httl, ?_, ?_⟩
  · intro hreq
    rw [hreq, Bool.true_and, Bool.not_eq_true', Bool.not_eq_false, List.any_eq_true] at hrequired
    obtain ⟨tag, htag, hkind⟩ := hrequired
    exact ⟨tag, htag, of_decide_eq_true hkind⟩
  · intro hne
    unfold validateServerTags at hserver
    simp only [if_neg hne] at hserver
    obtain ⟨_, hcheck, hserver⟩ := bind_eq_ok.1 hserver
    refine ⟨checkServerTags_spec hcheck, ?_⟩
    by_cases hany : (tagsOf event "server").any (fun tag => tag.content = some (extractDomain cfg.publicUrl)) = true
    · obtain ⟨tag, htag, hcontent⟩ := List.any_eq_true.1 hany
      exact ⟨tag, htag, of_decide_eq_true hcontent⟩
    · simp only [if_neg hany] at hserver
      nomatch hserver

/-- What the check of a verb and a hash checks. -/
theorem validateHashAuth_spec {event : Event} {verb noTag noMatch : String} {sha256 : Str} {u : Unit}
    (h : validateHashAuth event verb sha256 noTag noMatch = .ok u) :
    (firstTag event "t").bind Tag.content = some verb.toList ∧ ∃ tag ∈ tagsOf event "x", tag.content = some sha256 := by
  unfold validateHashAuth at h
  obtain ⟨_, hverb, h⟩ := bind_eq_ok.1 h
  constructor
  · unfold validateTTag at hverb
    split at hverb
    · assumption
    · nomatch hverb
  · obtain ⟨_, h⟩ := throw_else_eq_ok.1 h
    by_cases hany : (tagsOf event "x").any (fun tag => tag.content = some sha256) = true
    · obtain ⟨tag, htag, hcontent⟩ := List.any_eq_true.1 hany
      exact ⟨tag, htag, of_decide_eq_true hcontent⟩
    · simp only [if_neg hany] at h
      nomatch h

/-! ## What an authorized client has shown -/

/-- A request of an authorization: it reads the clock and asks for trust. -/
def Req.Asks : Req → Prop
  | .systemTime | .isTrusted _ | .isDvm _ | .checkDvmAnnouncement _ | .insertDvm _ => True
  | _ => False

/-- Whether a key is authorized in a mode: by the configuration, or by an answer that was received. -/
def Satisfies (cfg : Config) (pubkey : PublicKey) (past : List (Task.Event Req Resp)) : AuthMode → Prop
  | .strict => cfg.allowedPubkeys ≠ [] ∧ pubkey ∈ cfg.allowedPubkeys
  | .unrestricted => True
  | .wotOnly => pubkey ∈ cfg.allowedPubkeys ∨ ⟨.isTrusted pubkey, true⟩ ∈ past
  | .dvmOnly => pubkey ∈ cfg.allowedPubkeys ∨ ⟨.isDvm pubkey, true⟩ ∈ past ∨ ⟨.checkDvmAnnouncement pubkey, .ok true⟩ ∈ past

/-- What holds of a client that may attempt an operation. -/
structure Cleared (cfg : Config) (headers : Headers) (operation : Operation) (authorized : Authorized)
    (past : List (Task.Event Req Resp)) : Prop where
  event : eventOf cfg headers = some authorized.event
  operation_eq : authorized.operation = operation
  kind : authorized.event.kind = 24242
  accepted : ∃ time, ⟨.systemTime, time⟩ ∈ past ∧ Accepted cfg (asSecs time) authorized.expiration authorized.event
  pubkey : ∃ mode, modeOf cfg operation = .ok mode ∧ Satisfies cfg authorized.event.pubkey past mode

section

variable {cfg : Config} {sees : (r : Req) → Resp r → Prop} {mayTake : List (Task.Event Req Resp) → Str → Prop}
  {may : List (Task.Event Req Resp) → Req → Prop}

/-- An answer stays in the record. -/
theorem Satisfies.mono {pubkey : PublicKey} {past past' : List (Task.Event Req Resp)} {mode : AuthMode} (hsub : past <:+ past')
    (h : Satisfies cfg pubkey past mode) : Satisfies cfg pubkey past' mode := by
  cases mode with
  | strict => exact h
  | unrestricted => exact h
  | wotOnly => exact h.imp_right fun hm => hsub.subset hm
  | dvmOnly => exact h.imp_right fun hm => hm.imp (fun hm => hsub.subset hm) fun hm => hsub.subset hm

/-- A client stays authorized while the record grows. -/
theorem Cleared.mono {headers : Headers} {operation : Operation} {authorized : Authorized}
    {past past' : List (Task.Event Req Resp)} (hsub : past <:+ past') (h : Cleared cfg headers operation authorized past) :
    Cleared cfg headers operation authorized past' := by
  obtain ⟨time, htime, hacc⟩ := h.accepted
  obtain ⟨mode, hmode, hsat⟩ := h.pubkey
  exact ⟨h.event, h.operation_eq, h.kind, ⟨time, hsub.subset htime, hacc⟩, mode, hmode, hsat.mono hsub⟩

/-- A key on the whitelist. -/
theorem mem_of_whitelisted {pubkey : PublicKey} (h : whitelisted cfg pubkey = true) : pubkey ∈ cfg.allowedPubkeys := by
  unfold whitelisted at h
  exact List.contains_iff_mem.1 (Bool.and_eq_true_iff.1 h).2

/-- The check of a key succeeds only when the key is authorized in the mode. -/
theorem checkPubkeyAuthorization_obeys (hmay : ∀ past r, r.Asks → may past r) (event : Event) (mode : AuthMode)
    (past : List (Task.Event Req Resp)) :
    (checkPubkeyAuthorization cfg event mode).run.Obeys (.recording sees mayTake may)
      (fun q x => past <:+ q ∧ (x = .ok () → Satisfies cfg event.pubkey q mode)) past := by
  have hrefl : past <:+ past := List.suffix_refl past
  have hcons : ∀ (r : Req) (x : Resp r), past <:+ ⟨r, x⟩ :: past := fun r x => List.suffix_cons ..
  cases mode with
  | strict =>
    simp only [checkPubkeyAuthorization]
    split
    · exact ⟨hrefl, nofun⟩
    · rename_i hne
      split
      · rename_i hmem
        exact ⟨hrefl, fun _ => ⟨hne, List.contains_iff_mem.1 hmem⟩⟩
      · exact ⟨hrefl, nofun⟩
  | unrestricted => exact ⟨hrefl, fun _ => trivial⟩
  | wotOnly =>
    simp only [checkPubkeyAuthorization]
    split
    · rename_i hw
      exact ⟨hrefl, fun _ => .inl (mem_of_whitelisted hw)⟩
    · refine Task.Obeys.lift_bind (R := fun q x => q = ⟨.isTrusted event.pubkey, x⟩ :: past)
        ⟨hmay _ _ trivial, fun x _ => rfl⟩ fun q x hq => ?_
      subst hq
      cases x with
      | true => exact ⟨hcons .., fun _ => .inr List.mem_cons_self⟩
      | false => exact ⟨hcons .., nofun⟩
  | dvmOnly =>
    simp only [checkPubkeyAuthorization]
    split
    · rename_i hw
      exact ⟨hrefl, fun _ => .inl (mem_of_whitelisted hw)⟩
    · refine Task.Obeys.lift_bind (R := fun q x => q = ⟨.isDvm event.pubkey, x⟩ :: past)
        ⟨hmay _ _ trivial, fun x _ => rfl⟩ fun q x hq => ?_
      subst hq
      cases x with
      | true => exact ⟨hcons .., fun _ => .inr (.inl List.mem_cons_self)⟩
      | false =>
        refine Task.Obeys.lift_bind
          (R := fun q x => q = ⟨.checkDvmAnnouncement event.pubkey, x⟩ :: ⟨.isDvm event.pubkey, false⟩ :: past)
          ⟨hmay _ _ trivial, fun x _ => rfl⟩ fun q x hq => ?_
        subst hq
        have h₂ := (hcons (.isDvm event.pubkey) false).trans (List.suffix_cons (⟨.checkDvmAnnouncement event.pubkey, x⟩ : Task.Event Req Resp) _)
        rcases x with _ | (_ | _)
        · exact ⟨h₂, nofun⟩
        · exact ⟨h₂, nofun⟩
        · refine ⟨hmay _ _ trivial, fun x _ => ⟨h₂.trans (List.suffix_cons ..), fun _ => .inr (.inr ?_)⟩⟩
          exact List.mem_cons_of_mem _ List.mem_cons_self

/-- An authorization succeeds only for a client that may attempt the operation. -/
theorem authorize_obeys (hmay : ∀ past r, r.Asks → may past r) (headers : Headers) (operation : Operation)
    (past : List (Task.Event Req Resp)) :
    (authorize cfg headers operation).run.Obeys (.recording sees mayTake may)
      (fun q x => past <:+ q ∧ ∀ authorized, x = .ok authorized → Cleared cfg headers operation authorized q) past := by
  refine Task.Obeys.run_bind (R := fun q x => q = past ∧ x = modeOf cfg operation) (p := ofResult _) ⟨rfl, rfl⟩ ?_ ?_
  · rintro q e ⟨rfl, _⟩
    exact ⟨List.suffix_refl _, nofun⟩
  rintro q mode ⟨rfl, hmode⟩
  cases hh : Http.str headers "authorization" with
  | none => exact ⟨List.suffix_refl _, nofun⟩
  | some authHeader =>
    refine Task.Obeys.run_bind (R := fun q' x => q' = q ∧ x = parseAuthHeader cfg.libs authHeader) (p := ofResult _) ⟨rfl, rfl⟩ ?_ ?_
    · rintro q' e ⟨rfl, _⟩
      exact ⟨List.suffix_refl _, nofun⟩
    rintro q' event ⟨rfl, hevent⟩
    refine Task.Obeys.lift_bind (R := fun q x => ∃ time, q = ⟨.systemTime, time⟩ :: q' ∧ x = asSecs time)
      ⟨hmay _ _ trivial, fun time _ => ⟨time, rfl, rfl⟩⟩ ?_
    rintro _ _ ⟨time, rfl, rfl⟩
    have hsuffix : q' <:+ ⟨.systemTime, time⟩ :: q' := List.suffix_cons ..
    refine Task.Obeys.run_bind (R := fun q x => q = ⟨.systemTime, time⟩ :: q' ∧ x = verifyEventWithPolicy cfg (asSecs time) event)
      (p := ofResult _) ⟨rfl, rfl⟩ ?_ ?_
    · rintro _ e ⟨rfl, _⟩
      exact ⟨hsuffix, nofun⟩
    rintro _ expiration ⟨rfl, hpolicy⟩
    refine Task.Obeys.run_bind (R := fun q x => q = ⟨.systemTime, time⟩ :: q' ∧ x = validateEventKind cfg.libs event 24242)
      (p := ofResult _) ⟨rfl, rfl⟩ ?_ ?_
    · rintro _ e ⟨rfl, _⟩
      exact ⟨hsuffix, nofun⟩
    rintro _ _ ⟨rfl, hkind⟩
    refine Task.Obeys.run_bind (checkPubkeyAuthorization_obeys hmay event mode _) ?_ ?_
    · rintro q e ⟨hq, _⟩
      exact ⟨hsuffix.trans hq, nofun⟩
    rintro q _ ⟨hq, hsat⟩
    refine ⟨hsuffix.trans hq, ?_⟩
    rintro _ ⟨⟩
    refine ⟨?_, rfl, ?_, ⟨time, hq.subset List.mem_cons_self, verifyEventWithPolicy_spec hpolicy.symm⟩, mode, hmode.symm, hsat rfl⟩
    · simp only [eventOf, hh, Option.bind_some, ← hevent]
      rfl
    · unfold validateEventKind at hkind
      split at hkind
      · assumption
      · nomatch hkind

end

end Almond
