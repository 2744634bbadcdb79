import Almond.Lemmas.UploadsAux
import Almond.Lemmas.ReplaysAux

/-! # What a handler has shown before it reaches a blob

A handler takes the mutation guard of a hash, and changes its entry, only after its client was cleared for an operation with an event
that permits the operation on this hash. -/

namespace Almond

open Auth Authorization Conc FileStorage

/-- Whether the verb of an event is the one of an operation. -/
def HasVerb (event : Event) (verb : String) : Prop :=
  (firstTag event "t").bind Tag.content = some verb.toList

/-- Whether an event permits an operation on a hash. -/
def Permits (event : Event) (verb : String) (sha256 : Str) : Prop :=
  HasVerb event verb ∧ ∃ tag ∈ tagsOf event "x", tag.content = some sha256

/-- Whether the record of a request justifies an operation on a hash. -/
def Justified (cfg : Config) (headers : Headers) (operation : Operation) (verb : String) (past : List (Task.Event Req Resp))
    (sha256 : Str) : Prop :=
  ∃ authorized, Cleared cfg headers operation authorized past ∧ Permits authorized.event verb sha256

/-- Whether a task is about to take the mutation guard of a hash, or to change its entry. -/
def Reaches {Op Out : Type} (c : Sys Req Resp Str AppState Op Out) (t : Tid) (op : Op) (sha256 : Str) : Prop :=
  (∃ k, c.tasks t = some (op, .acquire sha256 k)) ∨ ∃ r k, c.tasks t = some (op, .call r k) ∧ r.mutates sha256

/-- The protocol of a request that reaches only what it has justified. -/
abbrev gate (sees : (r : Req) → Resp r → Prop) (cfg : Config) (headers : Headers) (operation : Operation) (verb : String) :
    Protocol Req Resp Str (List (Task.Event Req Resp)) :=
  .recording sees (Justified cfg headers operation verb) fun past r => ∀ sha256, r.mutates sha256 →
    Justified cfg headers operation verb past sha256

section

variable {cfg : Config} {headers : Headers} {operation : Operation} {verb : String} {sees : (r : Req) → Resp r → Prop}
  {mayTake : List (Task.Event Req Resp) → Str → Prop} {may : List (Task.Event Req Resp) → Req → Prop}
  {past : List (Task.Event Req Resp)} {α β : Type}

/-! ## The checks -/

/-- The check of a verb. -/
theorem hasVerb_of_validateTTag {event : Event} {u : Unit} (h : validateTTag event verb = .ok u) : HasVerb event verb := by
  unfold validateTTag at h
  split at h
  · assumption
  · nomatch h

/-- The check of an authorization for an upload. -/
theorem permits_of_validateUploadAuth {event : Event} {sha256 : Str} {u : Unit} (h : validateUploadAuth event sha256 = .ok u) :
    Permits event "upload" sha256 :=
  validateHashAuth_spec h

/-- The hash that a mirror reads out of its event is one the event names. -/
theorem permits_of_extractSha256FromEvent {event : Event} {sha256 : Str} {u : Unit} (hv : validateTTag event "upload" = .ok u)
    (h : extractSha256FromEvent event = some sha256) : Permits event "upload" sha256 := by
  refine ⟨hasVerb_of_validateTTag hv, ?_⟩
  obtain ⟨tag, htag, hcontent⟩ := List.mem_filterMap.1 (List.mem_of_find?_eq_some h)
  exact ⟨tag, htag, hcontent⟩

/-- No event has two verbs. -/
theorem HasVerb.unique {event : Event} {verb' : String} (h : HasVerb event verb) (h' : HasVerb event verb') :
    verb.toList = verb'.toList :=
  Option.some.inj (h.symm.trans h')

/-! ## The parts of the handlers -/

/-- A publication takes the guard of its hash, and changes no other entry. -/
theorem publishBlob_obeys (temp : Path) (publication : BlobPublication) (htake : mayTake past publication.sha256)
    (hmay : ∀ q r, past <:+ q → r.Only publication.sha256 → may q r) :
    (publishBlob cfg temp publication).run.Obeys (.recording sees mayTake may) (fun q _ => past <:+ q) past := by
  refine Task.Obeys.lift_bind (R := fun q _ => past <:+ q) (p := ExceptT.run _) ?_ fun q stored hq => ?_
  · refine Task.Obeys.run_bind (R := fun q _ => q = past) (p := ofResult _) rfl ?_ ?_
    · rintro q _ rfl
      exact List.suffix_refl q
    · rintro q _ rfl
      exact (publishLocked_uses cfg temp publication).obeys_recording_withLock htake hmay
  · refine ⟨hmay q _ hq ⟨fun _ => False.elim, id⟩, fun x _ => ?_⟩
    exact hq.trans (List.suffix_cons (⟨.dropTemp temp, x⟩ : Task.Event Req Resp) q)

/-- A removal takes the guard of its hash, and changes no other entry. -/
theorem removeIndexedBlob_obeys (sha256 : Str) (removal : Removal) (expected : Option FileMetadata) (htake : mayTake past sha256)
    (hmay : ∀ q r, past <:+ q → r.Only sha256 → may q r) :
    (removeIndexedBlob cfg sha256 removal expected).run.Obeys (.recording sees mayTake may) (fun q _ => past <:+ q) past :=
  (removeLocked_ends cfg sha256 removal expected).obeys_recording_withLock htake fun q r hq hr => hmay q r hq hr.only

/-- What was justified stays justified. -/
theorem Justified.mono {sha256 : Str} {q : List (Task.Event Req Resp)} (hq : past <:+ q)
    (h : Justified cfg headers operation verb past sha256) : Justified cfg headers operation verb q sha256 := by
  obtain ⟨authorized, hc, hp⟩ := h
  exact ⟨authorized, hc.mono hq, hp⟩

/-- A request that changes no other entry passes the gate of a hash that was justified. -/
theorem gate_of_only {sha256 : Str} (h : Justified cfg headers operation verb past sha256) {q : List (Task.Event Req Resp)} {r : Req}
    (hq : past <:+ q) (hr : r.Only sha256) : ∀ other, r.mutates other → Justified cfg headers operation verb q other := by
  intro other hm
  rw [hr.1 other hm]
  exact h.mono hq

/-- A request that changes no entry passes the gate. -/
theorem gate_of_never {q : List (Task.Event Req Resp)} {r : Req} (hr : r.Never) :
    ∀ sha256, r.mutates sha256 → Justified cfg headers operation verb q sha256 :=
  fun sha256 hm => absurd hm (hr sha256)

/-- An authorization changes no entry. -/
theorem Req.Asks.never {r : Req} (h : r.Asks) : r.Never := by
  intro sha256 hm
  cases r with
  | index r => exact h.elim
  | _ => exact hm.elim

/-- Binding an authorization changes no entry, and succeeds only for a hash that the authorization is valid for. -/
theorem bind_obeys (authorized : Authorized) (sha256 : Str) (hmay : ∀ q r, r.Never → may q r) :
    (authorized.bind sha256).run.Obeys (.recording sees mayTake may)
      (fun q x => past <:+ q ∧ (x = .ok () → authorized.validate sha256 = .ok ())) past := by
  unfold Authorized.bind
  refine Task.Obeys.run_bind (R := fun q x => q = past ∧ x = authorized.validate sha256) (p := ofResult _) ⟨rfl, rfl⟩ ?_ ?_
  · rintro q _ ⟨rfl, _⟩
    exact ⟨List.suffix_refl q, nofun⟩
  rintro q _ ⟨rfl, hv⟩
  split
  · refine ⟨hmay _ _ fun _ => id, fun time _ => ⟨hmay _ _ fun _ => id, fun seen _ => ?_⟩⟩
    have hsuffix : q <:+ ⟨.consumeReplay authorized.event.id authorized.expiration (asSecs time), seen⟩ :: ⟨.systemTime, time⟩ :: q :=
      (List.suffix_cons ..).trans (List.suffix_cons ..)
    cases seen <;> exact ⟨hsuffix, fun _ => hv.symm⟩
  · exact ⟨List.suffix_refl q, fun _ => hv.symm⟩

/-- A handler that authorizes its client, followed by the rest of it. -/
theorem obeys_authorize_bind {R : List (Task.Event Req Resp) → AppResult α → Prop} {rest : Authorized → AsyncResult α}
    (he : ∀ q e, R q (.error e)) (hrest : ∀ q authorized, Cleared cfg headers operation authorized q →
      (rest authorized).run.Obeys (gate sees cfg headers operation verb) R q) :
    (authorize cfg headers operation >>= rest).run.Obeys (gate sees cfg headers operation verb) R past := by
  refine Task.Obeys.run_bind (authorize_obeys (fun _ _ h => gate_of_never h.never) headers operation past) ?_ ?_
  · exact fun q e _ => he q e
  · exact fun q authorized h => hrest q authorized (h.2 authorized rfl)

/-- The rest of a handler publishes only what the event of its client permits. -/
theorem obeys_of_receives {target : Str → Prop} {R : α → Prop} {p : Async α} {authorized : Authorized}
    (hp : Task.Receives cfg target R p) (hcleared : Cleared cfg headers operation authorized past)
    (htarget : ∀ sha256, target sha256 → Permits authorized.event verb sha256) :
    p.Obeys (gate (Req.Foresees cfg.storage) cfg headers operation verb) (fun _ _ => True) past := by
  refine (hp.obeys_recording (fun _ _ => id) (fun q r _ hr => gate_of_never hr.never) ?_).mono fun _ _ _ => trivial
  rintro q _ hq ⟨temp, publication, _, ht, rfl⟩
  have hj : Justified cfg headers operation verb q publication.sha256 := ⟨authorized, hcleared.mono hq, htarget _ ht⟩
  exact publishBlob_obeys temp publication hj fun q' r hq' hr => gate_of_only hj hq' hr

/-! ## The handlers -/

/-- An upload reaches only the hash that its event permits to upload. -/
theorem uploadFile_gated (headers : Headers) (body : Body) :
    (Handlers.uploadFile cfg headers body).run.Obeys (gate (Req.Foresees cfg.storage) cfg headers .upload "upload")
      (fun _ _ => True) past := by
  obtain ⟨rest, heq, hrest⟩ := Handlers.uploadFile_split cfg headers body
  rw [heq]
  refine obeys_authorize_bind (fun _ _ => trivial) fun q authorized hc => ?_
  exact obeys_of_receives (Task.Publishes.receives (hrest authorized)) hc fun sha256 h => permits_of_validateUploadAuth h.2

/-- A mirror reaches only the hash that its event permits to upload. -/
theorem mirrorBlob_gated (headers : Headers) (body : Body) :
    (Handlers.mirrorBlob cfg headers body).run.Obeys (gate (Req.Foresees cfg.storage) cfg headers .mirror "upload")
      (fun _ _ => True) past := by
  obtain ⟨rest, heq, hrest⟩ := Handlers.mirrorBlob_split cfg headers body
  rw [heq]
  refine obeys_authorize_bind (fun _ _ => trivial) fun q authorized hc => ?_
  exact obeys_of_receives (Task.Publishes.receives (hrest authorized)) hc fun sha256 h => permits_of_extractSha256FromEvent h.1 h.2

/-- A chunk reaches only the hash that its event permits to upload. -/
theorem patchUpload_gated (headers : Headers) (body : Body) :
    (Handlers.patchUpload cfg headers body).run.Obeys (gate (Req.Foresees cfg.storage) cfg headers .chunkUpload "upload")
      (fun _ _ => True) past := by
  obtain ⟨rest, heq, hrest⟩ := Handlers.patchUpload_split cfg headers body
  rw [heq]
  refine Task.Obeys.run_bind (R := fun _ x => x = Handlers.readChunkHeaders cfg headers) (p := ofResult _) rfl
    (fun _ _ _ => trivial) fun q chunk hchunk => ?_
  refine obeys_authorize_bind (fun _ _ => trivial) fun q authorized hc => ?_
  refine obeys_of_receives (hrest chunk authorized hchunk.symm) hc ?_
  rintro _ ⟨rfl, hv⟩
  unfold Authorized.validate at hv
  rw [hc.operation_eq] at hv
  exact validateHashAuth_spec hv

namespace Moderation

/-- A deletion reaches only the hash that its event permits to delete. -/
theorem deleteBlob_gated (headers : Headers) (filename : Str) :
    (deleteBlob cfg headers filename).run.Obeys (gate sees cfg headers .delete "delete") (fun _ _ => True) past := by
  unfold deleteBlob
  generalize filename.takeWhile (· ≠ '.') = sha256
  by_cases hvalid : byteLen sha256 ≠ 64 ∨ sha256.all isHexDigit = false
  · simp only [if_pos hvalid]
    exact trivial
  simp only [if_neg hvalid]
  refine Task.Obeys.run_bind (orStatus_obeys (S := fun q x => ∀ authorized, x = .ok authorized → Cleared cfg headers .delete authorized q)
    (authorize_obeys (fun _ _ h => gate_of_never h.never) headers .delete past) ?_) (fun _ _ _ => trivial) fun q authorized h => ?_
  · rintro q (_ | authorized) ⟨_, hx⟩
    · exact nofun
    · rintro _ ⟨⟩
      exact hx authorized rfl
  have hc := h authorized rfl
  refine Task.Obeys.run_bind (orStatus_obeys (S := fun q' x => q <:+ q' ∧ (x = .ok () → authorized.validate sha256 = .ok ()))
    (bind_obeys authorized sha256 fun _ _ => gate_of_never) ?_) (fun _ _ _ => trivial) fun q' _ h => ?_
  · rintro _ (_ | _) ⟨hq, hx⟩
    · exact ⟨hq, nofun⟩
    · exact ⟨hq, fun _ => hx rfl⟩
  have hv := h.2 rfl
  rw [Authorized.validate, hc.operation_eq] at hv
  have hj : Justified cfg headers .delete "delete" q' sha256 := ⟨authorized, hc.mono h.1, validateHashAuth_spec hv⟩
  have hremove : (removeIndexedBlob cfg sha256 .requested none).run.Obeys (gate sees cfg headers .delete "delete")
      (fun q _ => q' <:+ q) q' := removeIndexedBlob_obeys sha256 .requested none hj fun _ _ hq hr => gate_of_only hj hq hr
  exact Task.Obeys.run_bind (orCode_obeys (S := fun _ _ => True) hremove fun _ _ _ => trivial) (fun _ _ _ => trivial)
    fun _ _ _ => trivial

/-- A listing succeeds only for a client whose event permits to list. -/
theorem listBlobs_obeys (settings : Settings) (headers : Headers) (path : Str) (params : ListQuery) (hmay : ∀ q r, r.Never → may q r) :
    (listBlobs cfg settings headers path params).run.Obeys (.recording sees mayTake may)
      (fun q x => ∀ files, x = .ok files → ∃ authorized, Cleared cfg headers .list authorized q ∧ HasVerb authorized.event "list")
      past := by
  unfold listBlobs
  by_cases henabled : settings.featureListEnabled = false
  · simp only [if_pos henabled]
    exact nofun
  simp only [if_neg henabled]
  refine Task.Obeys.run_bind (orStatus_obeys (S := fun q x => ∀ authorized, x = .ok authorized → Cleared cfg headers .list authorized q)
    (authorize_obeys (fun _ _ h => hmay _ _ h.never) headers .list past) ?_) (fun _ _ _ => nofun) fun q authorized h => ?_
  · rintro q (_ | authorized) ⟨_, hx⟩
    · exact nofun
    · rintro _ ⟨⟩
      exact hx authorized rfl
  have hc := h authorized rfl
  refine Task.Obeys.run_bind (R := fun q' x => q' = q ∧ ∀ u, x = .ok u → HasVerb authorized.event "list")
    (orStatus_obeys (R := fun q' x => q' = q ∧ x = bindWithoutHash authorized) (p := ofResult _) ⟨rfl, rfl⟩ ?_)
    (fun _ _ _ => nofun) ?_
  · rintro _ _ ⟨rfl, rfl⟩
    unfold bindWithoutHash
    rw [hc.operation_eq]
    refine ⟨rfl, fun u hu => ?_⟩
    exact hasVerb_of_validateTTag (mapError_eq_ok.1 hu)
  rintro q u ⟨rfl, hverb⟩
  refine Task.Obeys.run_bind (R := fun q' _ => q' = q) (orCode_obeys (R := fun q' _ => q' = q) rfl fun _ _ => id)
    (fun _ _ _ => nofun) ?_
  rintro q requested rfl
  refine Task.Obeys.run_bind (R := fun q' _ => q' = q) (orCode_obeys (R := fun q' _ => q' = q) rfl fun _ _ => id)
    (fun _ _ _ => nofun) ?_
  rintro q cursor rfl
  split
  · exact ⟨hmay _ _ fun _ => id, fun x _ _ _ => ⟨authorized, hc.mono (List.suffix_cons ..), hverb u rfl⟩⟩
  · exact fun _ _ => ⟨authorized, hc, hverb u rfl⟩

end Moderation

end

end Almond
