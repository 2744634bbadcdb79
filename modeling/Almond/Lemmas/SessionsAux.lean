import Mathlib.Data.Finset.Card
import Almond.Effects

/-! # What one operation on the session registry does -/

namespace Almond.SessionState

open Conc (Tid)

/-! ## Reservations -/

/-- Taking a reservation away changes nothing but the reservations of its key. -/
theorem consumeReservation_cases (st : SessionState) (key : ChunkUploadKey) :
    (st.pending.lookup key = none ∧ st.consumeReservation key = (false, st)) ∨
      (st.pending.lookup key = some 1 ∧ st.consumeReservation key = (true, { st with pending := st.pending.erase key })) ∨
      ∃ count, count ≠ 1 ∧ st.pending.lookup key = some count ∧
        st.consumeReservation key = (true, { st with pending := st.pending.insert key (count - 1) }) := by
  unfold consumeReservation
  cases h : st.pending.lookup key with
  | none => exact .inl ⟨rfl, rfl⟩
  | some count =>
    by_cases h1 : count = 1
    · subst h1
      exact .inr (.inl ⟨rfl, if_pos rfl⟩)
    · exact .inr (.inr ⟨count, h1, rfl, if_neg h1⟩)

/-- Taking a reservation away leaves the sessions. -/
@[simp] theorem consumeReservation_uploads (st : SessionState) (key : ChunkUploadKey) :
    (st.consumeReservation key).2.uploads = st.uploads := by
  obtain ⟨_, h⟩ | ⟨_, h⟩ | ⟨_, _, _, h⟩ := st.consumeReservation_cases key <;> rw [h]

/-- Whether there was a reservation to take away. -/
theorem consumeReservation_fst (st : SessionState) (key : ChunkUploadKey) :
    (st.consumeReservation key).1 = st.hasPending key := by
  unfold hasPending
  obtain ⟨hp, h⟩ | ⟨hp, h⟩ | ⟨_, _, hp, h⟩ := st.consumeReservation_cases key <;> rw [h, hp] <;> rfl

/-- Appending leaves the reservations. -/
@[simp] theorem append_pending (st : SessionState) (key : ChunkUploadKey) (upload : ChunkUpload) (params : SessionParams)
    (chunk : ChunkInfo) : (st.append key upload params chunk).2.pending = st.pending := by
  unfold append
  split
  · rfl
  · split
    · rfl
    · split
      · rfl
      · simp only
        split <;> rfl

/-- Reserving leaves the sessions. -/
@[simp] theorem reserve_uploads (limits : SessionLimits) (st : SessionState) (key : ChunkUploadKey) :
    (st.reserve limits key).2.uploads = st.uploads := by
  unfold reserve
  split
  · rfl
  · split
    · rfl
    · split <;> rfl

/-- A commit takes the reservation away. -/
theorem commit_pending (st : SessionState) (key : ChunkUploadKey) (params : SessionParams) (chunk : ChunkInfo) (now : Nat) :
    (st.commit key params chunk now).2.pending = (st.consumeReservation key).2.pending := by
  unfold commit
  split
  · rename_i h
    rw [h]
  · rename_i h
    rw [h]
    split <;> exact append_pending ..

/-! ## Commits -/

/-- The session that a chunk is for: the registered one, or a new one. -/
def target (st : SessionState) (key : ChunkUploadKey) (params : SessionParams) (now : Nat) : ChunkUpload :=
  (st.uploads.lookup key).getD (newUpload params now)

/-- A session with one more chunk. -/
def received (upload : ChunkUpload) (chunk : ChunkInfo) : ChunkUpload :=
  { upload with chunks := upload.chunks ++ [chunk] }

/-- Why a chunk can be appended to a session, and the sum of the lengths after it. -/
def Accepts (upload : ChunkUpload) (params : SessionParams) (chunk : ChunkInfo) (total : Nat) : Prop :=
  upload.uploadType = params.uploadType ∧ upload.uploadLength = params.uploadLength ∧
    upload.chunks.any (overlaps chunk) = false ∧ newTotal upload.chunks chunk = some total

/-- What appending to a registered session does. -/
theorem append_cases (st : SessionState) (key : ChunkUploadKey) (upload : ChunkUpload) (params : SessionParams)
    (chunk : ChunkInfo) :
    (((∀ total, ¬ Accepts upload params chunk total) ∧
        ((st.append key upload params chunk).1 = .paramMismatch ∨ (st.append key upload params chunk).1 = .overlap)) ∧
      (st.append key upload params chunk).2 = st) ∨
    (∃ total, Accepts upload params chunk total ∧ total = upload.uploadLength ∧
      st.append key upload params chunk = (.complete (received upload chunk), { st with uploads := st.uploads.erase key })) ∨
    ∃ total, Accepts upload params chunk total ∧ total ≠ upload.uploadLength ∧ st.append key upload params chunk =
      (.incomplete, { st with uploads := st.uploads.insert key (received upload chunk) }) := by
  unfold append
  split
  · rename_i h
    exact .inl ⟨⟨fun _ ha => h.elim (fun h => h ha.1) fun h => h ha.2.1, .inl rfl⟩, rfl⟩
  · rename_i hp
    obtain ⟨ht, hl⟩ := not_or.1 hp
    split
    · rename_i h
      exact .inl ⟨⟨fun _ ha => Bool.noConfusion (h.symm.trans ha.2.2.1), .inr rfl⟩, rfl⟩
    · rename_i ho
      have ho : upload.chunks.any (overlaps chunk) = false := by simpa using ho
      cases hn : newTotal upload.chunks chunk with
      | none => exact .inl ⟨⟨fun _ ha => absurd (hn.symm.trans ha.2.2.2) nofun, .inl rfl⟩, rfl⟩
      | some total =>
        have ha : Accepts upload params chunk total := ⟨of_not_not ht, of_not_not hl, ho, hn⟩
        by_cases htot : total = upload.uploadLength
        · exact .inr (.inl ⟨total, ha, htot, if_pos htot⟩)
        · exact .inr (.inr ⟨total, ha, htot, if_neg htot⟩)

/-- What a commit does to the sessions: it is refused, completes the session of its key, or appends to it. -/
theorem commit_cases (st : SessionState) (key : ChunkUploadKey) (params : SessionParams) (chunk : ChunkInfo) (now : Nat) :
    (st.hasPending key = false ∧ st.commit key params chunk now = (.paramMismatch, st)) ∨
    (st.hasPending key = true ∧
      (((∀ total, ¬ Accepts (st.target key params now) params chunk total) ∧
          ((st.commit key params chunk now).1 = .paramMismatch ∨ (st.commit key params chunk now).1 = .overlap) ∧
          ∀ k, (st.commit key params chunk now).2.uploads.lookup k =
            if k = key then some (st.target key params now) else st.uploads.lookup k) ∨
        (∃ total, Accepts (st.target key params now) params chunk total ∧ total = (st.target key params now).uploadLength ∧
          (st.commit key params chunk now).1 = .complete (received (st.target key params now) chunk) ∧
          ∀ k, (st.commit key params chunk now).2.uploads.lookup k = if k = key then none else st.uploads.lookup k) ∨
        ∃ total, Accepts (st.target key params now) params chunk total ∧ total ≠ (st.target key params now).uploadLength ∧
          (st.commit key params chunk now).1 = .incomplete ∧
          ∀ k, (st.commit key params chunk now).2.uploads.lookup k =
            if k = key then some (received (st.target key params now) chunk) else st.uploads.lookup k)) := by
  have hfst := st.consumeReservation_fst key
  have hups := st.consumeReservation_uploads key
  rcases hc : st.consumeReservation key with ⟨_ | _, st₁⟩
  · refine .inl ⟨by rw [← hfst, hc], ?_⟩
    have hid : st₁ = st := by
      obtain ⟨_, h⟩ | ⟨_, h⟩ | ⟨_, _, _, h⟩ := st.consumeReservation_cases key
      · exact (Prod.mk.inj (hc.symm.trans h)).2
      · exact Bool.noConfusion (Prod.mk.inj (hc.symm.trans h)).1
      · exact Bool.noConfusion (Prod.mk.inj (hc.symm.trans h)).1
    simp only [commit, hc, hid]
  · refine .inr ⟨by rw [← hfst, hc], ?_⟩
    rw [hc] at hups
    have hups : st₁.uploads = st.uploads := hups
    -- The session is registered when the chunk is appended, whether or not it was before.
    obtain ⟨st₂, hu, hother, hcommit⟩ : ∃ st₂ : SessionState, st₂.uploads.lookup key = some (st.target key params now) ∧
        (∀ k, k ≠ key → st₂.uploads.lookup k = st.uploads.lookup k) ∧
        st.commit key params chunk now = st₂.append key (st.target key params now) params chunk := by
      cases hl : st.uploads.lookup key with
      | some upload =>
        refine ⟨st₁, by rw [hups, hl, target, hl]; rfl, fun k _ => by rw [hups], ?_⟩
        simp only [commit, hc, hups, hl, target, Option.getD_some]
      | none =>
        refine ⟨{ st₁ with uploads := st₁.uploads.insert key (newUpload params now) }, ?_, fun k hk => ?_, ?_⟩
        · rw [target, hl]
          exact AList.lookup_insert ..
        · rw [← hups]
          exact AList.lookup_insert_ne hk
        · simp only [commit, hc, hups, hl, target, Option.getD_none]
    rw [hcommit]
    obtain ⟨⟨ha, ho⟩, hst⟩ | ⟨total, ha, ht, hst⟩ | ⟨total, ha, ht, hst⟩ := st₂.append_cases key _ params chunk
    · refine .inl ⟨ha, ho, fun k => ?_⟩
      rw [hst]
      by_cases hk : k = key
      · rw [if_pos hk, hk, hu]
      · rw [if_neg hk, hother k hk]
    · refine .inr (.inl ⟨total, ha, ht, by rw [hst], fun k => ?_⟩)
      rw [hst]
      by_cases hk : k = key
      · rw [if_pos hk, hk]
        exact AList.lookup_erase ..
      · rw [if_neg hk, ← hother k hk]
        exact AList.lookup_erase_ne hk
    · refine .inr (.inr ⟨total, ha, ht, by rw [hst], fun k => ?_⟩)
      rw [hst]
      by_cases hk : k = key
      · rw [if_pos hk, hk]
        exact AList.lookup_insert ..
      · rw [if_neg hk, ← hother k hk]
        exact AList.lookup_insert_ne hk

/-! ## Facts about all sessions -/

/-- Every registered session satisfies a predicate. -/
def Each (P : ChunkUploadKey → ChunkUpload → Prop) (st : SessionState) : Prop :=
  ∀ key upload, st.uploads.lookup key = some upload → P key upload

/-- An empty registry has no session. -/
theorem each_empty (P : ChunkUploadKey → ChunkUpload → Prop) : SessionState.empty.Each P :=
  fun _ _ h => nomatch h

/-- A registry whose sessions change only at one key. -/
theorem Each.of_update {P : ChunkUploadKey → ChunkUpload → Prop} {st st' : SessionState} (h : st.Each P) {key : ChunkUploadKey}
    (x : Option ChunkUpload) (hs : ∀ k, st'.uploads.lookup k = if k = key then x else st.uploads.lookup k)
    (hx : ∀ upload, x = some upload → P key upload) : st'.Each P := by
  intro k upload hk
  rw [hs] at hk
  split at hk
  · rename_i he
    exact he ▸ hx upload hk
  · exact h k upload hk

/-- A commit keeps what holds of a new session and survives an accepted chunk. -/
theorem Each.commit {P : ChunkUploadKey → ChunkUpload → Prop} {st : SessionState} (h : st.Each P) (key : ChunkUploadKey)
    {params : SessionParams} (chunk : ChunkInfo) {now : Nat} (hnew : P key (newUpload params now))
    (hrec : ∀ upload total, P key upload → Accepts upload params chunk total → P key (received upload chunk)) :
    (st.commit key params chunk now).2.Each P ∧
      ∀ upload, (st.commit key params chunk now).1 = .complete upload →
        ∃ base, P key base ∧ Accepts base params chunk base.uploadLength ∧ upload = received base chunk := by
  have hbase : P key (st.target key params now) := by
    unfold target
    cases hl : st.uploads.lookup key with
    | some upload => exact h key upload hl
    | none => exact hnew
  obtain ⟨_, hc⟩ | ⟨_, ⟨_, ho, hs⟩ | ⟨total, ha, ht, ho, hs⟩ | ⟨total, ha, _, ho, hs⟩⟩ := st.commit_cases key params chunk now
  · rw [hc]
    exact ⟨h, nofun⟩
  · refine ⟨h.of_update _ hs ?_, fun upload hcomp => ?_⟩
    · rintro _ ⟨⟩
      exact hbase
    · rw [hcomp] at ho
      exact ho.elim nofun nofun
  · refine ⟨h.of_update _ hs nofun, fun upload hcomp => ?_⟩
    cases ho.symm.trans hcomp
    exact ⟨_, hbase, ht ▸ ha, rfl⟩
  · refine ⟨h.of_update _ hs ?_, fun upload hcomp => nomatch ho.symm.trans hcomp⟩
    rintro _ ⟨⟩
    exact hrec _ _ hbase ha

/-- A restore keeps what holds of the restored session. -/
theorem Each.restore {P : ChunkUploadKey → ChunkUpload → Prop} {st : SessionState} (h : st.Each P) {key : ChunkUploadKey}
    {upload : ChunkUpload} (hu : P key upload) : (st.restore key upload).2.Each P := by
  unfold SessionState.restore
  split
  · exact h
  · refine Each.of_update h (some upload) (fun k => (?_ : _ = if k = key then _ else _)) ?_
    · by_cases hk : k = key
      · rw [if_pos hk, hk]
        exact AList.lookup_insert ..
      · rw [if_neg hk]
        exact AList.lookup_insert_ne hk
    · rintro _ ⟨⟩
      exact hu

/-- An eviction keeps what holds of all sessions, and what it returns satisfied it. -/
theorem Each.evict {P : ChunkUploadKey → ChunkUpload → Prop} {st : SessionState} (h : st.Each P) (age now : Nat) :
    (st.evictOlderThan age now).2.Each P ∧ ∀ upload ∈ (st.evictOlderThan age now).1, ∃ key, P key upload := by
  refine ⟨fun key upload hl => h key upload (lookup_retain_eq_some.1 hl).1, fun upload hu => ?_⟩
  obtain ⟨⟨key, _⟩, he, rfl⟩ := List.mem_map.1 hu
  exact ⟨key, h key _ (AList.mem_lookup_iff.2 (List.mem_filter.1 he).1)⟩

/-! ## The reservations and the tickets -/

/-- The number of tickets for a key that are out. -/
def outstanding (tickets : List (Tid × ChunkUploadKey)) (key : ChunkUploadKey) : Nat :=
  tickets.countP fun x => x.2 = key

/-- The registry counts exactly the tickets that are out. -/
def Counted (st : SessionState) (tickets : List (Tid × ChunkUploadKey)) : Prop :=
  ∀ key, st.pending.lookup key = if outstanding tickets key = 0 then none else some (outstanding tickets key)

/-- One more ticket is out. -/
theorem outstanding_cons (t : Tid) (key k : ChunkUploadKey) (tickets : List (Tid × ChunkUploadKey)) :
    outstanding ((t, key) :: tickets) k = outstanding tickets k + if key = k then 1 else 0 := by
  simp only [outstanding, List.countP_cons, decide_eq_true_eq]

/-- A ticket that is out was counted once. -/
theorem outstanding_erase {t : Tid} {key : ChunkUploadKey} {tickets : List (Tid × ChunkUploadKey)} (h : (t, key) ∈ tickets)
    (k : ChunkUploadKey) : outstanding tickets k = outstanding (tickets.erase (t, key)) k + if key = k then 1 else 0 := by
  rw [← outstanding_cons t]
  exact (List.perm_cons_erase h).countP_eq _

/-- A registry whose reservation for one key changed to the number of tickets counts the tickets. -/
theorem Counted.update {st st' : SessionState} {tickets tickets' : List (Tid × ChunkUploadKey)} {key : ChunkUploadKey}
    (hc : st.Counted tickets) (hother : ∀ k, k ≠ key → st'.pending.lookup k = st.pending.lookup k)
    (hout : ∀ k, k ≠ key → outstanding tickets' k = outstanding tickets k)
    (hkey : st'.pending.lookup key = if outstanding tickets' key = 0 then none else some (outstanding tickets' key)) :
    st'.Counted tickets' := by
  intro k
  by_cases hk : k = key
  · subst hk
    exact hkey
  · rw [hother k hk, hout k hk]
    exact hc k

/-- Taking a reservation away for a ticket that comes back. -/
theorem Counted.consume {st : SessionState} {tickets : List (Tid × ChunkUploadKey)} (hc : st.Counted tickets) {t : Tid}
    {key : ChunkUploadKey} (h : (t, key) ∈ tickets) : (st.consumeReservation key).2.Counted (tickets.erase (t, key)) := by
  have hcount := outstanding_erase h key
  rw [if_pos rfl] at hcount
  have hout : ∀ k, k ≠ key → outstanding (tickets.erase (t, key)) k = outstanding tickets k := by
    intro k hk
    rw [outstanding_erase h k, if_neg (Ne.symm hk), Nat.add_zero]
  have hlookup := hc key
  rw [if_neg (by omega)] at hlookup
  obtain ⟨hp, _⟩ | ⟨hp, hcons⟩ | ⟨count, h1, hp, hcons⟩ := st.consumeReservation_cases key
  · rw [hp] at hlookup
    nomatch hlookup
  · rw [hcons]
    refine hc.update (fun k hk => AList.lookup_erase_ne hk) hout ?_
    rw [hp, Option.some.injEq] at hlookup
    rw [if_pos (by omega)]
    exact AList.lookup_erase ..
  · rw [hcons]
    refine hc.update (fun k hk => AList.lookup_insert_ne hk) hout ?_
    rw [hp, Option.some.injEq] at hlookup
    rw [if_neg (by omega)]
    refine (AList.lookup_insert ..).trans (congrArg some ?_)
    omega

/-- Reserving hands out a ticket exactly when it counts one more. -/
theorem Counted.reserve {st : SessionState} {tickets : List (Tid × ChunkUploadKey)} (hc : st.Counted tickets)
    (limits : SessionLimits) (t : Tid) (key : ChunkUploadKey) :
    ((st.reserve limits key).1 = .granted ∧ (st.reserve limits key).2.Counted ((t, key) :: tickets)) ∨
      ((st.reserve limits key).1 ≠ .granted ∧ (st.reserve limits key).2 = st) := by
  have hout : ∀ k, k ≠ key → outstanding ((t, key) :: tickets) k = outstanding tickets k := by
    intro k hk
    rw [outstanding_cons, if_neg (Ne.symm hk), Nat.add_zero]
  have hkey : outstanding ((t, key) :: tickets) key = outstanding tickets key + 1 := by
    rw [outstanding_cons, if_pos rfl]
  have hinsert : ∀ n, n = outstanding tickets key + 1 →
      ({ st with pending := st.pending.insert key n } : SessionState).Counted ((t, key) :: tickets) := by
    intro n hn
    refine hc.update (fun k hk => AList.lookup_insert_ne hk) hout ?_
    rw [hkey, if_neg (Nat.succ_ne_zero _), ← hn]
    exact AList.lookup_insert ..
  unfold SessionState.reserve
  split
  · refine .inl ⟨rfl, hinsert _ ?_⟩
    rw [hc key]
    split
    · rename_i h0
      rw [h0]
      rfl
    · rfl
  · rename_i hno
    have h0 : outstanding tickets key = 0 := by
      by_contra hne
      simp [SessionState.hasPending, hc key, hne] at hno
    split
    · exact .inr ⟨nofun, rfl⟩
    · split
      · exact .inr ⟨nofun, rfl⟩
      · exact .inl ⟨rfl, hinsert 1 (by omega)⟩

/-! ## The occupied keys -/

/-- The keys that count toward the capacity. -/
def occupied (st : SessionState) : Finset ChunkUploadKey :=
  st.uploads.keys.toFinset ∪ st.pending.keys.toFinset

/-- A key counts when it has a session or a reservation. -/
theorem mem_occupied {st : SessionState} {key : ChunkUploadKey} :
    key ∈ st.occupied ↔ st.hasUpload key = true ∨ st.hasPending key = true := by
  simp only [occupied, Finset.mem_union, List.mem_toFinset, hasUpload, hasPending, AList.lookup_isSome, AList.mem_keys]

/-- The keys that count, without repetition. -/
theorem occupied_eq (st : SessionState) : st.occupied = (st.uploads.keys ++ st.pendingWithoutUpload).toFinset := by
  ext key
  rw [mem_occupied]
  simp only [pendingWithoutUpload, List.mem_toFinset, List.mem_append, List.mem_filter, Bool.not_eq_true',
    ← AList.mem_keys, ← AList.lookup_isSome, hasUpload, hasPending]
  cases (st.uploads.lookup key).isSome <;> simp

/-- No key is listed twice. -/
theorem nodup_sessions (st : SessionState) : (st.uploads.keys ++ st.pendingWithoutUpload).Nodup := by
  refine List.nodup_append'.2 ⟨st.uploads.keys_nodup, st.pending.keys_nodup.filter _, fun key hu hp => ?_⟩
  have hno := (List.mem_filter.1 hp).2
  rw [hasUpload, AList.lookup_isSome.2 (AList.mem_keys.2 hu)] at hno
  nomatch hno

/-- The number of sessions is the number of keys that count. -/
theorem sessions_eq_card (st : SessionState) : st.sessions = st.occupied.card := by
  rw [occupied_eq, List.toFinset_card_of_nodup st.nodup_sessions, List.length_append]
  rfl

/-- The number of sessions of an owner is the number of its keys that count. -/
theorem ownerSessions_eq_card (st : SessionState) (pubkey : PublicKey) :
    st.ownerSessions pubkey = (st.occupied.filter fun k => k.pubkey = pubkey).card := by
  have hfilter : (st.occupied.filter fun k => k.pubkey = pubkey) =
      ((st.uploads.keys ++ st.pendingWithoutUpload).filter fun k => k.pubkey = pubkey).toFinset := by
    rw [occupied_eq]
    ext key
    simp only [Finset.mem_filter, List.mem_toFinset, List.mem_filter, decide_eq_true_eq]
  rw [hfilter, List.toFinset_card_of_nodup (st.nodup_sessions.filter _)]
  rfl

/-- The limits hold. -/
def Within (limits : SessionLimits) (st : SessionState) : Prop :=
  st.sessions ≤ limits.maxSessions ∧ ∀ pubkey, st.ownerSessions pubkey ≤ limits.maxSessionsPerPubkey

/-- A registry in which no new key counts stays within the limits. -/
theorem Within.of_subset {limits : SessionLimits} {st st' : SessionState} (h : st.Within limits)
    (hs : st'.occupied ⊆ st.occupied) : st'.Within limits := by
  refine ⟨?_, fun pubkey => ?_⟩
  · rw [sessions_eq_card]
    exact (Finset.card_le_card hs).trans (st.sessions_eq_card ▸ h.1)
  · rw [ownerSessions_eq_card]
    exact (Finset.card_le_card (Finset.filter_subset_filter _ hs)).trans (st.ownerSessions_eq_card pubkey ▸ h.2 pubkey)

/-- Whether there is room for one more key. -/
def hasRoom (limits : SessionLimits) (st : SessionState) (key : ChunkUploadKey) : Bool :=
  st.sessions < limits.maxSessions && st.ownerSessions key.pubkey < limits.maxSessionsPerPubkey

/-- A registry in which one more key counts, for which there was room, stays within the limits. -/
theorem Within.of_subset_insert {limits : SessionLimits} {st st' : SessionState} (h : st.Within limits) (key : ChunkUploadKey)
    (hr : st.hasRoom limits key = true) (hs : st'.occupied ⊆ insert key st.occupied) : st'.Within limits := by
  obtain ⟨hr, ho⟩ := Bool.and_eq_true_iff.1 hr
  have hr := of_decide_eq_true hr
  have ho := of_decide_eq_true ho
  rw [sessions_eq_card] at hr
  rw [ownerSessions_eq_card] at ho
  refine ⟨?_, fun pubkey => ?_⟩
  · rw [sessions_eq_card]
    have := (Finset.card_le_card hs).trans (Finset.card_insert_le key st.occupied)
    omega
  · rw [ownerSessions_eq_card]
    have hsub := Finset.filter_subset_filter (fun k : ChunkUploadKey => k.pubkey = pubkey) hs
    by_cases hk : key.pubkey = pubkey
    · subst hk
      rw [Finset.filter_insert, if_pos rfl] at hsub
      have := (Finset.card_le_card hsub).trans (Finset.card_insert_le key _)
      omega
    · rw [Finset.filter_insert, if_neg hk] at hsub
      exact (Finset.card_le_card hsub).trans (st.ownerSessions_eq_card pubkey ▸ h.2 pubkey)

/-- Taking a reservation away makes no new key count. -/
theorem occupied_consume (st : SessionState) (key : ChunkUploadKey) : (st.consumeReservation key).2.occupied ⊆ st.occupied := by
  intro k hk
  rw [mem_occupied] at hk ⊢
  refine hk.imp ?_ ?_
  · unfold hasUpload
    rw [consumeReservation_uploads]
    exact id
  · unfold hasPending
    obtain ⟨_, h⟩ | ⟨_, h⟩ | ⟨count, _, hp, h⟩ := st.consumeReservation_cases key
    · rw [h]
      exact id
    · rw [h]
      intro hs
      exact AList.lookup_isSome.2 (AList.mem_erase.1 (AList.lookup_isSome.1 hs)).2
    · rw [h]
      intro hs
      rcases (AList.mem_insert _).1 (AList.lookup_isSome.1 hs) with rfl | hs
      · rw [hp]
        rfl
      · exact AList.lookup_isSome.2 hs

/-- Appending makes at most the key of the session count. -/
theorem occupied_append (st : SessionState) (key : ChunkUploadKey) (upload : ChunkUpload) (params : SessionParams)
    (chunk : ChunkInfo) : (st.append key upload params chunk).2.occupied ⊆ insert key st.occupied := by
  intro k hk
  rw [Finset.mem_insert]
  rw [mem_occupied] at hk ⊢
  simp only [hasPending, append_pending] at hk
  rcases hk with hu | hp
  · unfold append at hu
    have hid : st.hasUpload k = true → k = key ∨ st.hasUpload k = true ∨ st.hasPending k = true := fun h => .inr (.inl h)
    split at hu
    · exact hid hu
    · split at hu
      · exact hid hu
      · split at hu
        · exact hid hu
        · simp only at hu
          split at hu
          · exact hid (AList.lookup_isSome.2 (AList.mem_erase.1 (AList.lookup_isSome.1 hu)).2)
          · rcases (AList.mem_insert _).1 (AList.lookup_isSome.1 hu) with rfl | hs
            · exact .inl rfl
            · exact hid (AList.lookup_isSome.2 hs)
  · exact .inr (.inr hp)

/-- Storing a session makes at most its key count. -/
theorem occupied_insert (st : SessionState) (key : ChunkUploadKey) (upload : ChunkUpload) :
    ({ st with uploads := st.uploads.insert key upload } : SessionState).occupied ⊆ insert key st.occupied := by
  intro k hk
  rw [Finset.mem_insert]
  rw [mem_occupied] at hk ⊢
  rcases hk with hu | hp
  · rcases (AList.mem_insert _).1 (AList.lookup_isSome.1 hu) with rfl | hs
    · exact .inl rfl
    · exact .inr (.inl (AList.lookup_isSome.2 hs))
  · exact .inr (.inr hp)

/-- A commit under a reservation makes no new key count. -/
theorem occupied_commit (st : SessionState) (key : ChunkUploadKey) (params : SessionParams) (chunk : ChunkInfo) (now : Nat) :
    (st.commit key params chunk now).2.occupied ⊆ st.occupied := by
  have hsub := st.occupied_consume key
  have hfst := st.consumeReservation_fst key
  unfold commit
  split
  · rename_i h
    rw [h] at hsub
    exact hsub
  · rename_i st₁ h
    rw [h] at hsub hfst
    have hkey : key ∈ st.occupied := mem_occupied.2 (.inr hfst.symm)
    have hinsert : insert key st₁.occupied ⊆ st.occupied := Finset.insert_subset hkey hsub
    split
    · exact (occupied_append ..).trans hinsert
    · refine (occupied_append ..).trans (Finset.insert_subset hkey ?_)
      exact (occupied_insert ..).trans hinsert

/-- An eviction makes no new key count. -/
theorem occupied_evict (st : SessionState) (age now : Nat) : (st.evictOlderThan age now).2.occupied ⊆ st.occupied := by
  intro k hk
  rw [mem_occupied] at hk ⊢
  refine hk.imp (fun hu => ?_) id
  obtain ⟨upload, hu⟩ := Option.isSome_iff_exists.1 hu
  exact Option.isSome_iff_exists.2 ⟨upload, (lookup_retain_eq_some.1 hu).1⟩

/-- Reserving stays within the limits. -/
theorem Within.reserve {limits : SessionLimits} {st : SessionState} (h : st.Within limits) (key : ChunkUploadKey) :
    (st.reserve limits key).2.Within limits := by
  have hpending : ∀ n, ({ st with pending := st.pending.insert key n } : SessionState).occupied ⊆ insert key st.occupied := by
    intro n k hk
    rw [Finset.mem_insert]
    rw [mem_occupied] at hk ⊢
    rcases hk with hu | hp
    · exact .inr (.inl hu)
    · rcases (AList.mem_insert _).1 (AList.lookup_isSome.1 hp) with rfl | hs
      · exact .inl rfl
      · exact .inr (.inr (AList.lookup_isSome.2 hs))
  unfold SessionState.reserve
  split
  · rename_i hin
    refine h.of_subset ((hpending _).trans (Finset.insert_subset (mem_occupied.2 ?_) (Finset.Subset.refl _)))
    simpa using hin
  · split
    · exact h
    · rename_i hs
      split
      · exact h
      · rename_i ho
        refine h.of_subset_insert key ?_ (hpending 1)
        simp only [hasRoom, Bool.and_eq_true, decide_eq_true_eq]
        omega

/-- What a restore does. -/
theorem restore_cases (st : SessionState) (key : ChunkUploadKey) (upload : ChunkUpload) :
    st.restore key upload = (false, st) ∨
      (st.hasUpload key = false ∧ st.hasPending key = false ∧
        st.restore key upload = (true, { st with uploads := st.uploads.insert key upload })) := by
  unfold restore
  split
  · exact .inl rfl
  · rename_i h
    simp only [Bool.or_eq_true, not_or, Bool.not_eq_true] at h
    exact .inr ⟨h.1, h.2, rfl⟩

end Almond.SessionState
