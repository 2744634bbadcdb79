import Almond.Lemmas.RangesAux
import Almond.Replies
import Almond.Theorems.Tail

/-! # What a response says, and the bytes it carries -/

namespace Almond.Tail

variable {start : Nat} {limit : Option Nat} {st st' : TailState}

/-! ## The end of a stream that follows a complete download -/

/-- What ended a stream with an error. -/
def Blamed (limit : Option Nat) (st : TailState) : StreamError → Prop
  | .io _ => True
  | .brokenPipe _ => st.progress.phase = .failed ∨ st.closed = true ∧ st.progress.phase = .running
  | .unexpectedEof _ => st.progress.phase = .complete ∧ ∃ e, limit = some e ∧ st.progress.written < e

/-- A poll ends a stream with an error when the download has failed, or is complete and too short. -/
theorem blamed_of_poll {error : StreamError} (h : poll limit st.position st.progress = .ended (.error error)) :
    Blamed limit st error := by
  unfold poll at h
  split at h
  · nomatch h
  · next hge =>
    split at h
    · nomatch h
    · split at h
      · nomatch h
      · next hphase =>
        split at h
        · next hshort =>
          cases h
          obtain ⟨e, he, hlt⟩ := (Option.any_eq_true _ _).1 hshort
          have hlt := of_decide_eq_true hlt
          subst he
          have havailable : available (some e) st.progress = min e st.progress.written := rfl
          refine ⟨hphase, e, rfl, ?_⟩
          omega
        · nomatch h
      · next hphase =>
        cases h
        exact .inl hphase

/-- What ended a stream stays to blame. -/
theorem blamed_of_reachable (h : Reachable start limit st) : ∀ error, st.point = .ended (.error error) → Blamed limit st error := by
  induction h with
  | create progress closed file seek hlen =>
    intro error hended
    cases seek with
    | ok _ => nomatch hended
    | error e =>
      cases hended
      exact trivial
  | sender _ hs ih =>
    intro error hended
    cases hs with
    | write file hstable hlen => exact ih error hended
    | send progress hopen hrunning hwritten hlen =>
      have hblamed := ih error hended
      cases error with
      | io e => exact trivial
      | brokenPipe message =>
        rcases hblamed with hfailed | ⟨hclosed, _⟩
        · nomatch hrunning.symm.trans hfailed
        · nomatch hopen.symm.trans hclosed
      | unexpectedEof message => nomatch hrunning.symm.trans hblamed.1
    | close =>
      have hblamed := ih error hended
      cases error with
      | io e => exact trivial
      | brokenPipe message => exact hblamed.imp_right fun hrunning => ⟨rfl, hrunning.2⟩
      | unexpectedEof message => exact hblamed
  | reader hr hs ih =>
    intro error hended
    cases hs with
    | poll hp => exact blamed_of_poll hended
    | read hp hlen => nomatch hended
    | readFailed hp e =>
      cases hended
      exact trivial
    | changed hp hc => nomatch hended
    | closed hp hc hx =>
      cases hended
      have hrunning := ((following_of_reachable hr).waiting hp).resolve_left (by rw [hc]; exact Bool.false_ne_true)
      exact .inr ⟨hx, hrunning⟩

/-- A stream within a complete download ends without an error, unless a read fails. -/
theorem ended_ok_of_complete {result : Except StreamError Unit} (h : Reachable start limit st) (hphase : st.progress.phase = .complete)
    (hlimit : ∀ e, limit = some e → e ≤ st.progress.written) (hended : st.point = .ended result)
    (hio : ∀ e, result ≠ .error (.io e)) : result = .ok () := by
  cases result with
  | ok _ => rfl
  | error error =>
    have hblamed := blamed_of_reachable h error hended
    cases error with
    | io e => exact absurd rfl (hio e)
    | brokenPipe message =>
      rcases hblamed with hfailed | ⟨_, hrunning⟩
      · nomatch hphase.symm.trans hfailed
      · nomatch hphase.symm.trans hrunning
    | unexpectedEof message =>
      obtain ⟨_, e, he, hlt⟩ := hblamed
      exact absurd (hlimit e he) (Nat.not_le_of_lt hlt)

end Almond.Tail

namespace Almond.Replies

open Http

variable {headers : Headers} {etag value : Str} {start e n : Nat} {getRange : Bytes → Str → Bytes} {blob : Bytes}

/-! ## Bounds -/

/-- A range that is satisfiable lies within the resource. -/
theorem bounds_of_satisfiable (h : parseRangeHeader value n = .satisfiable start e) : start ≤ e ∧ e < n := by
  rw [parseRangeHeader_eq] at h
  cases hparts : rangeParts value with
  | none =>
    rw [hparts] at h
    nomatch h
  | some parts =>
    obtain ⟨first, last⟩ := parts
    rw [hparts] at h
    simp only [Option.elim_some, readParts] at h
    split at h
    · nomatch h
    · next hn =>
      split at h
      · unfold suffixRange at h
        split at h
        · nomatch h
        · nomatch h
        · next suffix hnonzero _ =>
          cases h
          have hpos : suffix ≠ 0 := hnonzero
          omega
      · unfold boundedRange at h
        split at h
        · nomatch h
        · split at h
          · nomatch h
          · split at h
            · nomatch h
            · next hend =>
              split at h
              · nomatch h
              · cases h
                have hle : e ≤ n - 1 := by
                  unfold rangeEnd at hend
                  split at hend
                  · cases hend
                    exact Nat.le_refl _
                  · obtain ⟨_, _, rfl⟩ := Option.map_eq_some_iff.1 hend
                    exact Nat.min_le_right ..
                omega

/-- The range of a request lies within the resource when it is satisfiable. -/
theorem bounds_of_requested (h : requestedRange headers etag n = .satisfiable start e) : start ≤ e ∧ e < n := by
  unfold requestedRange at h
  split at h
  · exact bounds_of_satisfiable h
  · nomatch h

/-- The length of a range within a resource does not overflow. -/
theorem rangeLength_eq (hle : start ≤ e) (hlt : e < n) (hn : n ≤ u64Max) : rangeLength start e = some (e - start + 1) := by
  have hfits : e - start + 1 ≤ u64Max := by omega
  simp only [rangeLength, checkedSub, hle, if_true, Option.bind_some]
  exact checkedAdd_eq_some.2 ⟨rfl, hfits⟩

/-! ## Slices -/

/-- The bytes from a start to an end, both included. -/
def slice (blob : Bytes) (start «end» : Nat) : Bytes :=
  (blob.take («end» + 1)).drop start

/-- A slice within a blob has the length of its range. -/
theorem length_slice (hle : start ≤ e) (hlt : e < blob.length) : (slice blob start e).length = e - start + 1 := by
  simp only [slice, List.length_drop, List.length_take]
  omega

/-- A reply says what a range selects of a blob, and carries it. -/
def Carries (getRange : Bytes → Str → Bytes) (blob : Bytes) (range : RangeSpec) (r : Reply) : Prop :=
  match range with
  | .satisfiable start «end» => r.status = 206 ∧ r.contentRange = some (contentRange start «end» blob.length) ∧
      r.contentLength = some (slice blob start «end»).length ∧ (slice blob start «end»).length = «end» - start + 1 ∧
      Gives getRange blob r.body (slice blob start «end»)
  | .unsatisfiable => r.status = 416 ∧ r.contentRange = some (unsatisfiedRange blob.length) ∧ r.contentLength = none ∧
      Gives getRange blob r.body []
  | .ignore => r.status = 200 ∧ r.contentRange = none ∧ r.contentLength = some blob.length ∧ Gives getRange blob r.body blob

/-- A stream within a range of a blob gives its bytes. -/
theorem gives_tail (getRange : Bytes → Str → Bytes) (start : Nat) {limit : Nat} (hlimit : limit ≤ blob.length) :
    Gives getRange blob (.tail start (some limit)) ((blob.take limit).drop start) := by
  intro st result hreachable hcompleted hended hio
  have hok : result = .ok () := by
    refine Tail.ended_ok_of_complete hreachable hcompleted.phase (fun l hl => ?_) hended hio
    cases hl
    rw [hcompleted.written]
    exact hlimit
  subst hok
  refine ⟨rfl, ?_⟩
  have hexact := (((Tail.tailing_stream_exact hreachable).2.2.1 hended).1 limit rfl).1
  have hfile : st.file.take limit = blob.take limit := by
    conv_rhs => rw [← hcompleted.file, List.take_take, Nat.min_eq_left hlimit]
  rw [hexact, hfile]

/-! ## The three responders -/

/-- The reply of a file carries what is asked for. -/
theorem serveFileWithRange_carries (getRange : Bytes → Str → Bytes) (headers : Headers) (etag : Str) (hn : blob.length ≤ u64Max) :
    ∃ r, serveFileWithRange headers etag blob.length = some r ∧ Carries getRange blob (requestedRange headers etag blob.length) r := by
  unfold serveFileWithRange
  cases hrange : requestedRange headers etag blob.length with
  | satisfiable start e =>
    obtain ⟨hle, hlt⟩ := bounds_of_requested hrange
    have hlength := length_slice hle hlt
    simp only [rangeLength_eq hle hlt hn]
    refine ⟨_, rfl, rfl, rfl, congrArg some hlength.symm, hlength, ?_⟩
    rw [Gives, slice, List.drop_take, Option.elim_some]
    congr 1
    omega
  | unsatisfiable => exact ⟨_, rfl, rfl, rfl, rfl, rfl⟩
  | ignore => exact ⟨_, rfl, rfl, rfl, rfl, rfl⟩

/-- The whole of a download in flight. -/
theorem nonRange_carries {opened : Bool} {r : Reply} (h : serveNonRangeDownload opened (some blob.length) = .answered r) :
    Carries getRange blob .ignore r := by
  unfold serveNonRangeDownload at h
  split at h
  · cases h
    refine ⟨rfl, rfl, rfl, ?_⟩
    simpa using gives_tail getRange 0 (Nat.le_refl blob.length)
  · nomatch h

/-- The range that a download in flight serves: it does not look at `If-Range`. -/
def servedRange (headers : Headers) (totalLen : Nat) : RangeSpec :=
  ((str headers "range").map fun value => parseRangeHeader value totalLen).getD .ignore

/-- A download in flight does not overflow, and its reply carries what it serves. -/
theorem serveExistingDownload_carries (getRange : Bytes → Str → Bytes) (opened : Bool) (snapshot : DownloadProgress) (headers : Headers)
    (hn : blob.length ≤ u64Max) :
    serveExistingDownload opened (some blob.length) snapshot headers ≠ .overflowed ∧
      ∀ r, serveExistingDownload opened (some blob.length) snapshot headers = .answered r →
        Carries getRange blob (servedRange headers blob.length) r := by
  have hwhole : serveNonRangeDownload opened (some blob.length) ≠ .overflowed := by
    unfold serveNonRangeDownload
    split <;> nofun
  unfold serveExistingDownload servedRange
  split
  · next hnone =>
    have hstr : str headers "range" = none := by rw [str, Option.isNone_iff_eq_none.1 hnone, Option.bind_none]
    rw [hstr]
    exact ⟨hwhole, fun r h => nonRange_carries h⟩
  · unfold serveRangeDownload
    cases hstr : str headers "range" with
    | none => exact ⟨nofun, nofun⟩
    | some value =>
      simp only [Option.map_some, Option.getD_some]
      cases hrange : parseRangeHeader value blob.length with
      | satisfiable start e =>
        obtain ⟨hle, hlt⟩ := bounds_of_satisfiable hrange
        have hlength := length_slice hle hlt
        have hlimit : checkedAdd e 1 = some (e + 1) := checkedAdd_eq_some.2 ⟨rfl, by omega⟩
        simp only [rangeLength_eq hle hlt hn, hlimit]
        split
        · exact ⟨nofun, nofun⟩
        · cases opened with
          | false => exact ⟨nofun, nofun⟩
          | true =>
            refine ⟨nofun, fun r h => ?_⟩
            cases h
            exact ⟨rfl, rfl, congrArg some hlength.symm, hlength, gives_tail getRange start hlt⟩
      | unsatisfiable =>
        refine ⟨nofun, fun r h => ?_⟩
        cases h
        exact ⟨rfl, rfl, rfl, rfl⟩
      | ignore => exact ⟨hwhole, fun r h => nonRange_carries h⟩

/-- Two replies say the same about the bytes they carry. -/
structure SaysSame (r r' : Reply) : Prop where
  status : r.status = r'.status
  contentRange : r.contentRange = r'.contentRange
  contentLength : r.contentLength = r'.contentLength

/-- Replies that carry the same range of a blob say the same, and give the same bytes. -/
theorem Carries.same {range : RangeSpec} {r r' : Reply} (h : Carries getRange blob range r) (h' : Carries getRange blob range r') :
    SaysSame r r' ∧ ∃ body, Gives getRange blob r.body body ∧ Gives getRange blob r'.body body := by
  cases range with
  | satisfiable start e =>
    obtain ⟨hs, hr, hl, _, hb⟩ := h
    obtain ⟨hs', hr', hl', _, hb'⟩ := h'
    exact ⟨⟨hs.trans hs'.symm, hr.trans hr'.symm, hl.trans hl'.symm⟩, _, hb, hb'⟩
  | unsatisfiable =>
    obtain ⟨hs, hr, hl, hb⟩ := h
    obtain ⟨hs', hr', hl', hb'⟩ := h'
    exact ⟨⟨hs.trans hs'.symm, hr.trans hr'.symm, hl.trans hl'.symm⟩, _, hb, hb'⟩
  | ignore =>
    obtain ⟨hs, hr, hl, hb⟩ := h
    obtain ⟨hs', hr', hl', hb'⟩ := h'
    exact ⟨⟨hs.trans hs'.symm, hr.trans hr'.symm, hl.trans hl'.symm⟩, _, hb, hb'⟩

/-- The status of a reply tells the kind of its range. -/
theorem Carries.status {range : RangeSpec} {r : Reply} (h : Carries getRange blob range r) :
    r.status = 200 ↔ range = .ignore := by
  cases range with
  | satisfiable start e => simp [h.1]
  | unsatisfiable => simp [h.1]
  | ignore => simp [h.1]

/-- What a file or an object is answered with is the response of the handler. -/
theorem rangeResponse_agrees {r : Reply} (h : Carries getRange blob (requestedRange headers etag blob.length) r) :
    (rangeResponse (requestedRange headers etag blob.length) blob.length).status = r.status ∧
      (rangeResponse (requestedRange headers etag blob.length) blob.length).content.map Prod.snd = r.contentLength := by
  cases hrange : requestedRange headers etag blob.length with
  | satisfiable start e =>
    rw [hrange] at h
    exact ⟨h.1.symm, by rw [h.2.2.1, h.2.2.2.1]; rfl⟩
  | unsatisfiable =>
    rw [hrange] at h
    exact ⟨h.1.symm, h.2.2.1.symm⟩
  | ignore =>
    rw [hrange] at h
    exact ⟨h.1.symm, h.2.2.1.symm⟩

end Almond.Replies

namespace Almond.Sample

open Http Replies

/-- A bucket that gives the range between two numbers. -/
def getRange (blob : Bytes) (range : Str) : Bytes :=
  match splitOnce '-' (range.drop 6) with
  | some (start, «end») => slice blob (digitsValue start) (digitsValue «end»)
  | none => blob

end Almond.Sample

namespace Almond.Replies

open Http

/-- The reply of a download in flight says the same as the reply of the stored file, and gives the same bytes. -/
def Agrees (getRange : Bytes → Str → Bytes) (blob : Bytes) (headers : Headers) (etag : Str) (r : Reply) : Prop :=
  ∃ stored, serveFileWithRange headers etag blob.length = some stored ∧ SaysSame r stored ∧
    ∃ body, Gives getRange blob r.body body ∧ Gives getRange blob stored.body body

/-- A request whose validator is the blob's asks for the range that a download in flight serves; another one asks for the blob. -/
theorem requestedRange_eq (headers : Headers) (etag : Str) (n : Nat) :
    requestedRange headers etag n = if honorRange headers etag = true then servedRange headers n else .ignore := by
  unfold requestedRange servedRange
  cases honorRange headers etag <;> cases str headers "range" <;> rfl

/-- What a download in flight answers is what the stored file is answered with exactly when the `If-Range` validator of the request, if it
has one, is the blob's, or the request has no range that is served. -/
theorem in_flight_agrees (hn : blob.length ≤ u64Max) {opened : Bool} {snapshot : DownloadProgress} {r : Reply}
    (h : serveExistingDownload opened (some blob.length) snapshot headers = .answered r) :
    Agrees getRange blob headers etag r ↔ honorRange headers etag = true ∨ servedRange headers blob.length = .ignore := by
  have hcarries := (serveExistingDownload_carries getRange opened snapshot headers hn).2 r h
  obtain ⟨stored, hstored, hcarries'⟩ := serveFileWithRange_carries getRange headers etag hn
  rw [requestedRange_eq] at hcarries'
  constructor
  · rintro ⟨stored', hstored', hsame, _⟩
    obtain rfl := Option.some.inj (hstored'.symm.trans hstored)
    by_cases hhonor : honorRange headers etag = true
    · exact .inl hhonor
    · rw [if_neg hhonor] at hcarries'
      exact .inr (hcarries.status.1 (hsame.status.trans hcarries'.1))
  · intro hsame
    have hrange : (if honorRange headers etag = true then servedRange headers blob.length else .ignore) =
        servedRange headers blob.length := by
      split
      · rfl
      · next hhonor => exact (hsame.resolve_left hhonor).symm
    rw [hrange] at hcarries'
    exact ⟨stored, hstored, hcarries.same hcarries'⟩

/-- The first byte of a blob whose download has announced two bytes of it. -/
theorem in_flight_agrees_first : ∃ r,
    serveExistingDownload true (some 3) ⟨2, .running, by decide⟩ [("range".toList, "bytes=0-0".toList)] = .answered r ∧
      (Agrees Sample.getRange [7, 8, 9] [("range".toList, "bytes=0-0".toList)] ['"', 'a', '"'] r ↔
        honorRange [("range".toList, "bytes=0-0".toList)] ['"', 'a', '"'] = true ∨
          servedRange [("range".toList, "bytes=0-0".toList)] 3 = .ignore) := by
  have hanswered : serveExistingDownload true (some ([7, 8, 9] : Bytes).length) ⟨2, .running, by decide⟩
      [("range".toList, "bytes=0-0".toList)] = .answered ⟨206, some "bytes 0-0/3".toList, some 1, .tail 0 (some 1)⟩ := by decide
  exact ⟨_, hanswered, in_flight_agrees (by decide) hanswered⟩

/-- A download in flight serves a range to a client whose validator is stale. -/
theorem in_flight_agrees_false : ∃ (headers : Headers) (r : Reply),
    serveExistingDownload true (some 3) ⟨3, .complete, by decide⟩ headers = .answered r ∧
      ¬ Agrees Sample.getRange [7, 8, 9] headers ['"', 'a', '"'] r := by
  refine ⟨[("range".toList, "bytes=0-0".toList), ("if-range".toList, ['"', 'b', '"'])],
    ⟨206, some "bytes 0-0/3".toList, some 1, .tail 0 (some 1)⟩, by decide, ?_⟩
  rintro ⟨stored, hstored, hsame, _⟩
  have hwhole : serveFileWithRange [("range".toList, "bytes=0-0".toList), ("if-range".toList, ['"', 'b', '"'])] ['"', 'a', '"'] 3 =
      some ⟨200, none, some 3, .file 0 none⟩ := by decide
  obtain rfl := Option.some.inj (hstored.symm.trans hwhole)
  nomatch hsame.status

end Almond.Replies
