import Almond.Basic

/-! # Reading a file that grows

A response that follows a download reads the file of the download while it grows. A watch channel tells it how much of the file was
written: it has one value, and a reader that is slow misses the values in between. -/

namespace Almond

/-- Where a download stands. -/
inductive DownloadPhase where
  | running
  | complete
  | failed
  deriving DecidableEq, Repr

/-- What a download has told its readers. -/
structure DownloadProgress where
  written : Nat
  phase : DownloadPhase
  /-- It is a `u64`. -/
  bound : written ≤ u64Max
  deriving DecidableEq

namespace Tail

/-- The errors that end a stream. -/
inductive StreamError where
  | brokenPipe (message : String)
  | unexpectedEof (message : String)
  /-- A seek or a read failed. -/
  | io (error : IoError)
  deriving DecidableEq, Repr

/-- Where the stream is in its loop. -/
inductive Point where
  /-- At the top. -/
  | polling
  /-- In `read_exact`, of so many bytes. -/
  | reading (toRead : Nat)
  /-- In `changed`. -/
  | waiting
  | ended (result : Except StreamError Unit)

/-- The bound of what can be read: the progress, and the end of the range. -/
def available (limit : Option Nat) (snapshot : DownloadProgress) : Nat :=
  min (limit.getD u64Max) snapshot.written

/-- What the loop does with the progress it has borrowed. -/
def poll (limit : Option Nat) (position : Nat) (snapshot : DownloadProgress) : Point :=
  if position < available limit snapshot then .reading (min (64 * 1024) (available limit snapshot - position))
  else if limit.any (· ≤ position) then .ended (.ok ())
  else
    match snapshot.phase with
    | .running => .waiting
    | .complete =>
      if limit.any (position < ·) then .ended (.error (.unexpectedEof "download completed before the requested range"))
      else .ended (.ok ())
    | .failed => .ended (.error (.brokenPipe "upstream download failed"))

/-- A download and one stream that follows it. -/
structure TailState where
  /-- The value of the channel. -/
  progress : DownloadProgress
  /-- Whether the channel got a value that the stream has not borrowed. -/
  changed : Bool
  /-- Whether the sender is gone. -/
  closed : Bool
  /-- The contents of the file. -/
  file : Bytes
  position : Nat
  /-- The chunks that the stream has yielded. -/
  yielded : List Bytes
  point : Point

/-- `create_tailing_stream`: it seeks, and returns the stream or the error. -/
def createTailingStream (progress : DownloadProgress) (closed : Bool) (file : Bytes) (start : Nat) (seek : Except IoError Unit) :
    TailState where
  progress := progress
  changed := false
  closed := closed
  file := file
  position := start
  yielded := []
  point :=
    match seek with
    | .ok () => .polling
    | .error error => .ended (.error (.io error))

/-- The steps of the download. -/
inductive SenderStep : TailState → TailState → Prop
  /-- The file changes; it keeps the bytes that were announced. -/
  | write {st} (file : Bytes) (hstable : file.take st.progress.written = st.file.take st.progress.written)
      (hlen : st.progress.written ≤ file.length) : SenderStep st { st with file := file }
  /-- The channel gets a value, unless the last one was terminal. -/
  | send {st} (progress : DownloadProgress) (hopen : st.closed = false) (hrunning : st.progress.phase = .running)
      (hwritten : st.progress.written ≤ progress.written) (hlen : progress.written ≤ st.file.length) :
      SenderStep st { st with progress := progress, changed := true }
  | close {st} : SenderStep st { st with closed := true }

/-- The steps of the stream. -/
inductive ReaderStep (limit : Option Nat) : TailState → TailState → Prop
  /-- `borrow_and_update`, and what follows it up to the next `await`. -/
  | poll {st} (hp : st.point = .polling) :
      ReaderStep limit st { st with changed := false, point := poll limit st.position st.progress }
  /-- `read_exact` has filled the buffer, and the stream yields it. -/
  | read {st toRead} (hp : st.point = .reading toRead) (hlen : st.position + toRead ≤ st.file.length) :
      ReaderStep limit st
        { st with
          position := st.position + toRead
          yielded := st.yielded ++ [(st.file.drop st.position).take toRead]
          point := .polling }
  | readFailed {st toRead} (hp : st.point = .reading toRead) (error : IoError) :
      ReaderStep limit st { st with point := .ended (.error (.io error)) }
  | changed {st} (hp : st.point = .waiting) (hc : st.changed = true) : ReaderStep limit st { st with point := .polling }
  | closed {st} (hp : st.point = .waiting) (hc : st.changed = false) (hx : st.closed = true) :
      ReaderStep limit st { st with point := .ended (.error (.brokenPipe "download progress channel closed")) }

/-- What the steps of a download and of a stream that follows it lead to. -/
inductive Reachable (start : Nat) (limit : Option Nat) : TailState → Prop
  | create (progress : DownloadProgress) (closed : Bool) (file : Bytes) (seek : Except IoError Unit)
      (hlen : progress.written ≤ file.length) : Reachable start limit (createTailingStream progress closed file start seek)
  | sender {st st'} (h : Reachable start limit st) (hs : SenderStep st st') : Reachable start limit st'
  | reader {st st'} (h : Reachable start limit st) (hs : ReaderStep limit st st') : Reachable start limit st'

/-- Steps one after another, so many of them of the stream. -/
inductive Follows (limit : Option Nat) : Nat → TailState → TailState → Prop
  | refl (st) : Follows limit 0 st st
  | sender {n st st₁ st₂} (h : Follows limit n st st₁) (hs : SenderStep st₁ st₂) : Follows limit n st st₂
  | reader {n st st₁ st₂} (h : Follows limit n st st₁) (hs : ReaderStep limit st₁ st₂) : Follows limit (n + 1) st st₂

/-- The download has ended: its phase is terminal, or its sender is gone. -/
def TailState.Settled (st : TailState) : Prop :=
  st.progress.phase ≠ .running ∨ st.closed = true

/-- The number of bytes that the stream can still read. -/
def TailState.unread (limit : Option Nat) (st : TailState) : Nat :=
  available limit st.progress - st.position

/-- A bound on the steps of the stream before the channel gets another value. -/
def TailState.todo (limit : Option Nat) (st : TailState) : Nat :=
  match st.point with
  | .ended _ => 0
  | .reading _ => 2 * st.unread limit + 2
  | .polling => 2 * st.unread limit + 3
  | .waiting => if st.changed then 2 * st.unread limit + 4 else 1

/-! ## One round of the loop -/

section

variable {limit : Option Nat} {position toRead : Nat} {snapshot : DownloadProgress}

/-- The bound lies within what was written. -/
theorem available_le_written (limit : Option Nat) (snapshot : DownloadProgress) : available limit snapshot ≤ snapshot.written :=
  Nat.min_le_right ..

/-- Without an end of the range the bound is what was written. -/
theorem available_none (snapshot : DownloadProgress) : available none snapshot = snapshot.written :=
  Nat.min_eq_right snapshot.bound

/-- The bound lies within the range. -/
theorem available_some_le (limit : Nat) (snapshot : DownloadProgress) : available (some limit) snapshot ≤ limit :=
  Nat.min_le_left ..

/-- A read is not empty and stays below the bound. -/
theorem reading_of_poll (h : poll limit position snapshot = .reading toRead) :
    0 < toRead ∧ position + toRead ≤ available limit snapshot := by
  unfold poll at h
  split at h
  · next hlt =>
    cases h
    omega
  · split at h
    · nomatch h
    · split at h
      · nomatch h
      · split at h
        · nomatch h
        · nomatch h
      · nomatch h

/-- The stream ends without an error at the end of its range, or at the end of a complete download that has no end of the range. -/
theorem ended_ok_of_poll (h : poll limit position snapshot = .ended (.ok ())) :
    available limit snapshot ≤ position ∧
      ((∃ e, limit = some e ∧ e ≤ position) ∨ limit = none ∧ snapshot.phase = .complete) := by
  unfold poll at h
  split at h
  · nomatch h
  · next hge =>
    refine ⟨Nat.le_of_not_lt hge, ?_⟩
    split at h
    · next hend =>
      obtain ⟨e, he, hle⟩ := (Option.any_eq_true _ _).1 hend
      exact .inl ⟨e, he, of_decide_eq_true hle⟩
    · next hend =>
      split at h
      · nomatch h
      · next hphase =>
        cases limit with
        | none => exact .inr ⟨rfl, hphase⟩
        | some e =>
          -- The end is neither reached nor ahead.
          simp only [Option.any_some, decide_eq_true_eq] at hend h
          rw [if_pos (Nat.lt_of_not_le hend)] at h
          nomatch h
      · nomatch h

/-- The stream waits only while the download runs. -/
theorem running_of_poll (h : poll limit position snapshot = .waiting) : snapshot.phase = .running := by
  unfold poll at h
  split at h
  · nomatch h
  · split at h
    · nomatch h
    · split at h
      · next hphase => exact hphase
      · split at h
        · nomatch h
        · nomatch h
      · nomatch h

end

end Tail

end Almond
