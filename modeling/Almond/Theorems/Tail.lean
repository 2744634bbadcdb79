import Almond.Tail

/-! # What a stream that follows a download yields -/

namespace Almond.Tail

/-- What holds whenever a stream follows a download. -/
structure Following (start : Nat) (limit : Option Nat) (st : TailState) : Prop where
  /-- The file has the bytes that were announced. -/
  stable : st.progress.written ≤ st.file.length
  /-- The stream has not moved, or what it has read was announced and is in the range. -/
  within : st.position = start ∨ start ≤ st.position ∧ st.position ≤ available limit st.progress
  /-- It has yielded what it has read. -/
  yielded : st.yielded.flatten = (st.file.take st.position).drop start
  /-- A read stays within what was announced and in the range. -/
  reading : ∀ toRead, st.point = .reading toRead → 0 < toRead ∧ st.position + toRead ≤ available limit st.progress
  /-- A stream that has ended without an error has read the range, or all of a complete download. -/
  finished : st.point = .ended (.ok ()) →
    (∃ e, limit = some e ∧ e ≤ st.position) ∨ limit = none ∧ st.progress.phase = .complete ∧ st.progress.written ≤ st.position
  /-- A stream waits for a download that runs, or for a value that it has not borrowed. -/
  waiting : st.point = .waiting → st.changed = true ∨ st.progress.phase = .running

section

variable {start : Nat} {limit : Option Nat} {st st' : TailState}

/-- The stream begins with nothing. -/
theorem following_create (limit : Option Nat) {progress : DownloadProgress} {file : Bytes} (closed : Bool) (start : Nat)
    (seek : Except IoError Unit) (hlen : progress.written ≤ file.length) :
    Following start limit (createTailingStream progress closed file start seek) := by
  have hnil : [] = (file.take start).drop start := (List.drop_eq_nil_of_le (List.length_take_le ..)).symm
  cases seek with
  | ok _ => exact ⟨hlen, .inl rfl, hnil, fun _ hp => (nomatch hp), fun hp => (nomatch hp), fun hp => (nomatch hp)⟩
  | error _ => exact ⟨hlen, .inl rfl, hnil, fun _ hp => (nomatch hp), fun hp => (nomatch hp), fun hp => (nomatch hp)⟩

/-- The bytes that a stream has read stay the same when the announced ones do. -/
theorem Following.drop_take (h : Following start limit st) {file : Bytes}
    (hstable : file.take st.progress.written = st.file.take st.progress.written) :
    (file.take st.position).drop start = (st.file.take st.position).drop start := by
  rcases h.within with hpos | ⟨_, hle⟩
  · rw [hpos, List.drop_eq_nil_of_le (List.length_take_le ..), List.drop_eq_nil_of_le (List.length_take_le ..)]
  · have hwritten : st.position ≤ st.progress.written := Nat.le_trans hle (available_le_written ..)
    have htake : file.take st.position = st.file.take st.position := by
      rw [← Nat.min_eq_left hwritten, ← List.take_take, hstable, List.take_take]
    rw [htake]

/-- The bound grows with what was written. -/
theorem available_mono (limit : Option Nat) {a b : DownloadProgress} (h : a.written ≤ b.written) : available limit a ≤ available limit b :=
  Nat.le_min.2 ⟨Nat.min_le_left .., Nat.le_trans (Nat.min_le_right ..) h⟩

/-- The download keeps what holds of a stream that follows it. -/
theorem Following.sender (h : Following start limit st) (hs : SenderStep st st') : Following start limit st' := by
  cases hs with
  | write file hstable hlen =>
    exact ⟨hlen, h.within, h.yielded.trans (h.drop_take hstable).symm, h.reading, h.finished, h.waiting⟩
  | send progress hopen hrunning hwritten hlen =>
    have havailable := available_mono limit hwritten
    refine ⟨hlen, h.within.imp_right fun hw => ⟨hw.1, Nat.le_trans hw.2 havailable⟩, h.yielded, fun toRead hp => ?_, fun hp => ?_, fun _ => .inl rfl⟩
    · obtain ⟨hpos, hle⟩ := h.reading toRead hp
      exact ⟨hpos, Nat.le_trans hle havailable⟩
    · rcases h.finished hp with hend | ⟨_, hcomplete, _⟩
      · exact .inl hend
      · nomatch hrunning.symm.trans hcomplete
  | close => exact ⟨h.stable, h.within, h.yielded, h.reading, h.finished, h.waiting⟩

/-- The stream keeps what holds of it. -/
theorem Following.reader (h : Following start limit st) (hs : ReaderStep limit st st') : Following start limit st' := by
  cases hs with
  | poll hp =>
    refine ⟨h.stable, h.within, h.yielded, fun toRead hr => reading_of_poll hr, fun hr => ?_, fun hr => .inr (running_of_poll hr)⟩
    obtain ⟨hle, hend | ⟨hnone, hcomplete⟩⟩ := ended_ok_of_poll hr
    · exact .inl hend
    · subst hnone
      exact .inr ⟨rfl, hcomplete, available_none st.progress ▸ hle⟩
  | @read toRead hp hlen =>
    obtain ⟨hpos, hle⟩ := h.reading toRead hp
    have hstart : start ≤ st.position := by
      rcases h.within with hs | ⟨hs, _⟩
      · exact Nat.le_of_eq hs.symm
      · exact hs
    refine ⟨h.stable, .inr ⟨Nat.le_add_right_of_le hstart, hle⟩, ?_, fun _ hr => (nomatch hr), fun hr => (nomatch hr), fun hr => (nomatch hr)⟩
    -- The chunk continues the bytes before it.
    have hlength : (st.file.take st.position).length = st.position := List.length_take_of_le (by omega)
    have hjoin : st.file.take (st.position + toRead) = st.file.take st.position ++ (st.file.drop st.position).take toRead :=
      List.take_add
    rw [List.flatten_append, h.yielded, hjoin, List.drop_append_of_le_length (by omega), List.flatten_singleton]
  | readFailed hp error =>
    exact ⟨h.stable, h.within, h.yielded, fun _ hr => (nomatch hr), fun hr => (nomatch hr), fun hr => (nomatch hr)⟩
  | changed hp hc =>
    exact ⟨h.stable, h.within, h.yielded, fun _ hr => (nomatch hr), fun hr => (nomatch hr), fun hr => (nomatch hr)⟩
  | closed hp hc hx =>
    exact ⟨h.stable, h.within, h.yielded, fun _ hr => (nomatch hr), fun hr => (nomatch hr), fun hr => (nomatch hr)⟩

/-- What holds of a stream holds after all steps. -/
theorem following_of_reachable (h : Reachable start limit st) : Following start limit st := by
  induction h with
  | create progress closed file seek hlen => exact following_create limit closed start seek hlen
  | sender _ hs ih => exact ih.sender hs
  | reader _ hs ih => exact ih.reader hs

/-! ## The end of a stream -/

/-- A step of the stream lowers the bound of the steps to come. -/
theorem Following.todo_lt (h : Following start limit st) (hs : ReaderStep limit st st') : st'.todo limit < st.todo limit := by
  cases hs with
  | poll hp =>
    simp only [TailState.todo, hp]
    cases hpoll : poll limit st.position st.progress with
    | polling =>
      unfold poll at hpoll
      split at hpoll
      · nomatch hpoll
      · split at hpoll
        · nomatch hpoll
        · split at hpoll
          · nomatch hpoll
          · split at hpoll <;> nomatch hpoll
          · nomatch hpoll
    | reading toRead => exact Nat.lt_succ_self _
    | waiting => simp
    | ended result => simp
  | @read toRead hp hlen =>
    obtain ⟨hpos, hle⟩ := h.reading toRead hp
    simp only [TailState.todo, hp, TailState.unread]
    omega
  | readFailed hp error => simp [TailState.todo, hp]
  | changed hp hc => simp [TailState.todo, hp, hc, TailState.unread]
  | closed hp hc hx => simp [TailState.todo, hp, hc]

/-- A download that has ended does not give the stream more to do. -/
theorem todo_of_settled (h : st.Settled) (hs : SenderStep st st') : st'.todo limit = st.todo limit ∧ st'.Settled := by
  cases hs with
  | write file hstable hlen => exact ⟨rfl, h⟩
  | send progress hopen hrunning hwritten hlen =>
    rcases h with hphase | hclosed
    · exact absurd hrunning hphase
    · nomatch hopen.symm.trans hclosed
  | close => exact ⟨rfl, .inr rfl⟩

/-- A stream does not end the download. -/
theorem settled_of_reader (h : st.Settled) (hs : ReaderStep limit st st') : st'.Settled := by
  cases hs <;> exact h

/-- A stream whose download has ended takes at most so many steps. -/
theorem steps_le_todo {n : Nat} (h : Reachable start limit st) (hst : st.Settled) (hf : Follows limit n st st') :
    Reachable start limit st' ∧ st'.Settled ∧ n + st'.todo limit ≤ st.todo limit := by
  induction hf with
  | refl => exact ⟨h, hst, Nat.le_of_eq (Nat.zero_add _)⟩
  | sender _ hs ih =>
    obtain ⟨hr, hsettled, hle⟩ := ih h hst
    obtain ⟨htodo, hsettled⟩ := @todo_of_settled limit _ _ hsettled hs
    exact ⟨hr.sender hs, hsettled, htodo ▸ hle⟩
  | reader _ hs ih =>
    obtain ⟨hr, hsettled, hle⟩ := ih h hst
    have hlt := (following_of_reachable hr).todo_lt hs
    exact ⟨hr.reader hs, settled_of_reader hsettled hs, by omega⟩

/-- A stream whose download has ended can go on until it has ended. -/
theorem Following.moves (h : Following start limit st) (hst : st.Settled) :
    (∃ result, st.point = .ended result) ∨ ∃ st', ReaderStep limit st st' := by
  cases hp : st.point with
  | polling => exact .inr ⟨_, .poll hp⟩
  | reading toRead =>
    obtain ⟨_, hle⟩ := h.reading toRead hp
    have hfile := Nat.le_trans (Nat.le_trans hle (available_le_written ..)) h.stable
    exact .inr ⟨_, .read hp hfile⟩
  | waiting =>
    cases hc : st.changed with
    | true => exact .inr ⟨_, .changed hp hc⟩
    | false =>
      have hrunning := (h.waiting hp).resolve_left (by rw [hc]; exact Bool.false_ne_true)
      exact .inr ⟨_, .closed hp hc (hst.resolve_left (not_not_intro hrunning))⟩
  | ended result => exact .inl ⟨result, rfl⟩

end

/-- Whatever the download writes and announces, the stream has yielded the beginning of the announced bytes of its range, and it reads
none that was not announced. When it ends without an error it has yielded the bytes of its range, or, without an end of the range, all
bytes from its start of a complete download. Once the download has ended, the stream takes finitely many steps and none is missing
until it has ended. -/
theorem tailing_stream_exact {start : Nat} {limit : Option Nat} {st : TailState} (h : Reachable start limit st) :
    st.yielded.flatten <+: (st.file.take (available limit st.progress)).drop start ∧
    (∀ toRead, st.point = .reading toRead → st.position + toRead ≤ available limit st.progress ∧ st.progress.written ≤ st.file.length) ∧
    (st.point = .ended (.ok ()) →
      (∀ e, limit = some e → st.yielded.flatten = (st.file.take e).drop start ∧ (start < e → e ≤ st.progress.written)) ∧
      (limit = none → st.progress.phase = .complete ∧ st.yielded.flatten = (st.file.take st.progress.written).drop start)) ∧
    (st.Settled →
      ((∃ result, st.point = .ended result) ∨ ∃ st', ReaderStep limit st st') ∧
      ∀ n st', Follows limit n st st' → n ≤ st.todo limit) := by
  have hf := following_of_reachable h
  have hnil : ∀ e, e ≤ start → (st.file.take e).drop start = [] := fun e he =>
    List.drop_eq_nil_of_le (Nat.le_trans (List.length_take_le ..) he)
  refine ⟨?_, fun toRead hp => ⟨(hf.reading toRead hp).2, hf.stable⟩, fun hp => ?_, fun hst => ⟨hf.moves hst, fun n st' hfollows => ?_⟩⟩
  · rw [hf.yielded]
    rcases hf.within with hpos | ⟨_, hle⟩
    · rw [hpos, hnil start (Nat.le_refl _)]
      exact List.nil_prefix
    · rw [List.drop_take, List.drop_take]
      exact List.take_prefix_take_left (Nat.sub_le_sub_right hle start)
  · rw [hf.yielded]
    rcases hf.finished hp with ⟨e, rfl, he⟩ | ⟨rfl, hcomplete, hwritten⟩
    · refine ⟨fun e' he' => ?_, fun hnone => nomatch hnone⟩
      cases he'
      rcases hf.within with hpos | ⟨_, hle⟩
      · rw [hpos] at he ⊢
        rw [hnil start (Nat.le_refl _), hnil e he]
        exact ⟨rfl, fun hlt => absurd hlt (Nat.not_lt_of_le he)⟩
      · have heq : st.position = e := Nat.le_antisymm (Nat.le_trans hle (available_some_le ..)) he
        have hwritten := Nat.le_trans hle (available_le_written ..)
        rw [heq] at hwritten ⊢
        exact ⟨rfl, fun _ => hwritten⟩
    · refine ⟨fun e' he' => (nomatch he'), fun _ => ⟨hcomplete, ?_⟩⟩
      rcases hf.within with hpos | ⟨_, hle⟩
      · rw [hpos] at hwritten ⊢
        rw [hnil start (Nat.le_refl _), hnil _ hwritten]
      · have heq : st.position = st.progress.written := Nat.le_antisymm (Nat.le_trans hle (available_le_written ..)) hwritten
        rw [heq]
  · obtain ⟨_, _, hle⟩ := steps_le_todo h hst hfollows
    exact Nat.le_trans (Nat.le_add_right ..) hle

/-- A stream of bytes 1 to 3 of a file, which the download announces in two steps. -/
theorem tailing_stream_exact_middle :
    ∃ st : TailState, Reachable 1 (some 3) st ∧ st.point = .ended (.ok ()) ∧
      (∀ e, some 3 = some e → st.yielded.flatten = (st.file.take e).drop 1 ∧ (1 < e → e ≤ st.progress.written)) := by
  let first : DownloadProgress := ⟨2, .running, by decide⟩
  let last : DownloadProgress := ⟨4, .complete, by decide⟩
  have h₀ : Reachable 1 (some 3) (createTailingStream first false [5, 6] 1 (.ok ())) := .create first false [5, 6] (.ok ()) (by decide)
  have h₁ := (h₀.reader (.poll rfl)).reader (@ReaderStep.read _ _ 1 rfl (by decide))
  have h₂ := h₁.reader (.poll rfl)
  have h₃ := (h₂.sender (.write [5, 6, 7, 8] rfl (by decide))).sender (.send last rfl rfl (by decide) (by decide))
  have h₄ := (h₃.reader (.changed rfl rfl)).reader (.poll rfl)
  have h₅ := (h₄.reader (@ReaderStep.read _ _ 1 rfl (by decide))).reader (.poll rfl)
  exact ⟨_, h₅, rfl, ((tailing_stream_exact h₅).2.2.1 rfl).1⟩

end Almond.Tail
