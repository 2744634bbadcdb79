import Almond.Hls
import Almond.Upstream
import Almond.Lemmas.DisksAux
import Almond.Lemmas.PublicationAux

/-! # What an intake receives

Every intake writes what it receives to a file of its own, counts and hashes it, and compares. What is left in the file when it succeeds
is exactly what was received. -/

namespace Almond

open Conc

/-- The bytes of a transfer. -/
def receivedBytes {ε : Type} (frames : List (Except ε Bytes)) : Bytes :=
  frames.flatMap fun frame => match frame with
    | .ok data => data
    | .error _ => []

@[simp] theorem receivedBytes_nil {ε : Type} : receivedBytes ([] : List (Except ε Bytes)) = [] :=
  rfl

@[simp] theorem receivedBytes_ok {ε : Type} (data : Bytes) (frames : List (Except ε Bytes)) :
    receivedBytes (.ok data :: frames) = data ++ receivedBytes frames :=
  rfl

/-- A path is the name of a file with some contents. -/
structure FileHas (p : Path) (ino : Ino) (bytes : Bytes) (s : AppState) : Prop where
  name : s.disk.names.lookup p = some ino
  data : (s.disk.nodes ino).data = bytes

/-- The bytes at the path of a file are its contents. -/
theorem FileHas.bytesAt {p : Path} {ino : Ino} {bytes : Bytes} {s : AppState} (h : FileHas p ino bytes s) :
    s.bytesAt (.localFile p) = some bytes := by
  rw [AppState.bytesAt, Disk.file?, h.name]
  exact congrArg some h.data

section

variable {cfg : Config} {t : Tid} {s : AppState}

/-- A file that is created is empty. -/
theorem createFile_yields (p : Path) :
    (fs (.createFile p)).Yields (exec cfg t) Anything (fun x s' => ∀ ino, x = .ok ino → FileHas p ino [] s') s := by
  intro e _ ino hi
  cases hf : e.fs.fault with
  | some message =>
    simp only [exec, Disk.exec, hf] at hi
    cases hi
  | none =>
    simp only [exec, Disk.exec, hf, Disk.perform] at hi ⊢
    by_cases hd : s.disk.dirs.contains p = true
    · simp only [hd, if_true] at hi
      cases hi
    by_cases hp : s.disk.parentExists p = true
    · simp only [hd, hp, if_true, Bool.false_eq_true, if_false] at hi ⊢
      cases hl : s.disk.names.lookup p with
      | some ino' =>
        rw [hl] at hi
        cases hi
        refine ⟨hl, ?_⟩
        simp only [Disk.setNode, Function.update_self]
      | none =>
        rw [hl] at hi
        cases hi
        refine ⟨AList.lookup_insert .., ?_⟩
        simp only [Disk.create, Function.update_self]
    · simp only [hd, hp, Bool.false_eq_true, if_false] at hi
      cases hi

/-- What is written to a file is appended to it. -/
theorem writeAll_yields {p : Path} {ino : Ino} {written : Bytes} (h : FileHas p ino written s) (bytes : Bytes) :
    (fs (.writeAll ino bytes)).Yields (exec cfg t) Anything
      (fun x s' => ∀ u, x = .ok u → FileHas p ino (written ++ bytes) s' ∧ OnlyFile ino s.disk s'.disk) s := by
  intro e _ u hu
  cases hf : e.fs.fault with
  | some message =>
    simp only [exec, Disk.exec, hf] at hu
    cases hu
  | none =>
    simp only [exec, Disk.exec, hf, Disk.perform]
    refine ⟨⟨h.name, ?_⟩, .setNode ..⟩
    simp only [Disk.setNode, Function.update_self, h.data]

/-- A request that leaves the disk leaves its files. -/
theorem FileHas.of_disk {p : Path} {ino : Ino} {bytes : Bytes} {s' : AppState} (h : FileHas p ino bytes s) (hd : s'.disk = s.disk) :
    FileHas p ino bytes s' :=
  ⟨hd ▸ h.name, hd ▸ h.data⟩

end

namespace Upload

variable {cfg : Config} {t : Tid} {s : AppState} {p : Path} {ino : Ino} {maxBytes : Nat}

/-- The pieces of a frame are the frame. -/
theorem flatten_pieces {size : Nat} (hsize : 0 < size) : ∀ (fuel : Nat) (data : Bytes), data.length ≤ fuel →
    (pieces size fuel data).flatten = data
  | 0, data, h => by
    rw [List.length_eq_zero_iff.1 (Nat.le_zero.1 h)]
    rfl
  | fuel + 1, [], _ => rfl
  | fuel + 1, a :: data, h => by
    have hrest : ((a :: data).drop size).length ≤ fuel := by
      rw [List.length_drop]
      omega
    rw [pieces, List.flatten_cons, flatten_pieces hsize fuel _ hrest, List.take_append_drop]
    exact nofun

/-- The pieces of a frame are appended to the file. -/
theorem writePieces_yields (pieces : List Bytes) {received : Bytes} (h : FileHas p ino received s) (hmax : received.length ≤ maxBytes) :
    (writePieces ino maxBytes pieces received).run.Yields (exec cfg t) Anything (fun x s' => ∀ w, x = .ok w →
      w = received ++ pieces.flatten ∧ w.length ≤ maxBytes ∧ FileHas p ino w s') s := by
  induction pieces generalizing received s with
  | nil =>
    rintro w ⟨⟩
    exact ⟨(List.append_nil _).symm, hmax, h⟩
  | cons piece rest ih =>
    unfold writePieces
    cases hadd : checkedAdd received.length piece.length with
    | none => rintro _ ⟨⟩
    | some nextTotal =>
      obtain ⟨rfl, _⟩ := checkedAdd_eq_some.1 hadd
      by_cases hm : received.length + piece.length > maxBytes
      · simp only [hm, if_true]
        rintro _ ⟨⟩
      · simp only [hm, if_false]
        refine yields_orErr_bind ((writeAll_yields h piece).mono fun x s₁ h₁ => ?_)
        cases x with
        | error _ => rintro _ ⟨⟩
        | ok u =>
          have hlen : (received ++ piece).length ≤ maxBytes := by
            rw [List.length_append]
            omega
          refine (ih (h₁ u rfl).1 hlen).mono fun x s₂ h₂ w hw => ?_
          obtain ⟨hr, hl, hf⟩ := h₂ w hw
          exact ⟨by rw [hr, List.flatten_cons, List.append_assoc], hl, hf⟩

/-- The frames of a body are appended to the file. -/
theorem writeFrames_yields (body : Body) {received : Bytes} (h : FileHas p ino received s) (hmax : received.length ≤ maxBytes) :
    (writeFrames ino maxBytes body received).run.Yields (exec cfg t) Anything (fun x s' => ∀ w, x = .ok w →
      w = received ++ receivedBytes body ∧ w.length ≤ maxBytes ∧ FileHas p ino w s') s := by
  induction body generalizing received s with
  | nil =>
    rintro e - w ⟨⟩
    exact ⟨(List.append_nil _).symm, hmax, h⟩
  | cons frame frames ih =>
    refine Task.Yields.lift_bind (yields_read (r := .nextFrame) trivial) fun _ s₁ hs₁ => ?_
    rw [hs₁]
    cases frame with
    | error _ => exact nofun
    | ok data =>
      refine Task.Yields.run_bind (writePieces_yields _ h hmax) (fun _ _ _ => nofun) fun received' s₂ h₂ => ?_
      obtain ⟨hr, hl, hf⟩ := h₂ received' rfl
      rw [flatten_pieces (by decide) _ _ (le_refl _)] at hr
      refine (ih hf hl).mono fun x s₃ h₃ w hw => ?_
      obtain ⟨hr', hl', hf'⟩ := h₃ w hw
      exact ⟨by rw [hr', hr, receivedBytes_ok, List.append_assoc], hl', hf'⟩

/-- What is streamed to a temporary file is what was received, and its hash and its size are returned. -/
theorem streamToTempFile_yields (body : Body) (temp : Path) (maxBytes : Nat) :
    (streamToTempFile cfg.libs body temp maxBytes).run.Yields (exec cfg t) Anything (fun x s' => ∀ r, x = .ok r →
      r = (cfg.libs.sha256Hex (receivedBytes body), (receivedBytes body).length) ∧ (receivedBytes body).length ≤ maxBytes ∧
        ∃ ino, FileHas temp ino (receivedBytes body) s') s := by
  refine yields_orErr_bind ((createFile_yields temp).mono fun x s₁ h₁ => ?_)
  cases x with
  | error _ => exact nofun
  | ok ino =>
    refine yields_attempt_bind (Q := fun x s' => ∀ r, x = .ok r →
      r = (cfg.libs.sha256Hex (receivedBytes body), (receivedBytes body).length) ∧ (receivedBytes body).length ≤ maxBytes ∧
        FileHas temp ino (receivedBytes body) s') ?_ ?_
    · refine Task.Yields.run_bind (writeFrames_yields body (h₁ ino rfl) (Nat.zero_le _)) (fun _ _ _ => nofun) fun received s₂ h₂ => ?_
      obtain ⟨rfl, hl, hf⟩ := h₂ received rfl
      refine yields_orErr_bind ((yields_read (r := .fs (.syncAll ino)) trivial).mono fun x s₃ hs₃ => ?_)
      rw [hs₃]
      cases x with
      | error _ => exact nofun
      | ok _ =>
        rintro r ⟨⟩
        exact ⟨rfl, hl, hf⟩
    · rintro x s₃ h₃ e - r rfl
      obtain ⟨hr, hl, hf⟩ := h₃ r rfl
      exact ⟨hr, hl, ino, hf.of_disk rfl⟩

end Upload

namespace Handlers

variable {cfg : Config} {t : Tid} {s : AppState} {p : Path} {ino : Ino} {maxSizeBytes : Nat}

/-- The frames of a response are appended to the file. -/
theorem writeResponse_yields (frames : List (AppResult Bytes)) {received : Bytes} (h : FileHas p ino received s)
    (hmax : received.length ≤ maxSizeBytes) :
    (writeResponse ino maxSizeBytes frames received).run.Yields (exec cfg t) Anything (fun x s' => ∀ w, x = .ok w →
      w = received ++ receivedBytes frames ∧ w.length ≤ maxSizeBytes ∧ FileHas p ino w s') s := by
  induction frames generalizing received s with
  | nil =>
    rintro e - w ⟨⟩
    exact ⟨(List.append_nil _).symm, hmax, h⟩
  | cons frame frames ih =>
    refine Task.Yields.lift_bind (yields_read (r := .nextFrame) trivial) fun _ s₁ hs₁ => ?_
    rw [hs₁]
    refine yields_ofResult_bind (fun _ _ => nofun) fun data hdata => ?_
    cases hadd : checkedAdd received.length data.length with
    | none => exact nofun
    | some newSize =>
      obtain ⟨rfl, _⟩ := checkedAdd_eq_some.1 hadd
      by_cases hm : received.length + data.length > maxSizeBytes
      · simp only [hm, if_true]
        exact nofun
      · simp only [hm, if_false]
        refine yields_orErr_bind ((writeAll_yields h data).mono fun x s₂ h₂ => ?_)
        cases x with
        | error _ => exact nofun
        | ok u =>
          have hlen : (received ++ data).length ≤ maxSizeBytes := by
            rw [List.length_append]
            omega
          refine (ih (h₂ u rfl).1 hlen).mono fun x s₃ h₃ w hw => ?_
          obtain ⟨hr, hl, hf⟩ := h₃ w hw
          exact ⟨by rw [hr, hdata, receivedBytes_ok, List.append_assoc], hl, hf⟩

/-- What is streamed from a response is what was received, and its hash and its size are returned. -/
theorem streamResponseToTempFile_yields (response : Fetched) (temp : Path) (maxSizeBytes : Nat) :
    (streamResponseToTempFile cfg.libs response temp maxSizeBytes).run.Yields (exec cfg t) Anything (fun x s' => ∀ r, x = .ok r →
      r = (cfg.libs.sha256Hex (receivedBytes response.frames), (receivedBytes response.frames).length) ∧
        (receivedBytes response.frames).length ≤ maxSizeBytes ∧ ∃ ino, FileHas temp ino (receivedBytes response.frames) s') s := by
  refine yields_orErr_bind ((createFile_yields temp).mono fun x s₁ h₁ => ?_)
  cases x with
  | error _ => exact nofun
  | ok ino =>
    refine yields_attempt_bind (Q := fun x s' => ∀ r, x = .ok r →
      r = (cfg.libs.sha256Hex (receivedBytes response.frames), (receivedBytes response.frames).length) ∧
        (receivedBytes response.frames).length ≤ maxSizeBytes ∧ FileHas temp ino (receivedBytes response.frames) s') ?_ ?_
    · refine Task.Yields.run_bind (writeResponse_yields response.frames (h₁ ino rfl) (Nat.zero_le _)) (fun _ _ _ => nofun)
        fun received s₂ h₂ => ?_
      obtain ⟨rfl, hl, hf⟩ := h₂ received rfl
      refine yields_orErr_bind ((yields_read (r := .fs (.syncAll ino)) trivial).mono fun x s₃ hs₃ => ?_)
      rw [hs₃]
      cases x with
      | error _ => exact nofun
      | ok _ =>
        rintro r ⟨⟩
        exact ⟨rfl, hl, hf⟩
    · rintro x s₃ h₃ e - r rfl
      obtain ⟨hr, hl, hf⟩ := h₃ r rfl
      exact ⟨hr, hl, ino, hf.of_disk rfl⟩

end Handlers

namespace Upstream

variable {cfg : Config} {t : Tid} {s : AppState} {p : Path} {writer : Ino} {maxSizeBytes : Nat}

/-- The frames of a download are appended to its file. -/
theorem writeChunks_yields (frames : List (AppResult Bytes)) {received : Bytes} (h : FileHas p writer received s)
    (hmax : received.length ≤ maxSizeBytes) :
    (writeChunks writer maxSizeBytes frames received).run.Yields (exec cfg t) Anything (fun x s' => ∀ w, x = .ok w →
      w = received ++ receivedBytes frames ∧ w.length ≤ maxSizeBytes ∧ FileHas p writer w s') s := by
  induction frames generalizing received s with
  | nil =>
    rintro e - w ⟨⟩
    exact ⟨(List.append_nil _).symm, hmax, h⟩
  | cons frame frames ih =>
    refine Task.Yields.lift_bind (yields_read (r := .nextFrame) trivial) fun _ s₁ hs₁ => ?_
    rw [hs₁]
    cases frame with
    | error _ => exact nofun
    | ok data =>
      by_cases hm : received.length + data.length > maxSizeBytes
      · simp only [hm, if_true]
        exact nofun
      · simp only [hm, if_false]
        refine Task.Yields.lift_bind (writeAll_yields h data) fun x s₂ h₂ => ?_
        cases x with
        | error _ => exact nofun
        | ok u =>
          have hlen : (received ++ data).length ≤ maxSizeBytes := by
            rw [List.length_append]
            omega
          refine (ih (h₂ u rfl).1 hlen).mono fun x s₃ h₃ w hw => ?_
          obtain ⟨hr, hl, hf⟩ := h₃ w hw
          exact ⟨by rw [hr, receivedBytes_ok, List.append_assoc], hl, hf⟩

end Upstream

/-! ## Reconstruction -/

namespace Handlers

variable {cfg : Config} {t : Tid} {s : AppState} {target : Ino}

/-- A read returns some of what follows its position, no more than was asked for. -/
theorem read_yields (source : Ino) (position len : Nat) :
    (fs (.read source position len)).Yields (exec cfg t) Anything (fun x s' => s' = s ∧ ∀ bytes, x = .ok bytes →
      ∃ k, k ≤ len ∧ (0 < len → 0 < k) ∧ bytes = ((s.disk.nodes source).data.drop position).take k) s := by
  intro e _
  refine ⟨exec_of_inspects trivial, fun bytes hb => ?_⟩
  cases hf : e.fs.fault with
  | some message =>
    simp only [exec, Disk.exec, hf] at hb
    cases hb
  | none =>
    simp only [exec, Disk.exec, hf, Disk.perform] at hb
    cases hb
    exact ⟨_, min_le_left .., fun h => lt_min h (lt_of_lt_of_le Nat.zero_lt_one (le_max_left ..)), rfl⟩

/-- What is copied from an open chunk file is what the file holds, and it is appended to the target. -/
theorem copyChunk_copies {p : Path} {source : Ino} {bytes : Bytes} {fuel position remaining : Nat} {written : Bytes} (hne : source ≠ target)
    (hsource : (s.disk.nodes source).data = bytes) (htarget : FileHas p target written s) :
    (copyChunk source target fuel position remaining written).run.Yields (exec cfg t) Anything (fun x s' => ∀ w, x = .ok w →
      w = written ++ (bytes.drop position).take remaining ∧ ((bytes.drop position).take remaining).length = remaining ∧
        FileHas p target w s' ∧ OnlyFile target s.disk s'.disk) s := by
  have hdone : ∀ {s : AppState} {position : Nat} {written : Bytes}, FileHas p target written s →
      written = written ++ (bytes.drop position).take 0 ∧ ((bytes.drop position).take 0).length = 0 ∧
        FileHas p target written s ∧ OnlyFile target s.disk s.disk := by
    intro s position written h
    rw [List.take_zero, List.append_nil]
    exact ⟨rfl, rfl, h, .refl ..⟩
  induction fuel generalizing position remaining written s with
  | zero =>
    cases remaining with
    | zero =>
      rintro w ⟨⟩
      exact hdone htarget
    | succ remaining => rintro _ ⟨⟩
  | succ fuel ih =>
    cases remaining with
    | zero =>
      rintro w ⟨⟩
      exact hdone htarget
    | succ remaining =>
      rw [copyChunk]
      refine yields_orErr_bind ((read_yields source position _).mono fun x s₁ h₁ => ?_)
      obtain ⟨hs₁, hread⟩ := h₁
      rw [hs₁]
      cases x with
      | error _ => rintro _ ⟨⟩
      | ok piece =>
        obtain ⟨k, hk, _, hpiece⟩ := hread piece rfl
        rw [hsource] at hpiece
        -- What follows the position is the piece and what follows the piece.
        have hsplit : bytes.drop position = piece ++ bytes.drop (position + piece.length) := by
          rw [← List.drop_drop]
          exact (List.prefix_iff_eq_append.1 (hpiece ▸ List.take_prefix ..)).symm
        have hlen : piece.length ≤ remaining + 1 := by
          rw [hpiece, List.length_take]
          exact (min_le_left ..).trans (hk.trans (min_le_left ..))
        by_cases hnil : piece = []
        · simp only [hnil, if_true]
          rintro _ ⟨⟩
        · simp only [hnil, if_false]
          refine yields_orErr_bind ((writeAll_yields htarget piece).mono fun x s₂ h₂ => ?_)
          cases x with
          | error _ => rintro _ ⟨⟩
          | ok u =>
            obtain ⟨hf, honly⟩ := h₂ u rfl
            cases checkedAdd written.length piece.length with
            | none => rintro _ ⟨⟩
            | some _ =>
              refine (ih (honly.nodes source hne ▸ hsource) hf).mono fun x s₃ h₃ w hw => ?_
              obtain ⟨hr, hl, hf', honly'⟩ := h₃ w hw
              have htake : (bytes.drop position).take (remaining + 1) =
                  piece ++ (bytes.drop (position + piece.length)).take (remaining + 1 - piece.length) := by
                rw [hsplit, List.take_append, List.take_of_length_le hlen]
              refine ⟨by rw [hr, htake, List.append_assoc], ?_, hf', honly.trans honly'⟩
              rw [htake, List.length_append, hl]
              omega

/-- The contents of the file of a chunk, as they are on a disk. -/
def chunkBytes (d : Disk) (chunk : ChunkInfo) : Bytes :=
  ((d.file? chunk.chunkPath).map Node.data).getD []

/-- Every chunk has a file that is as long as the chunk. -/
def ChunkFiles (d : Disk) (chunks : List ChunkInfo) : Prop :=
  ∀ chunk ∈ chunks, ∃ ino, d.names.lookup chunk.chunkPath = some ino ∧ (d.nodes ino).data.length = chunk.length

/-- A file that is written is apart from the files of chunks. -/
structure Separate (target : Ino) (chunks : List ChunkInfo) (d : Disk) : Prop where
  ne : ∀ chunk ∈ chunks, ∀ ino, d.names.lookup chunk.chunkPath = some ino → ino ≠ target

/-- A file that stays apart leaves the contents of the chunk files. -/
theorem Separate.chunkBytes_eq {chunks : List ChunkInfo} {d d' : Disk} (h : Separate target chunks d) (ho : OnlyFile target d d')
    {chunk : ChunkInfo} (hc : chunk ∈ chunks) : chunkBytes d' chunk = chunkBytes d chunk := by
  unfold chunkBytes Disk.file?
  rw [ho.names]
  cases hl : d.names.lookup chunk.chunkPath with
  | none => rfl
  | some ino => simp only [Option.map_some, ho.nodes ino (h.ne chunk hc ino hl)]

/-- A file that stays apart leaves the chunk files. -/
theorem Separate.chunkFiles {chunks : List ChunkInfo} {d d' : Disk} (h : Separate target chunks d) (ho : OnlyFile target d d')
    (hf : ChunkFiles d' chunks) : ChunkFiles d chunks := by
  intro chunk hc
  obtain ⟨ino, hl, hlen⟩ := hf chunk hc
  rw [ho.names] at hl
  exact ⟨ino, hl, ho.nodes ino (h.ne chunk hc ino hl) ▸ hlen⟩

/-- A file that is apart from chunk files stays apart. -/
theorem Separate.onlyFile {chunks : List ChunkInfo} {d d' : Disk} (h : Separate target chunks d) (ho : OnlyFile target d d') :
    Separate target chunks d' :=
  ⟨fun chunk hc ino hl => h.ne chunk hc ino (ho.names ▸ hl)⟩

/-- What is copied from chunk files is what they hold, one after another. -/
theorem copyChunks_copies {p : Path} {chunks : List ChunkInfo} {written : Bytes} (hsep : Separate target chunks s.disk)
    (htarget : FileHas p target written s) :
    (copyChunks target chunks written).run.Yields (exec cfg t) Anything (fun x s' => ∀ w, x = .ok w →
      w = written ++ chunks.flatMap (chunkBytes s.disk) ∧ ChunkFiles s.disk chunks ∧ FileHas p target w s' ∧
        OnlyFile target s.disk s'.disk) s := by
  induction chunks generalizing written s with
  | nil =>
    rintro w ⟨⟩
    exact ⟨(List.append_nil _).symm, (fun _ h => by cases h), htarget, .refl ..⟩
  | cons chunk chunks ih =>
    refine yields_orErr_bind ((openFile_yields chunk.chunkPath).mono fun x s₁ ⟨hs₁, hopen⟩ => ?_)
    rw [hs₁]
    cases x with
    | error _ => rintro _ ⟨⟩
    | ok source =>
      have hl := hopen source rfl
      have hne := hsep.ne chunk List.mem_cons_self source hl
      refine Task.Yields.run_bind (copyChunk_copies hne rfl htarget) (fun _ _ _ _ h => by cases h) fun written' s₂ h₂ => ?_
      obtain ⟨hw, hlen, hf₂, honly⟩ := h₂ written' rfl
      rw [List.drop_zero] at hw hlen
      refine yields_orErr_bind ((read_yields source chunk.length 1).mono fun x s₃ ⟨hs₃, hread⟩ => ?_)
      rw [hs₃]
      cases x with
      | error _ => rintro _ ⟨⟩
      | ok rest =>
        obtain ⟨k, _, hk, hrest⟩ := hread rest rfl
        rw [honly.nodes source hne] at hrest
        by_cases hnil : rest = []
        · -- Nothing follows the declared bytes: they are the whole file.
          simp only [hnil, ne_eq, not_true_eq_false, if_false]
          have hdrop : (s.disk.nodes source).data.drop chunk.length = [] := by
            rw [hnil] at hrest
            exact (List.take_eq_nil_iff.1 hrest.symm).resolve_left (Nat.pos_iff_ne_zero.1 (hk Nat.one_pos))
          have hwhole : (s.disk.nodes source).data.take chunk.length = (s.disk.nodes source).data :=
            List.take_of_length_le (List.drop_eq_nil_iff.1 hdrop)
          rw [hwhole] at hw hlen
          have hsep' : Separate target chunks s.disk := ⟨fun c hc => hsep.ne c (List.mem_cons_of_mem chunk hc)⟩
          refine (ih (hsep'.onlyFile honly) hf₂).mono fun x s₄ h₄ w hx => ?_
          obtain ⟨hr, hfiles, hf₄, honly'⟩ := h₄ w hx
          have hbytes : chunks.flatMap (chunkBytes s₂.disk) = chunks.flatMap (chunkBytes s.disk) :=
            List.flatMap_congr fun c hc => hsep'.chunkBytes_eq honly hc
          have hown : chunkBytes s.disk chunk = (s.disk.nodes source).data := by
            simp only [chunkBytes, Disk.file?, hl, Option.map_some, Option.getD_some]
          refine ⟨?_, List.forall_mem_cons.2 ⟨⟨source, hl, hlen⟩, hsep'.chunkFiles honly hfiles⟩, hf₄, honly.trans honly'⟩
          rw [hr, hw, hbytes, List.flatMap_cons, hown, List.append_assoc]
        · simp only [hnil, ne_eq, not_false_eq_true, if_true]
          rintro _ ⟨⟩

/-- What a successful reconstruction has written: the contents of the chunk files, one after another, which are as long as the upload
and have its hash. -/
structure Reconstructed (libs : Libs) (chunks : List ChunkInfo) (uploadLength : Nat) (sha256 : Str) (temp : Path) (total : Nat)
    (s : AppState) : Prop where
  files : ChunkFiles s.disk chunks
  written : ∃ ino, FileHas temp ino (chunks.flatMap (chunkBytes s.disk)) s
  total_eq : total = (chunks.flatMap (chunkBytes s.disk)).length
  length_eq : (chunks.flatMap (chunkBytes s.disk)).length = uploadLength
  hash_eq : libs.sha256Hex (chunks.flatMap (chunkBytes s.disk)) = sha256

/-- A reconstruction depends on the disk only. -/
theorem Reconstructed.of_disk {libs : Libs} {chunks : List ChunkInfo} {uploadLength total : Nat} {sha256 : Str} {temp : Path}
    {s' : AppState} (h : Reconstructed libs chunks uploadLength sha256 temp total s) (hd : s'.disk = s.disk) :
    Reconstructed libs chunks uploadLength sha256 temp total s' := by
  obtain ⟨ino, hf⟩ := h.written
  refine ⟨?_, ⟨ino, ?_⟩, ?_, ?_, ?_⟩ <;> rw [hd]
  · exact h.files
  · exact hf.of_disk hd
  · exact h.total_eq
  · exact h.length_eq
  · exact h.hash_eq

/-- A reconstruction that is written and compared. -/
theorem writeReconstruction_yields {temp : Path} {chunks : List ChunkInfo} {uploadLength : Nat} {expectedSha256 : Str}
    (hsep : Separate target chunks s.disk) (htarget : FileHas temp target [] s) :
    (writeReconstruction cfg.libs chunks uploadLength expectedSha256 target).run.Yields (exec cfg t) Anything (fun x s' =>
      ∀ total, x = .ok total → Reconstructed cfg.libs chunks uploadLength expectedSha256 temp total s') s := by
  refine Task.Yields.run_bind (copyChunks_copies hsep htarget) (fun _ _ _ => nofun) fun written s₁ h₁ => ?_
  obtain ⟨hw, hfiles, hf, honly⟩ := h₁ written rfl
  rw [List.nil_append] at hw
  have hbytes : chunks.flatMap (chunkBytes s₁.disk) = written := by
    rw [hw]
    exact List.flatMap_congr fun c hc => hsep.chunkBytes_eq honly hc
  by_cases hm : written.length ≠ uploadLength ∨ cfg.libs.sha256Hex written ≠ expectedSha256
  · simp only [hm, if_true]
    exact nofun
  · simp only [hm, if_false]
    obtain ⟨hl, hh⟩ := not_or.1 hm
    have hdone : Reconstructed cfg.libs chunks uploadLength expectedSha256 temp written.length s₁ := by
      refine ⟨?_, ⟨target, ?_⟩, ?_, ?_, ?_⟩
      · intro c hc
        obtain ⟨ino, hino, hlen⟩ := hfiles c hc
        exact ⟨ino, honly.names ▸ hino, honly.nodes ino (hsep.ne c hc ino hino) ▸ hlen⟩
      all_goals rw [hbytes]
      · exact hf
      · exact of_not_not hl
      · exact of_not_not hh
    refine yields_orErr_bind ((yields_read (r := .fs (.syncAll target)) trivial).mono fun x s₂ hs₂ => ?_)
    rw [hs₂]
    cases x with
    | error _ => exact nofun
    | ok _ =>
      rintro total ⟨⟩
      exact hdone

/-- A reconstruction reads the chunk files when the temporary file is none of them. -/
theorem reconstructInto_writes {temp : Path} {chunks : List ChunkInfo} {uploadLength : Nat} {expectedSha256 : Str} (hsane : s.disk.Sane)
    (hne : ∀ chunk ∈ chunks, chunk.chunkPath ≠ temp) :
    (reconstructInto cfg.libs chunks uploadLength expectedSha256 temp).run.Yields (exec cfg t) Anything (fun x s' =>
      ∀ total, x = .ok total → Reconstructed cfg.libs chunks uploadLength expectedSha256 temp total s') s := by
  have hcreate : (fs (.createFile temp)).Yields (exec cfg t) Anything
      (fun x s' => (∀ ino, x = .ok ino → FileHas temp ino [] s') ∧ s'.disk.Sane) s :=
    (createFile_yields temp).keep (fun r e _ h => sane_exec cfg t r e h) hsane
  refine yields_orErr_bind (hcreate.mono fun x s₁ ⟨h₁, hsane₁⟩ => ?_)
  cases x with
  | error _ => exact nofun
  | ok target =>
    have htarget := h₁ target rfl
    have hsep : Separate target chunks s₁.disk := by
      refine ⟨fun chunk hc ino hl hi => hne chunk hc ?_⟩
      exact hsane₁.distinct _ _ target (hi ▸ hl) htarget.name
    refine yields_attempt_bind (writeReconstruction_yields hsep htarget) ?_
    rintro x s₂ h₂ e - total rfl
    exact (h₂ total rfl).of_disk rfl

end Handlers

end Almond
