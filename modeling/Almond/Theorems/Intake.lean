import Almond.Lemmas.BodiesAux
import Almond.Sample

/-! # Content addressing -/

namespace Almond

open Conc Handlers

/-- In every run from an orderly state, the state stays orderly. -/
theorem orderly_of_run {cfg : Config} {s : AppState} {c : Server} (hs : Orderly cfg s)
    (hrun : Run (machine cfg) (fun _ _ => True) (Server.idle s) c) : Orderly cfg c.world.store := by
  have hok : ∀ (c : Server) (l : Label Req Resp Str Op Report), True → (Uploads.discipline cfg).ok c l := by
    intro c l _
    cases l <;> exact trivial
  have hsound : Sound (machine cfg) (Uploads.discipline cfg) (fun _ _ _ _ => True) (Server.idle s) := sound_empty hs.sessions
  exact ⟨sane_of_run hrun hs.sane, (hsound.run (Uploads.fits cfg) (hrun.mono hok)).1⟩

/-- In every history, each chunk file of an upload that was completed holds the body of the request that committed it, as long as the
file is there. -/
theorem holdsReceived_of_history {cfg : Config} {root : Path} {s : AppState} {past : Custody.Past} {c : Server}
    (hlayout : cfg.storage = .new root) (hsane : s.disk.Sane) (hsessions : s.sessions = .empty)
    (h : History (machine cfg) (fun _ _ _ => True) (Server.idle s) past c) {c₁ : Server} {t : Tid} {op : Op} {key : ChunkUploadKey}
    {params : SessionParams} {last : ChunkInfo} {upload : ChunkUpload}
    (hmem : (c₁, .called t op (.sessions (.commit key params last)) (.complete upload)) ∈ past) :
    ∀ chunk ∈ upload.chunks, ∃ received, ReceivedIn past chunk received ∧ HoldsReceived c.world.store.disk chunk received := by
  intro chunk hchunk
  have hkept := Contents.kept_of_history hlayout hsane hsessions h
  have hrecord : (op, ⟨.sessions (.commit key params last), .complete upload⟩) ∈ Contents.records past t :=
    List.mem_filterMap.2 ⟨_, hmem, if_pos rfl⟩
  exact Contents.holdsReceived_of_accepted hkept.filed (hkept.sourced.completed t op key params last upload hrecord chunk hchunk)

/-- Every door calls the publication only when its temporary file holds exactly the bytes that it received, with their hash and their
size, within the limit of the door: an upload with its body, a mirror, a mirrored segment and a cache fill with the response they
fetched. In every history of the server, each chunk file of a completed upload holds the body of the request that committed it, and a
chunked upload, which commits a chunk only when its file holds the body, publishes the bodies that the requests received which committed
the chunks of its upload, in the order of their offsets. -/
theorem content_addressing (cfg : Config) (root : Path) (t : Tid) :
    (∀ headers body s, (uploadFile cfg headers body).run.Calls (exec cfg t) Quiet
      (fun _ => PublishesBytes cfg cfg.maxBlobSizeBytes (receivedBytes body)) [] s) ∧
    (∀ headers body s, (mirrorBlob cfg headers body).run.Calls (exec cfg t) Quiet (PublishesFetched cfg) [] s) ∧
    (∀ originBaseUrl reference s,
      (Hls.mirrorSingleReference cfg originBaseUrl reference).run.Calls (exec cfg t) Quiet (PublishesFetched cfg) [] s) ∧
    (∀ filename contentType totalLen upstreamResp s,
      (Upstream.fillCache cfg filename contentType totalLen upstreamResp).run.Calls (exec cfg t) Quiet
        (fun _ => PublishesBytes cfg (fetchLimit cfg) (receivedBytes upstreamResp.frames)) [] s) ∧
    ∀ s past c, cfg.storage = .new root → s.disk.Sane → s.sessions = .empty →
      History (machine cfg) (fun _ _ _ => True) (Server.idle s) past c →
        (∀ c₁ t op key params last upload, (c₁, .called t op (.sessions (.commit key params last)) (.complete upload)) ∈ past →
          ∀ chunk ∈ upload.chunks, ∃ received, ReceivedIn past chunk received ∧ HoldsReceived c.world.store.disk chunk received) ∧
        ∀ headers body, (patchUpload cfg headers body).run.Calls (exec cfg c.world.next) (CommitsReceived cfg body)
          (PublishesReceived cfg past body) [] c.world.store := by
  refine ⟨fun headers body s => (uploadFile_calls headers body).mono quiet_of_prepares fun _ _ _ h => h.1,
    fun headers body s => mirrorBlob_calls headers body,
    fun originBaseUrl reference s => mirrorSingleReference_calls originBaseUrl reference,
    fun filename contentType totalLen upstreamResp s => fillCache_calls filename contentType totalLen upstreamResp, ?_⟩
  intro s past c hlayout hsane hempty h
  exact ⟨fun _ _ _ _ _ _ _ hmem => holdsReceived_of_history hlayout hsane hempty h hmem,
    fun headers body => Contents.patchUpload_received hlayout hsane hempty h headers body⟩

namespace Sample

/-- One half of a blob of six bytes. -/
def halfOfSix (offset : String) (data : Bytes) : Op :=
  .patch [("authorization".toList, "Nostr e30=".toList), ("x-sha-256".toList, hash), ("upload-type".toList, "image/png".toList),
    ("upload-length".toList, "6".toList), ("content-length".toList, "3".toList), ("upload-offset".toList, offset.toList)] [.ok data]

/-- Whether a step completed an upload of two chunks. -/
def completesTwo : Label Req Resp Str Op Report → Bool
  | .called _ _ (.sessions (.commit _ _ _)) (.complete upload) => upload.chunks.length = 2
  | _ => false

theorem halves_replay : (((machine config).replay (Server.idle started)
    ([.spawn (halfOfSix "3" [4, 5, 6]), .spawn (halfOfSix "0" [1, 2, 3])] ++ steps 0 17 ++ steps 1 17)).any
      fun p => okAlong (fun _ _ _ => true) [] p.1 && p.1.reverse.any fun x => completesTwo x.2) = true := by
  decide

end Sample

open Sample in
/-- A history in which two halves of a blob complete their upload, the second half first. -/
theorem content_addressing_halves : ∃ past c c₁ t op key params last upload,
    History (machine config) (fun _ _ _ => True) (Server.idle started) past c ∧
      (c₁, .called t op (.sessions (.commit key params last)) (.complete upload)) ∈ past ∧ upload.chunks.length = 2 ∧
      (∀ chunk ∈ upload.chunks, ∃ received, ReceivedIn past chunk received ∧ HoldsReceived c.world.store.disk chunk received) ∧
      (patchUpload config chunkHeaders [.ok [1, 2, 3]]).run.Calls (exec config c.world.next) (CommitsReceived config [.ok [1, 2, 3]])
        (PublishesReceived config past [.ok [1, 2, 3]]) [] c.world.store := by
  have hsane : started.disk.Sane := ⟨fun _ _ h => (nomatch h), fun _ _ _ h => (nomatch h)⟩
  obtain ⟨past, c, h, hcompletes⟩ := exists_history_of_replay (machine config) (Server.idle started) _ (fun _ _ _ => true)
    (fun past => past.any fun x => completesTwo x.2) halves_replay
  obtain ⟨⟨c₁, l⟩, hmem, hl⟩ := List.any_eq_true.1 hcompletes
  unfold completesTwo at hl
  split at hl
  · rename_i t op key params last upload heq
    obtain rfl : l = _ := heq
    have hhistory := h.mono fun _ _ _ _ => trivial
    obtain ⟨hfiles, hnext⟩ := (content_addressing config _ 0).2.2.2.2 started past c rfl hsane rfl hhistory
    exact ⟨past, c, c₁, t, op, key, params, last, upload, hhistory, hmem, of_decide_eq_true hl,
      hfiles c₁ t op key params last upload hmem, hnext _ _⟩
  · nomatch hl

end Almond
