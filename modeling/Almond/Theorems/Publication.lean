import Almond.Lemmas.PublicationAux
import Almond.Sample

/-! # Publication is atomic -/

namespace Almond

open Conc FileStorage

/-- What a publication does when it has the store to itself: its result and the state after it. -/
def publishing (cfg : Config) (t : Tid) (env : Nat → Env) (temp : Path) (publication : BlobPublication) (s : AppState) :
    AppResult StoredBlob × AppState :=
  let x := (publishBlob cfg temp publication).run.alone (exec cfg t) env 0 s
  (x.1, x.2.2)

/-- A failed publication can only have touched what no entry points at. -/
theorem entry_not_lost {layout : StorageLayout} {root : Path} (hlayout : layout = .new root) {publication : BlobPublication} {temp : Path}
    {s : AppState} (hs : Consistent layout s) (ht : Scratch layout temp) {sha256 : Str} {m : FileMetadata}
    (hm : s.index.get sha256 = some m) :
    ¬ (m.location = .localFile temp ∨ Displaceable layout publication (s.index.get publication.sha256) ∧
      Housed layout publication.sha256 publication.origin m.location) := by
  have hh := hs.housed sha256 m hm
  rintro (hl | ⟨hd, hp⟩)
  · exact hh.ne_scratch hlayout ht hl
  · -- The entry would be one of the published hash, and of the origin of the publication.
    have hsha := hh.hash_unique hp
    obtain ⟨hu, hc, _⟩ := hd m (hsha ▸ hm)
    rw [hlayout] at hh hp
    have ho := hh.origin_unique hp
    rw [hu, hc] at ho
    nomatch ho

/-- Whatever fails, a publication is atomic: it fails and leaves the index and the bytes of every entry as they were; or it reports an
incumbent and leaves the index; or the index has the new entry, and the bytes of the temporary file are where it says. An upload
keeps its entry, and the temporary file is gone. -/
theorem publish_blob_atomic (cfg : Config) (root : Path) (t : Tid) (env : Nat → Env) (temp : Path) (publication : BlobPublication)
    (s s' : AppState) (result : AppResult StoredBlob) (hlayout : cfg.storage = .new root) (hs : Consistent cfg.storage s)
    (ht : Scratch cfg.storage temp) (howned : (t, temp) ∈ s.temps)
    (hrun : publishing cfg t env temp publication s = (result, s')) :
    (∀ error, result = .error error → s'.index = s.index ∧
      ∀ sha256 m, s.index.get sha256 = some m → ∃ bytes, s.bytesAt m.location = some bytes ∧ s'.bytesAt m.location = some bytes) ∧
    (∀ stored, result = .ok stored → stored.created = false → s'.index = s.index) ∧
    (∀ stored, result = .ok stored → stored.created = true → s'.index.get publication.sha256 = some stored.metadata ∧
      ∃ bytes, s.bytesAt (.localFile temp) = some bytes ∧ s'.bytesAt stored.metadata.location = some bytes) ∧
    (∀ sha256 m, s.index.get sha256 = some m → m.origin = .upload → s'.index.get sha256 = some m) ∧
    s'.disk.hasFile temp = false := by
  have hyields := publishBlob_yields (t := t) hlayout ht howned fun e he => hs.housed publication.sha256 e he
  have hanything : ∀ n, Anything (env n) := fun _ => trivial
  have hx := hyields.alone hanything 0
  obtain ⟨hresult, hstate⟩ := Prod.mk.inj hrun
  rw [hresult, hstate] at hx
  obtain ⟨hc, hgone⟩ := hx
  have hmissing : s'.disk.hasFile temp = false := by
    simp only [AppState.bytesAt, Disk.file?, Option.map_eq_none_iff] at hgone
    rw [Disk.hasFile, hgone]
    rfl
  rcases result with e | ⟨m, _ | _⟩
  · have hbytes : ∀ sha256 m, s.index.get sha256 = some m → s'.bytesAt m.location = s.bytesAt m.location := fun _ _ hm =>
      hc.bytes _ (entry_not_lost hlayout hs ht hm)
    refine ⟨fun _ _ => ⟨hc.index, fun sha256 m hm => ?_⟩, (fun _ h => by cases h), (fun _ h => by cases h), fun sha256 m hm _ => hc.index ▸ hm, hmissing⟩
    obtain ⟨bytes, hb⟩ := hs.present sha256 m hm
    exact ⟨bytes, hb, (hbytes sha256 m hm).trans hb⟩
  · obtain ⟨_, _, hk⟩ := hc
    refine ⟨(fun _ h => by cases h), fun _ _ _ => hk.index, fun _ hr h => ?_, fun sha256 m hm _ => hk.index ▸ hm, hmissing⟩
    cases hr
    cases h
  · obtain ⟨hd, hi⟩ := hc
    refine ⟨(fun _ h => by cases h), fun _ hr h => ?_, fun _ hr _ => ?_, fun sha256 e he ho => ?_, hmissing⟩
    · cases hr
      cases h
    · cases hr
      exact ⟨hi.index ▸ BlobIndex.get_insert_self .., hi.moved⟩
    · have hne : sha256 ≠ publication.sha256 := by
        rintro rfl
        obtain ⟨_, hcache, _⟩ := hd e he
        rw [ho] at hcache
        cases hcache
      rw [hi.index, BlobIndex.get_insert_of_ne _ _ hne]
      exact he

namespace Sample

/-- A received body in the temporary directory. -/
def temporary : Path := config.storage.temp ++ ["upload_0".toList]

/-- The same server with a disk that holds a cache copy of the hash and a received body. -/
def received : AppState :=
  { started with
    disk := { disk with
      names := AList.insert temporary 1 (AList.insert (config.storage.upstreamCache ++ ["a".toList, "a".toList, hash]) 0 ∅)
      nodes := fun ino => ⟨[ino.toUInt8], 0⟩
      nextIno := 2 }
    index := BlobIndex.empty.insert hash
      ⟨.localFile (config.storage.upstreamCache ++ ["a".toList, "a".toList, hash]), none, none, 1, 0, none, none, .upstreamCache⟩
    temps := [(0, temporary)] }

/-- The publication of the body as an upload. -/
def publication : BlobPublication := ⟨hash, .upload, none, none, 1, none⟩

end Sample

open Sample in
/-- An upload replaces a cache copy, and its bytes are where its entry says. -/
theorem publish_blob_atomic_displacing :
    ∃ stored, (publishing { config with nativeS3 := false } 0 (fun _ => calm) temporary publication received).1 = .ok stored ∧
      (publishing { config with nativeS3 := false } 0 (fun _ => calm) temporary publication received).2.bytesAt
        stored.metadata.location = some [1] := by
  have hentry : ∀ sha256 m, received.index.get sha256 = some m → sha256 = hash ∧
      m = ⟨.localFile (config.storage.upstreamCache ++ ["a".toList, "a".toList, hash]), none, none, 1, 0, none, none, .upstreamCache⟩ := by
    intro sha256 m hm
    by_cases hh : sha256 = hash
    · subst hh
      exact ⟨rfl, Option.some.inj (hm.symm.trans (BlobIndex.get_insert_self ..))⟩
    · exact nomatch hm.symm.trans (BlobIndex.get_insert_of_ne .empty _ hh)
  have hs : Consistent config.storage received := by
    refine ⟨fun sha256 m hm => ?_, fun sha256 m hm => ?_⟩
    · obtain ⟨rfl, rfl⟩ := hentry sha256 m hm
      exact ⟨by decide, ["a".toList, "a".toList], [], rfl⟩
    · obtain ⟨rfl, rfl⟩ := hentry sha256 m hm
      exact ⟨[0], by decide⟩
  have hresult : (publishing { config with nativeS3 := false } 0 (fun _ => calm) temporary publication received).1.toOption.any
      (·.created) = true := by decide
  cases hx : (publishing { config with nativeS3 := false } 0 (fun _ => calm) temporary publication received).1 with
  | error e =>
    rw [hx] at hresult
    nomatch hresult
  | ok stored =>
    rw [hx] at hresult
    obtain ⟨bytes, hb, hb'⟩ := ((publish_blob_atomic { config with nativeS3 := false } ["srv".toList] 0 (fun _ => calm) temporary
      publication received _ _ rfl hs ⟨_, [], rfl⟩ (List.mem_singleton.2 rfl) rfl).2.2.1 stored hx hresult).2
    refine ⟨stored, rfl, hb'.trans ?_⟩
    have htemp : received.bytesAt (.localFile temporary) = some [1] := by decide
    exact hb.symm.trans htemp

end Almond
