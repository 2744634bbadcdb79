import Almond.Data.Maps
import Almond.Lemmas.ScanAux
import Almond.Lemmas.UpkeepAux
import Almond.Sample

/-! # Disk and index stay in step -/

namespace Almond

open Conc FileStorage Upkeep

/-! ## A new process -/

section

variable {cfg : Config} {root : Path} {env : Nat → Env} {s : AppState} {sha256 : Str}

/-- Below the roots of a disk that can be scanned, a hash has at most one file. -/
theorem Disk.Scannable.single {d : Disk} (hlayout : cfg.storage = .new root) (hs : d.Scannable cfg.storage) :
    Single cfg.libs cfg.storage d := by
  have hpath : ∀ {origin p sha256 m}, Below cfg.storage origin p → Catalogues cfg.libs d origin p sha256 m →
      ∃ dirs parsed, originRoot cfg.storage origin ++ dirs = p ∧ BlobPath cfg.storage origin p parsed ∧ parsed.hash = sha256 := by
    rintro origin p sha256 m ⟨hne, dirs, hdirs⟩ ⟨name, parsed, _, hname, hparse, hsha, _⟩
    have hp : originRoot cfg.storage origin ++ dirs ++ [name] = p := hdirs ▸ List.dropLast_append_getLast? name hname
    exact ⟨dirs ++ [name], parsed, (List.append_assoc ..).symm.trans hp, ⟨dirs, name, hp.symm, hparse⟩, hsha⟩
  intro origin origin' p p' sha256 m m' hb hb' hc hc'
  obtain ⟨dirs, parsed, hp, hblob, hsha⟩ := hpath hb hc
  obtain ⟨dirs', parsed', hp', hblob', hsha'⟩ := hpath hb' hc'
  obtain rfl := hs.unique origin origin' p p' parsed parsed' hblob hblob' (hc.dropLast_mem hs.tree).2.1
    (hc'.dropLast_mem hs.tree).2.1 (hsha.trans hsha'.symm)
  rw [hlayout] at hp hp'
  exact ⟨originRoot_append_inj (hp.trans hp'.symm), rfl⟩

/-- An index that a scan has found is in step with the disk. -/
theorem matches_of_covers (hlayout : cfg.storage = .new root) (hs : s.disk.Scannable cfg.storage)
    {map : AList fun _ : Str => FileMetadata} (hmap : Covers cfg.libs s.disk (Below cfg.storage) ⟨map, []⟩)
    (hindex : s.index.get sha256 = map.lookup sha256) : Matches cfg s sha256 := by
  -- A file of the hash is one that the scan finds.
  have hfile : ∀ q ino, Belongs cfg.storage sha256 q → s.disk.names.lookup q = some ino →
      ∃ origin m, Below cfg.storage origin q ∧ Catalogues cfg.libs s.disk origin q sha256 m := by
    rintro q ino ⟨origin, parsed, ⟨dirs, name, rfl, hparse⟩, hsha⟩ hl
    refine ⟨origin, _, ⟨by simp, by rw [List.dropLast_concat]; exact List.prefix_append ..⟩, name, parsed, s.disk.nodes ino,
      List.getLast?_concat, hparse, hsha, ?_, rfl⟩
    rw [Disk.file?, hl, Option.map_some]
  unfold Matches
  rw [hindex]
  cases hm : map.lookup sha256 with
  | none =>
    intro q hq
    cases hl : s.disk.names.lookup q with
    | none => exact hl
    | some ino =>
      obtain ⟨origin, m, hb, hc⟩ := hfile q ino hq hl
      cases hm.symm.trans ((hmap.found sha256 m).2 ⟨origin, q, hb, hc⟩)
  | some m =>
    obtain ⟨origin, p, hb, hc⟩ := (hmap.found sha256 m).1 hm
    obtain ⟨name, parsed, node, hname, hparse, hsha, hnode, rfl⟩ := id hc
    obtain ⟨ino, hl, rfl⟩ := Option.map_eq_some_iff.1 hnode
    obtain ⟨dirs, hdirs⟩ := hb.2
    have hp : p = originRoot cfg.storage origin ++ dirs ++ [name] := by
      rw [hdirs, List.dropLast_append_getLast? name hname]
    refine ⟨p, ino, ⟨rfl, rfl, dirs, name, parsed, hp, hparse, hsha, rfl, rfl⟩, fun q hq => ?_⟩
    by_cases hqp : q = p
    · rw [if_pos hqp, hqp]
      exact hl
    · rw [if_neg hqp]
      cases hlq : s.disk.names.lookup q with
      | none => exact hlq
      | some ino' =>
        obtain ⟨origin', m', hb', hc'⟩ := hfile q ino' hq hlq
        exact absurd (hs.single hlayout _ _ _ _ _ _ _ hb' hb hc' hc).2 hqp

/-- A new process has an index that is in step with its disk. -/
theorem rebuild_spec (hlayout : cfg.storage = .new root) (henv : ∀ n, (env n).fs.fault = none) (hs : s.disk.Scannable cfg.storage) :
    (rebuild cfg env s).1 = .ok () ∧ (rebuild cfg env s).2.disk = s.disk ∧ (rebuild cfg env s).2.superseded = [] ∧
      (rebuild cfg env s).2.temps = [] ∧ ∀ sha256, Matches cfg (rebuild cfg env s).2 sha256 := by
  have hyields := @buildFileIndex_yields cfg 0 (crash s) cfg.libs _ hs.tree (hs.single hlayout) hs.roots
  obtain ⟨hok, map, hstate, hmap⟩ := hyields.alone henv 0
  have hstate' : (rebuild cfg env s).2 = { crash s with index := (crash s).index.replace map } := hstate
  refine ⟨hok, ?_, ?_, ?_, fun sha256 => ?_⟩
  · rw [hstate']
    rfl
  · rw [hstate']
    rfl
  · rw [hstate']
    rfl
  · rw [hstate']
    exact matches_of_covers hlayout hs hmap rfl

/-- A disk determines what a restart keeps of an entry. -/
theorem lasting_unique (hlayout : cfg.storage = .new root) {nodes : Ino → Node} {files : Path → Option Ino}
    {entry entry' : Option FileMetadata} (h : InStep cfg.storage nodes sha256 entry files)
    (h' : InStep cfg.storage nodes sha256 entry' files) : entry.map lasting = entry'.map lasting := by
  cases entry with
  | none =>
    cases entry' with
    | none => rfl
    | some m' =>
      obtain ⟨p, ino, hs, hf⟩ := h'
      exact nomatch (h p hs.belongs).symm.trans ((hf p hs.belongs).trans (if_pos rfl))
  | some m =>
    obtain ⟨p, ino, hs, hf⟩ := h
    cases entry' with
    | none => exact nomatch (h' p hs.belongs).symm.trans ((hf p hs.belongs).trans (if_pos rfl))
    | some m' =>
      obtain ⟨p', ino', hs', hf'⟩ := h'
      have hp := (hf p hs.belongs).symm.trans (hf' p hs.belongs)
      rw [if_pos rfl] at hp
      split at hp
      · rename_i hpp
        obtain rfl := hpp
        obtain rfl := Option.some.inj hp
        obtain ⟨dirs, name, parsed, hd, hparse, _, he, hx⟩ := hs.named
        obtain ⟨dirs', name', parsed', hd', hparse', _, he', hx'⟩ := hs'.named
        obtain rfl : name = name' := by simpa using congrArg List.getLast? (hd.symm.trans hd')
        obtain rfl := Option.some.inj (hparse.symm.trans hparse')
        rw [hlayout, List.append_assoc] at hd hd'
        have ho : m.origin = m'.origin := originRoot_append_inj (hd.symm.trans hd')
        simp only [Option.map_some, lasting, hs.location, hs'.location, hs.size, hs'.size, hx, hx', he, he', ho]
      · nomatch hp

/-- A path of a hash has a file exactly when the entry says so. -/
theorem hasFile_iff (h : Matches cfg s sha256) {p : Path} (hp : Belongs cfg.storage sha256 p) :
    s.disk.hasFile p = true ↔ ∃ m, s.index.get sha256 = some m ∧ m.location = .localFile p := by
  unfold Matches at h
  cases he : s.index.get sha256 with
  | none =>
    rw [he] at h
    have hnone : s.disk.names.lookup p = none := h p hp
    rw [Disk.hasFile, hnone]
    simp
  | some m =>
    rw [he] at h
    obtain ⟨p₀, ino, hspell, hall⟩ := h
    have hat : s.disk.names.lookup p = if p = p₀ then some ino else none := hall p hp
    rw [Disk.hasFile, hat]
    constructor
    · intro hf
      split at hf
      · rename_i hpp
        exact ⟨m, rfl, hpp ▸ hspell.location⟩
      · cases hf
    · rintro ⟨_, ⟨⟩, hl⟩
      rw [if_pos (FileLocation.localFile.inj (hl.symm.trans hspell.location))]
      rfl

/-- Blobs that are all in step can be scanned. -/
theorem scannable_of_matches (htree : s.disk.Tree) (hroots : ∀ origin, originRoot cfg.storage origin ∈ s.disk.dirs)
    (hall : ∀ sha256, Matches cfg s sha256) : s.disk.Scannable cfg.storage := by
  refine ⟨htree, hroots, fun origin origin' p p' parsed parsed' hp hp' hf hf' hsha => ?_⟩
  obtain ⟨m, hm, hl⟩ := (hasFile_iff (hall parsed.hash) ⟨origin, parsed, hp, rfl⟩).1 hf
  obtain ⟨m', hm', hl'⟩ := (hasFile_iff (hall parsed.hash) ⟨origin', parsed', hp', hsha.symm⟩).1 hf'
  obtain rfl := Option.some.inj (hm.symm.trans hm')
  exact FileLocation.localFile.inj (hl.symm.trans hl')

end

/-! ## Every run -/

/-- In every run without failures from a state that a new process has built, the blob files of a hash are the location of its entry
whenever its guard is free; and once all guards are free, a new process builds the same entries. -/
theorem disk_index_bijection (cfg : Config) (root : Path) (env env' : Nat → Env) (s : AppState) (c : Upkept)
    (hlayout : cfg.storage = .new root) (hlocal : cfg.nativeS3 = false) (henv : ∀ n, (env n).fs.fault = none)
    (henv' : ∀ n, (env' n).fs.fault = none) (hs : s.disk.Scannable cfg.storage)
    (hrun : Run (upkeep cfg) (fun c l => unfailing c l = true) (Upkept.idle (rebuild cfg env s).2) c) :
    (∀ sha256, c.world.owner sha256 = none →
      (∀ m, c.world.store.index.get sha256 = some m → ∃ p parsed, m.location = .localFile p ∧ c.world.store.disk.hasFile p = true ∧
        BlobPath cfg.storage m.origin p parsed ∧ parsed.hash = sha256) ∧
      (∀ origin p parsed, BlobPath cfg.storage origin p parsed → parsed.hash = sha256 → c.world.store.disk.hasFile p = true →
        ∃ m, c.world.store.index.get sha256 = some m ∧ m.location = .localFile p)) ∧
    ((∀ sha256, c.world.owner sha256 = none) → (rebuild cfg env' c.world.store).1 = .ok () ∧
      ∀ sha256, ((rebuild cfg env' c.world.store).2.index.get sha256).map lasting =
        (c.world.store.index.get sha256).map lasting) := by
  obtain ⟨_, hdisk, hqueue, htemps, hall⟩ := rebuild_spec (s := s) hlayout henv hs
  have hstart : Orderly cfg s.disk.nodes (Upkept.idle (rebuild cfg env s).2).world := by
    refine ⟨fun sha256 _ => hall sha256, congrArg Disk.nodes hdisk, hdisk ▸ hs.tree, hdisk ▸ hs.roots, hqueue, ?_, ?_⟩
    · show ((rebuild cfg env s).2.temps.map Prod.snd).Nodup
      rw [htemps]
      exact List.nodup_nil
    · show ∀ x ∈ (rebuild cfg env s).2.temps, _
      rw [htemps]
      nofun
  have hok : ∀ (c : Upkept) l, unfailing c l = true → (discipline cfg s.disk.nodes).ok c l := by
    intro c l hl
    cases l with
    | spawned t op => cases op <;> first | exact hl | exact trivial
    | called t op r x => exact hl
    | dropped t op => nomatch hl
    | crashed => nomatch hl
    | _ => exact trivial
  have hsound := Sound.run (fits hlayout hlocal s.disk.nodes) (sound_empty hstart) (hrun.mono hok)
  have hi := hsound.1
  refine ⟨fun sha256 hfree => ?_, fun hfree => ?_⟩
  · have hm := hi.matches_of_free sha256 hfree
    refine ⟨fun m he => ?_, fun origin p parsed hp hsha hf => (hasFile_iff hm ⟨origin, parsed, hp, hsha⟩).1 hf⟩
    have hstep := hm
    unfold Matches at hstep
    rw [he] at hstep
    obtain ⟨p, ino, hspell, _⟩ := hstep
    obtain ⟨dirs, name, parsed, hd, hparse, hsha, _⟩ := hspell.named
    exact ⟨p, parsed, hspell.location, (hasFile_iff hm hspell.belongs).2 ⟨m, he, hspell.location⟩, ⟨dirs, name, hd, hparse⟩, hsha⟩
  · have hm : ∀ sha256, Matches cfg c.world.store sha256 := fun sha256 => hi.matches_of_free sha256 (hfree sha256)
    have hscan := scannable_of_matches hi.tree hi.roots hm
    obtain ⟨hok, hdisk', _, _, hall'⟩ := rebuild_spec (s := c.world.store) hlayout henv' hscan
    refine ⟨hok, fun sha256 => ?_⟩
    have hnew := hall' sha256
    unfold Matches at hnew
    rw [hdisk'] at hnew
    exact lasting_unique hlayout hnew (hm sha256)

namespace Sample

/-- The server without its bucket. -/
def localConfig : Config := { config with nativeS3 := false }

/-- A received file in the temporary directory. -/
def inbox : Disk :=
  { disk with
    names := AList.insert (tempPath config "upload_0".toList) 0 ∅
    nodes := fun _ => ⟨[1], 0⟩
    nextIno := 1 }

/-- Its publication as an upload, from its first step to its last. -/
def arrival : List (Move {e : Env // e.fs.fault = none} Upkeep) :=
  .spawn (.publish "upload_0".toList ⟨hash, .upload, some "png".toList, none, 1, some 1800000000⟩) ::
    List.replicate 15 (.step 0 ⟨calm, rfl⟩)

/-- The disk with the received file can be scanned. -/
theorem inbox_scannable : inbox.Scannable localConfig.storage := by
  have hfile : ∀ p, inbox.hasFile p = true → p = tempPath config "upload_0".toList := by
    intro p hp
    obtain ⟨ino, hl⟩ := Option.isSome_iff_exists.1 hp
    rcases Maps.lookup_insert_cases hl with ⟨rfl, _⟩ | ⟨_, h⟩
    · rfl
    · nomatch h
  refine ⟨⟨by decide, by decide, fun p hne hp => ?_⟩, fun origin => by cases origin <;> decide, ?_⟩
  · have hdirs : ∀ p ∈ inbox.dirs, p.dropLast ∈ inbox.dirs := by decide
    rcases hp with hf | hd
    · rw [hfile p hf]
      decide
    · exact hdirs p hd
  · exact fun _ _ p p' _ _ _ _ hf hf' _ => (hfile p hf).trans (hfile p' hf').symm

end Sample

open Sample in
/-- After a publication the blob is at the place of its entry. -/
theorem disk_index_bijection_published :
    ∃ (c : Upkept) (m : FileMetadata) (p : Path), c.world.store.index.get hash = some m ∧ m.location = .localFile p ∧
      c.world.store.disk.hasFile p = true := by
  have hcalm : ∀ _ : Nat, calm.fs.fault = none := fun _ => rfl
  obtain ⟨c, hrun, hend⟩ := exists_run_of_replay (upkeep localConfig)
    (Upkept.idle (rebuild localConfig (fun _ => calm) { started with disk := inbox }).2) arrival (fun c l => unfailing c l)
    (fun c => c.world.owner hash = none ∧ (c.world.store.index.get hash).isSome) (by decide)
  obtain ⟨hfree, hentry⟩ := of_decide_eq_true hend
  obtain ⟨m, hm⟩ := Option.isSome_iff_exists.1 hentry
  have hall := disk_index_bijection localConfig ["srv".toList] (fun _ => calm) (fun _ => calm) { started with disk := inbox } c
    rfl rfl hcalm hcalm inbox_scannable hrun
  obtain ⟨p, _, hl, hf, _⟩ := (hall.1 hash hfree).1 m hm
  exact ⟨c, m, p, hm, hl, hf⟩

end Almond
