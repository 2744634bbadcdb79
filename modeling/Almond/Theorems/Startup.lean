import Almond.Lemmas.IndexAux
import Almond.Lemmas.NamesAux
import Almond.Lemmas.ScanAux
import Almond.Sample
import Almond.Store

/-! # What a new process finds on its disk -/

namespace Almond

open Conc FileStorage Startup

section

variable {cfg : Config} {root : Path} {o o' : Enumeration} {env env' : Nat → Env} {s : AppState} {sha256 : Str}

/-! ## The index of a new process -/

/-- Some file below the root of an origin has a blob name with the hash. -/
def Stores (layout : StorageLayout) (d : Disk) (origin : BlobOrigin) (sha256 : Str) : Prop :=
  ∃ p parsed, BlobPath layout origin p parsed ∧ d.hasFile p = true ∧ parsed.hash = sha256

/-- A file under a blob name is what a scan records. -/
theorem BlobPath.catalogues {layout : StorageLayout} {d : Disk} {origin : BlobOrigin} {p : Path} {parsed : BlobName.ParsedName}
    (h : BlobPath layout origin p parsed) (hf : d.hasFile p = true) (libs : Libs) :
    ∃ m, Below layout origin p ∧ Catalogues libs d origin p parsed.hash m := by
  obtain ⟨dirs, name, rfl, hparse⟩ := h
  obtain ⟨ino, hl⟩ := Option.isSome_iff_exists.1 hf
  refine ⟨_, ⟨by simp, by rw [List.dropLast_concat]; exact List.prefix_append ..⟩, name, parsed, d.nodes ino,
    List.getLast?_concat, hparse, rfl, by rw [Disk.file?, hl, Option.map_some], rfl⟩

/-- What a scan records is a file under a blob name. -/
theorem Catalogues.blobPath {layout : StorageLayout} {d : Disk} (htree : d.Tree) {origin : BlobOrigin} {p : Path} {m : FileMetadata}
    (hb : Below layout origin p) (h : Catalogues cfg.libs d origin p sha256 m) :
    ∃ parsed, BlobPath layout origin p parsed ∧ d.hasFile p = true ∧ parsed.hash = sha256 := by
  have hf := (h.dropLast_mem htree).2.1
  obtain ⟨name, parsed, _, hname, hparse, hsha, _⟩ := h
  obtain ⟨_, dirs, hdirs⟩ := hb
  exact ⟨parsed, ⟨dirs, name, by rw [hdirs, List.dropLast_append_getLast? name hname], hparse⟩, hf, hsha⟩

/-- A hash is stored when a scan records a file of it. -/
theorem stores_iff (cfg : Config) {layout : StorageLayout} {d : Disk} (htree : d.Tree) {origin : BlobOrigin} :
    Stores layout d origin sha256 ↔ HasBlob cfg.libs layout d origin sha256 := by
  constructor
  · rintro ⟨p, parsed, hp, hf, rfl⟩
    obtain ⟨m, hb, hc⟩ := hp.catalogues hf cfg.libs
    exact ⟨p, m, hb, hc⟩
  · rintro ⟨p, m, hb, hc⟩
    obtain ⟨parsed, hp, hf, hsha⟩ := hc.blobPath htree hb
    exact ⟨p, parsed, hp, hf, hsha⟩

/-- The index of a new process that has built it. -/
theorem index_of_build (htree : s.disk.Tree) (hroots : ∀ origin, originRoot cfg.storage origin ∈ s.disk.dirs)
    (hok : (o.run cfg env (buildFileIndex cfg.libs cfg.storage) s).1 = .ok ()) :
    ∃ cached uploads, Inventory cfg.libs cfg.storage s.disk .upstreamCache cached ∧
      Inventory cfg.libs cfg.storage s.disk .upload uploads ∧
      (o.run cfg env (buildFileIndex cfg.libs cfg.storage) s).2.index = s.index.replace (startupScan cached uploads).map := by
  have h := (buildFileIndex_builds cfg 0 cfg.libs o (fun e => ∃ n, e = env n) htree hroots).alone (fun n => ⟨n, rfl⟩) 0
  rcases h with ⟨⟨e, he⟩, _⟩ | ⟨_, cached, uploads, hc, hu, hi, _⟩
  · exact nomatch hok.symm.trans he
  · exact ⟨cached, uploads, hc, hu, hi⟩

/-- A new process builds its index when nothing fails. -/
theorem build_ok (htree : s.disk.Tree) (hroots : ∀ origin, originRoot cfg.storage origin ∈ s.disk.dirs)
    (henv : ∀ n, (env n).fs.fault = none) : (o.run cfg env (buildFileIndex cfg.libs cfg.storage) s).1 = .ok () := by
  have h := (buildFileIndex_builds cfg 0 cfg.libs o Calm htree hroots).alone henv 0
  rcases h with ⟨_, hf⟩ | ⟨hok, _⟩
  · exact absurd hf not_faulty_calm
  · exact hok

section

variable (htree : s.disk.Tree) (hroots : ∀ origin, originRoot cfg.storage origin ∈ s.disk.dirs)
  (hok : (o.run cfg env (buildFileIndex cfg.libs cfg.storage) s).1 = .ok ())

include htree hroots hok

/-- A new process has an entry for the hashes of the blob files it found. -/
theorem get_isSome_of_build (sha256 : Str) :
    ((o.run cfg env (buildFileIndex cfg.libs cfg.storage) s).2.index.get sha256).isSome = true ↔
      ∃ origin, Stores cfg.storage s.disk origin sha256 := by
  obtain ⟨cached, uploads, hc, hu, hi⟩ := index_of_build htree hroots hok
  rw [hi, BlobIndex.get_replace]
  constructor
  · intro h
    obtain ⟨m, hm⟩ := Option.isSome_iff_exists.1 h
    obtain ⟨origin, p, hb, hcat⟩ := exists_of_lookup_startupScan htree hc hu hm
    exact ⟨origin, (stores_iff cfg htree).2 ⟨p, m, hb, hcat⟩⟩
  · rintro ⟨origin, h⟩
    obtain ⟨m, hm⟩ := lookup_startupScan_isSome htree hc hu ((stores_iff cfg htree).1 h)
    rw [hm]
    rfl

/-- An entry of a new process is an upload when there is one. -/
theorem origin_of_build {sha256 : Str} {m : FileMetadata}
    (hm : (o.run cfg env (buildFileIndex cfg.libs cfg.storage) s).2.index.get sha256 = some m) :
    (m.origin = .upload ∧ ∃ p, m.location = .localFile p ∧ originRoot cfg.storage .upload <+: p) ↔
      Stores cfg.storage s.disk .upload sha256 := by
  obtain ⟨cached, uploads, hc, hu, hi⟩ := index_of_build htree hroots hok
  rw [hi, BlobIndex.get_replace] at hm
  rw [stores_iff cfg htree]
  rcases lookup_startupScan htree cached hu sha256 with ⟨p, m', hb, hcat, hl⟩ | ⟨hno, hl⟩
  · obtain rfl := Option.some.inj (hl.symm.trans hm)
    exact iff_of_true ⟨hcat.origin_eq, p, hcat.location_eq, hb.2.trans (List.dropLast_prefix p)⟩ ⟨p, m', hb, hcat⟩
  · refine iff_of_false ?_ hno
    rintro ⟨ho, _⟩
    rcases lookup_cached htree hc sha256 with ⟨_, m', _, hcat, hl'⟩ | ⟨_, hl'⟩
    · obtain rfl := Option.some.inj ((hl'.symm.trans hl.symm).trans hm)
      exact nomatch ho.symm.trans hcat.origin_eq
    · exact nomatch (hl.trans hl').symm.trans hm

/-- An entry of a new process leads to a file and has its length. -/
theorem size_of_build {sha256 : Str} {m : FileMetadata}
    (hm : (o.run cfg env (buildFileIndex cfg.libs cfg.storage) s).2.index.get sha256 = some m) :
    ∃ p node, m.location = .localFile p ∧ s.disk.file? p = some node ∧ m.size = node.data.length := by
  obtain ⟨cached, uploads, hc, hu, hi⟩ := index_of_build htree hroots hok
  rw [hi, BlobIndex.get_replace] at hm
  obtain ⟨origin, p, _, _, _, node, _, _, _, hnode, rfl⟩ := exists_of_lookup_startupScan htree hc hu hm
  exact ⟨p, node, rfl, hnode, rfl⟩

/-- The total of a new process is the sum of its sizes, as a `u64` has it. -/
theorem totalBytes_of_build : (o.run cfg env (buildFileIndex cfg.libs cfg.storage) s).2.index.totalBytes =
    BlobIndex.sumSizes (o.run cfg env (buildFileIndex cfg.libs cfg.storage) s).2.index.map % 2 ^ 64 := by
  obtain ⟨_, _, _, _, hi⟩ := index_of_build htree hroots hok
  rw [hi]
  exact BlobIndex.totalBytes_replace ..

end

/-- Whatever the roots hold and however they are listed, a new process indexes exactly the hashes of their blob files, an upload
before any cache copy, with the sum of the sizes as a `u64` has it. -/
theorem startup_precedence (htree : s.disk.Tree) (hroots : ∀ origin, originRoot cfg.storage origin ∈ s.disk.dirs) :
    ((∀ n, (env n).fs.fault = none) → (o.run cfg env (buildFileIndex cfg.libs cfg.storage) s).1 = .ok ()) ∧
    ((o.run cfg env (buildFileIndex cfg.libs cfg.storage) s).1 = .ok () →
      ∀ i, (o.run cfg env (buildFileIndex cfg.libs cfg.storage) s).2.index = i →
        (∀ sha256, (i.get sha256).isSome = true ↔ ∃ origin, Stores cfg.storage s.disk origin sha256) ∧
        (∀ sha256 m, i.get sha256 = some m →
          ((m.origin = .upload ∧ ∃ p, m.location = .localFile p ∧ originRoot cfg.storage .upload <+: p) ↔
            Stores cfg.storage s.disk .upload sha256) ∧
          ∃ p node, m.location = .localFile p ∧ s.disk.file? p = some node ∧ m.size = node.data.length) ∧
        i.totalBytes = BlobIndex.sumSizes i.map % 2 ^ 64) := by
  refine ⟨fun henv => build_ok htree hroots henv, ?_⟩
  rintro hok i rfl
  refine ⟨get_isSome_of_build htree hroots hok, fun sha256 m hm => ?_, totalBytes_of_build htree hroots hok⟩
  exact ⟨origin_of_build htree hroots hok hm, size_of_build htree hroots hok hm⟩

end

namespace Sample

/-- The sample disk with some files of the same contents. -/
def holding (files : List Path) (data : Bytes) : Disk :=
  { disk with names := files.foldr (fun p names => names.insert p 0) ∅, nodes := fun _ => ⟨data, 0⟩, nextIno := 1 }

/-- The files of the disk. -/
theorem hasFile_holding {files : List Path} {data : Bytes} {p : Path} : (holding files data).hasFile p = true ↔ p ∈ files := by
  show (AList.lookup p (files.foldr (fun p names => names.insert p 0) ∅)).isSome = true ↔ _
  induction files with
  | nil => simp
  | cons q files ih =>
    rw [List.foldr_cons, List.mem_cons]
    by_cases hp : p = q
    · rw [hp, AList.lookup_insert]
      exact iff_of_true rfl (.inl rfl)
    · rw [AList.lookup_insert_ne hp, ih]
      exact ⟨.inr, fun h => h.resolve_left hp⟩

/-- The contents of a file of the disk. -/
theorem file?_holding {files : List Path} {data : Bytes} {p : Path} {node : Node} (h : (holding files data).file? p = some node) :
    node.data = data := by
  obtain ⟨_, _, rfl⟩ := Option.map_eq_some_iff.1 h
  rfl

/-- Files in the directories of the disk make a tree. -/
theorem tree_holding {files : List Path} {data : Bytes} (hfiles : ∀ p ∈ files, p ∉ disk.dirs ∧ p.dropLast ∈ disk.dirs) :
    (holding files data).Tree where
  nodup := show disk.dirs.Nodup by decide
  apart p hp := Bool.eq_false_iff.2 fun hf => (hfiles p (hasFile_holding.1 hf)).1 hp
  parent p _ hp := by
    have hdirs : ∀ p ∈ disk.dirs, p.dropLast ∈ disk.dirs := by decide
    rcases hp with hf | hd
    · exact (hfiles p (hasFile_holding.1 hf)).2
    · exact hdirs p hd

/-- The blob roots are among the directories of the disk. -/
theorem roots_holding {files : List Path} {data : Bytes} (origin : BlobOrigin) :
    originRoot config.storage origin ∈ (holding files data).dirs := by
  show originRoot config.storage origin ∈ disk.dirs
  cases origin <;> decide

/-- Nothing fails. -/
theorem calm_everywhere (n : Nat) : ((fun _ => calm) n : Env).fs.fault = none :=
  rfl

/-- An upload of the sample server. -/
def uploaded (name : Str) : Path :=
  config.storage.uploads ++ [name]

/-- A sample server that starts with some uploads. -/
def startedWith (names : List Str) : AppState :=
  { started with disk := holding (names.map uploaded) [] }

/-- The state of the new process. -/
def builtWith (o : Enumeration) (names : List Str) : AppState :=
  (o.run config (fun _ => calm) (buildFileIndex config.libs config.storage) (startedWith names)).2

end Sample

open Sample in
/-- A server that starts with one upload has an entry for it, which leads below the uploads. -/
theorem startup_precedence_single :
    ∃ m, (builtWith .asListed [hash]).index.get hash = some m ∧ m.origin = .upload ∧
      ∃ p, m.location = .localFile p ∧ originRoot config.storage .upload <+: p := by
  have htree : (startedWith [hash]).disk.Tree := tree_holding (by decide)
  have hstores : Stores config.storage (startedWith [hash]).disk .upload hash :=
    ⟨uploaded hash, ⟨hash, none, none⟩, ⟨[], hash, rfl, by decide⟩, hasFile_holding.2 (List.mem_singleton.2 rfl), rfl⟩
  obtain ⟨hok, hindex⟩ := startup_precedence (o := .asListed) (s := startedWith [hash]) htree roots_holding
  obtain ⟨hkeys, hentries, _⟩ := hindex (hok calm_everywhere) _ rfl
  obtain ⟨m, hm⟩ := Option.isSome_iff_exists.1 ((hkeys hash).2 ⟨_, hstores⟩)
  exact ⟨m, hm, (hentries hash m hm).1.2 hstores⟩

/-- Entries that are large have a large sum. -/
theorem mul_le_sumSizes {map : AList fun _ : Str => FileMetadata} {keys : List Str} {n : Nat} (hkeys : keys.Nodup)
    (h : ∀ k ∈ keys, ∃ m, map.lookup k = some m ∧ n ≤ m.size) : keys.length * n ≤ BlobIndex.sumSizes map := by
  induction keys generalizing map with
  | nil => simp
  | cons k keys ih =>
    obtain ⟨m, hm, hn⟩ := h k List.mem_cons_self
    obtain ⟨hk, hkeys⟩ := List.nodup_cons.1 hkeys
    have hrest : keys.length * n ≤ BlobIndex.sumSizes (map.erase k) := ih hkeys fun k' hk' => by
      have hne : k' ≠ k := by
        rintro rfl
        exact hk hk'
      rw [AList.lookup_erase_ne hne]
      exact h k' (List.mem_cons_of_mem _ hk')
    rw [BlobIndex.sumSizes_erase hm, List.length_cons, Nat.add_mul, Nat.one_mul]
    omega

open Sample in
/-- With three files of the largest size a file can have, the total is not the sum. -/
theorem startup_precedence_false :
    ¬ ∀ (cfg : Config) (o : Enumeration) (env : Nat → Env) (s : AppState), s.disk.Tree →
      (∀ origin, originRoot cfg.storage origin ∈ s.disk.dirs) → (∀ p node, s.disk.file? p = some node → node.data.length < 2 ^ 63) →
      (o.run cfg env (buildFileIndex cfg.libs cfg.storage) s).1 = .ok () →
        (o.run cfg env (buildFileIndex cfg.libs cfg.storage) s).2.index.totalBytes =
          BlobIndex.sumSizes (o.run cfg env (buildFileIndex cfg.libs cfg.storage) s).2.index.map := by
  intro h
  let names : List Str := [List.replicate 64 'a', List.replicate 64 'b', List.replicate 64 'c']
  let data : Bytes := List.replicate (2 ^ 63 - 1) 0
  have htree : (holding (names.map uploaded) data).Tree := tree_holding (by decide)
  have hok := build_ok (o := .asListed) (s := { started with disk := holding (names.map uploaded) data }) htree roots_holding
    calm_everywhere
  have hsum := totalBytes_of_build htree roots_holding hok
  have htotal := h config .asListed (fun _ => calm) _ htree roots_holding (fun p node hnode => ?_) hok
  · -- Every one of the three hashes has an entry of the largest size.
    have hlarge : ∀ k ∈ names, ∃ m, AList.lookup k
        ((Enumeration.asListed.run config (fun _ => calm) (buildFileIndex config.libs config.storage)
          { started with disk := holding (names.map uploaded) data }).2.index.map) = some m ∧ 2 ^ 63 - 1 ≤ m.size := by
      intro k hk
      have hparse : ∀ k ∈ names, (BlobName.parse k).map BlobName.ParsedName.hash = some k := by decide
      obtain ⟨parsed, hp, hk'⟩ := Option.map_eq_some_iff.1 (hparse k hk)
      have hstores : Stores config.storage (holding (names.map uploaded) data) .upload k :=
        ⟨uploaded k, parsed, ⟨[], k, rfl, hp⟩, hasFile_holding.2 (List.mem_map.2 ⟨k, hk, rfl⟩), hk'⟩
      obtain ⟨m, hm⟩ := Option.isSome_iff_exists.1
        ((get_isSome_of_build htree roots_holding hok k).2 ⟨_, hstores⟩)
      obtain ⟨p, node, _, hnode, hsize⟩ := size_of_build htree roots_holding hok hm
      refine ⟨m, hm, ?_⟩
      rw [hsize, file?_holding hnode, List.length_replicate]
    have hle := mul_le_sumSizes (by decide) hlarge
    rw [← htotal, hsum] at hle
    have hlt := Nat.mod_lt (BlobIndex.sumSizes (Enumeration.asListed.run config (fun _ => calm)
      (buildFileIndex config.libs config.storage) { started with disk := holding (names.map uploaded) data }).2.index.map)
      (by decide : 0 < 2 ^ 64)
    have hlen : names.length = 3 := rfl
    omega
  · rw [file?_holding hnode, List.length_replicate]
    decide

/-! ## The order of enumeration -/

/-- Two indexes with the same contents, whatever the order of their hash maps. -/
structure BlobIndex.Agrees (i i' : BlobIndex) : Prop where
  entries : ∀ sha256, i.get sha256 = i'.get sha256
  totalBytes : i.totalBytes = i'.totalBytes
  order : i.order = i'.order
  generation : i.generation = i'.generation

/-- Every blob file is the location of an entry. -/
def NoOrphan (layout : StorageLayout) (s : AppState) : Prop :=
  ∀ origin p parsed, BlobPath layout origin p parsed → s.disk.hasFile p = true →
    ∃ sha256 m, s.index.get sha256 = some m ∧ m.location = .localFile p

/-- Below one root, a hash has at most one file. -/
def OnePerRoot (layout : StorageLayout) (d : Disk) : Prop :=
  ∀ origin p p' parsed parsed', BlobPath layout origin p parsed → BlobPath layout origin p' parsed' →
    d.hasFile p = true → d.hasFile p' = true → parsed.hash = parsed'.hash → p = p'

section

variable {cfg : Config} {root : Path} {o o' : Enumeration} {env env' : Nat → Env} {s : AppState}
  {cached uploads cached' uploads' : List (Str × FileMetadata)}

/-- What a new process leaves when nothing fails. -/
theorem state_of_build (htree : s.disk.Tree) (hroots : ∀ origin, originRoot cfg.storage origin ∈ s.disk.dirs)
    (henv : ∀ n, (env n).fs.fault = none) :
    ∃ cached uploads, Inventory cfg.libs cfg.storage s.disk .upstreamCache cached ∧
      Inventory cfg.libs cfg.storage s.disk .upload uploads ∧
      (o.run cfg env (buildFileIndex cfg.libs cfg.storage) s).2 = { s with
        index := s.index.replace (startupScan cached uploads).map
        disk := s.disk.without (startupScan cached uploads).displaced } := by
  have h := (buildFileIndex_builds cfg 0 cfg.libs o Calm htree hroots).alone henv 0
  rcases h with ⟨_, hf⟩ | ⟨_, cached, uploads, hc, hu, _, hs⟩
  · exact absurd hf not_faulty_calm
  · exact ⟨cached, uploads, hc, hu, hs not_faulty_calm⟩

/-- Below a root that has one file for each hash, a scan records one entry for it. -/
theorem OnePerRoot.unique (h : OnePerRoot cfg.storage s.disk) (htree : s.disk.Tree) {origin : BlobOrigin} {p p' : Path}
    {sha256 : Str} {m m' : FileMetadata} (hb : Below cfg.storage origin p) (hc : Catalogues cfg.libs s.disk origin p sha256 m)
    (hb' : Below cfg.storage origin p') (hc' : Catalogues cfg.libs s.disk origin p' sha256 m') : p = p' ∧ m = m' := by
  obtain ⟨parsed, hp, hf, hsha⟩ := hc.blobPath htree hb
  obtain ⟨parsed', hp', hf', hsha'⟩ := hc'.blobPath htree hb'
  obtain rfl := h origin p p' parsed parsed' hp hp' hf hf' (hsha.trans hsha'.symm)
  exact ⟨rfl, (hc.unique hc').2⟩

/-- What was found in the cache does not depend on the order. -/
theorem OnePerRoot.lookup_cached_eq (h : OnePerRoot cfg.storage s.disk) (htree : s.disk.Tree)
    (hc : Inventory cfg.libs cfg.storage s.disk .upstreamCache cached)
    (hc' : Inventory cfg.libs cfg.storage s.disk .upstreamCache cached') (sha256 : Str) :
    (Scan.empty.recordAll .upstreamCache cached).map.lookup sha256 =
      (Scan.empty.recordAll .upstreamCache cached').map.lookup sha256 := by
  rcases lookup_cached htree hc sha256 with ⟨p, m, hb, hcat, hl⟩ | ⟨hno, hl⟩
  · rcases lookup_cached htree hc' sha256 with ⟨p', m', hb', hcat', hl'⟩ | ⟨hno', _⟩
    · rw [hl, hl', (h.unique htree hb hcat hb' hcat').2]
    · exact absurd ⟨p, m, hb, hcat⟩ hno'
  · rcases lookup_cached htree hc' sha256 with ⟨p', m', hb', hcat', _⟩ | ⟨_, hl'⟩
    · exact absurd ⟨p', m', hb', hcat'⟩ hno
    · rw [hl, hl']

/-- What was found does not depend on the order. -/
theorem OnePerRoot.lookup_eq (h : OnePerRoot cfg.storage s.disk) (htree : s.disk.Tree)
    (hc : Inventory cfg.libs cfg.storage s.disk .upstreamCache cached) (hu : Inventory cfg.libs cfg.storage s.disk .upload uploads)
    (hc' : Inventory cfg.libs cfg.storage s.disk .upstreamCache cached')
    (hu' : Inventory cfg.libs cfg.storage s.disk .upload uploads') (sha256 : Str) :
    (startupScan cached uploads).map.lookup sha256 = (startupScan cached' uploads').map.lookup sha256 := by
  rcases lookup_startupScan htree cached hu sha256 with ⟨p, m, hb, hcat, hl⟩ | ⟨hno, hl⟩
  · rcases lookup_startupScan htree cached' hu' sha256 with ⟨p', m', hb', hcat', hl'⟩ | ⟨hno', _⟩
    · rw [hl, hl', (h.unique htree hb hcat hb' hcat').2]
    · exact absurd ⟨p, m, hb, hcat⟩ hno'
  · rcases lookup_startupScan htree cached' hu' sha256 with ⟨p', m', hb', hcat', _⟩ | ⟨_, hl'⟩
    · exact absurd ⟨p', m', hb', hcat'⟩ hno
    · rw [hl, hl', h.lookup_cached_eq htree hc hc']

/-- When below each root a hash has one file, every blob file that is left is the location of an entry. -/
theorem OnePerRoot.noOrphan (h : OnePerRoot cfg.storage s.disk) (htree : s.disk.Tree)
    (hc : Inventory cfg.libs cfg.storage s.disk .upstreamCache cached) (hu : Inventory cfg.libs cfg.storage s.disk .upload uploads) :
    NoOrphan cfg.storage { s with
      index := s.index.replace (startupScan cached uploads).map
      disk := s.disk.without (startupScan cached uploads).displaced } := by
  intro origin p parsed hp hleft
  obtain ⟨hf, hkept⟩ := Disk.hasFile_without.1 hleft
  obtain ⟨m, hb, hcat⟩ := hp.catalogues hf cfg.libs
  refine ⟨parsed.hash, m, ?_, hcat.location_eq⟩
  show (startupScan cached uploads).map.lookup parsed.hash = some m
  rcases lookup_startupScan htree cached hu parsed.hash with ⟨p', m', hb', hcat', hl⟩ | ⟨hno, hl⟩
  · cases origin with
    | upload => rw [hl, (h.unique htree hb' hcat' hb hcat).2]
    | upstreamCache =>
      -- The cache copy was displaced by the upload, and removed.
      rcases lookup_cached htree hc parsed.hash with ⟨p₁, m₁, hb₁, hcat₁, hl₁⟩ | ⟨hno, _⟩
      · obtain ⟨rfl, rfl⟩ := h.unique htree hb₁ hcat₁ hb hcat
        refine absurd hcat.location_eq (hkept m₁ ((mem_displaced_startupScan htree hu).2 ⟨hcat.origin_eq, parsed.hash, ?_, hl₁⟩))
        exact ⟨p', m', hb', hcat'⟩
      · exact absurd ⟨p, m, hb, hcat⟩ hno
  · cases origin with
    | upload => exact absurd ⟨p, m, hb, hcat⟩ hno
    | upstreamCache =>
      rcases lookup_cached htree hc parsed.hash with ⟨p₁, m₁, hb₁, hcat₁, hl₁⟩ | ⟨hno, _⟩
      · rw [hl, hl₁, (h.unique htree hb₁ hcat₁ hb hcat).2]
      · exact absurd ⟨p, m, hb, hcat⟩ hno

/-- A path is below the root of one origin. -/
theorem Below.origin_unique (hlayout : cfg.storage = .new root) {origin origin' : BlobOrigin} {p : Path}
    (h : Below cfg.storage origin p) (h' : Below cfg.storage origin' p) : origin = origin' := by
  obtain ⟨_, dirs, hdirs⟩ := h
  obtain ⟨_, dirs', hdirs'⟩ := h'
  rw [hlayout] at hdirs hdirs'
  exact originRoot_append_inj (hdirs.trans hdirs'.symm)

/-- A blob file that is left is the location of the entry of its hash. -/
theorem NoOrphan.lookup_eq (htree : s.disk.Tree) (hc : Inventory cfg.libs cfg.storage s.disk .upstreamCache cached)
    (hu : Inventory cfg.libs cfg.storage s.disk .upload uploads)
    (h : NoOrphan cfg.storage { s with
      index := s.index.replace (startupScan cached uploads).map
      disk := s.disk.without (startupScan cached uploads).displaced }) {origin : BlobOrigin} {p : Path}
    {parsed : BlobName.ParsedName} (hp : BlobPath cfg.storage origin p parsed) (hf : s.disk.hasFile p = true)
    (hkept : ∀ m ∈ (startupScan cached uploads).displaced, m.location ≠ .localFile p) :
    ∃ m, (startupScan cached uploads).map.lookup parsed.hash = some m ∧ m.location = .localFile p := by
  obtain ⟨m₀, hb, hcat⟩ := hp.catalogues hf cfg.libs
  obtain ⟨sha256, m, hm, hl⟩ := h origin p parsed hp (Disk.hasFile_without.2 ⟨hf, hkept⟩)
  obtain ⟨origin', p', hb', hcat'⟩ := exists_of_lookup_startupScan htree hc hu hm
  obtain rfl := FileLocation.localFile.inj (hl.symm.trans hcat'.location_eq)
  obtain ⟨name, parsed₁, _, hname, hparse, hsha, _⟩ := hcat
  obtain ⟨name', parsed₂, _, hname', hparse', hsha', _⟩ := hcat'
  obtain rfl := Option.some.inj (hname.symm.trans hname')
  obtain rfl := Option.some.inj (hparse.symm.trans hparse')
  exact ⟨m, (hsha'.symm.trans hsha) ▸ hm, hl⟩

/-- When no blob file is an orphan, below each root a hash has one file. -/
theorem NoOrphan.onePerRoot (hlayout : cfg.storage = .new root) (htree : s.disk.Tree)
    (hc : Inventory cfg.libs cfg.storage s.disk .upstreamCache cached) (hu : Inventory cfg.libs cfg.storage s.disk .upload uploads)
    (h : NoOrphan cfg.storage { s with
      index := s.index.replace (startupScan cached uploads).map
      disk := s.disk.without (startupScan cached uploads).displaced }) : OnePerRoot cfg.storage s.disk := by
  -- What was removed is the cache copy that the scan had recorded for its hash.
  have hremoved : ∀ {origin p parsed}, BlobPath cfg.storage origin p parsed → s.disk.hasFile p = true →
      ∀ m ∈ (startupScan cached uploads).displaced, m.location = .localFile p →
        origin = .upstreamCache ∧ HasBlob cfg.libs cfg.storage s.disk .upload parsed.hash ∧
          (Scan.empty.recordAll .upstreamCache cached).map.lookup parsed.hash = some m := by
    intro origin p parsed hp hf m hm hl
    obtain ⟨_, sha256, hup, hlookup⟩ := (mem_displaced_startupScan htree hu).1 hm
    obtain ⟨m₀, hb, name, parsed₁, _, hname, hparse, hsha, _⟩ := hp.catalogues hf cfg.libs
    rcases lookup_cached htree hc sha256 with ⟨p₁, m₁, hb₁, hcat₁, hl₁⟩ | ⟨_, hl₁⟩
    · obtain rfl := Option.some.inj (hl₁.symm.trans hlookup)
      obtain rfl := FileLocation.localFile.inj (hl.symm.trans hcat₁.location_eq)
      obtain ⟨name', parsed₂, _, hname', hparse', hsha', _⟩ := hcat₁
      obtain rfl := Option.some.inj (hname.symm.trans hname')
      obtain rfl := Option.some.inj (hparse.symm.trans hparse')
      have hkey : parsed.hash = sha256 := hsha.symm.trans hsha'
      exact ⟨hb.origin_unique hlayout hb₁, hkey ▸ hup, hkey ▸ hlookup⟩
    · exact nomatch hl₁.symm.trans hlookup
  -- Two files of a hash: when one of them is left, its entry tells that the other one is the same.
  have hone : ∀ {origin p p' parsed parsed'}, BlobPath cfg.storage origin p parsed → BlobPath cfg.storage origin p' parsed' →
      s.disk.hasFile p = true → s.disk.hasFile p' = true → parsed.hash = parsed'.hash →
      (∀ m ∈ (startupScan cached uploads).displaced, m.location ≠ .localFile p) → p = p' := by
    intro origin p p' parsed parsed' hp hp' hf hf' hsha hkept
    obtain ⟨m, hm, hl⟩ := h.lookup_eq htree hc hu hp hf hkept
    by_cases hkept' : ∀ m ∈ (startupScan cached uploads).displaced, m.location ≠ .localFile p'
    · obtain ⟨m', hm', hl'⟩ := h.lookup_eq htree hc hu hp' hf' hkept'
      obtain rfl := Option.some.inj (hm.symm.trans (hsha ▸ hm'))
      exact FileLocation.localFile.inj (hl.symm.trans hl')
    · obtain ⟨m', hm', hl'⟩ : ∃ m' ∈ (startupScan cached uploads).displaced, m'.location = .localFile p' := by
        by_contra hno
        exact hkept' fun m hm hl => hno ⟨m, hm, hl⟩
      obtain ⟨rfl, hup, _⟩ := hremoved hp' hf' m' hm' hl'
      -- The entry is the one of the upload, which is below the other root.
      rcases lookup_startupScan htree cached hu parsed.hash with ⟨p₁, m₁, hb₁, hcat₁, hl₁⟩ | ⟨hno, _⟩
      · obtain rfl := Option.some.inj (hl₁.symm.trans hm)
        obtain rfl := FileLocation.localFile.inj (hl.symm.trans hcat₁.location_eq)
        obtain ⟨_, hb, _⟩ := hp.catalogues hf cfg.libs
        exact nomatch hb.origin_unique hlayout hb₁
      · exact absurd (hsha ▸ hup) hno
  intro origin p p' parsed parsed' hp hp' hf hf' hsha
  by_cases hkept : ∀ m ∈ (startupScan cached uploads).displaced, m.location ≠ .localFile p
  · exact hone hp hp' hf hf' hsha hkept
  by_cases hkept' : ∀ m ∈ (startupScan cached uploads).displaced, m.location ≠ .localFile p'
  · exact (hone hp' hp hf' hf hsha.symm hkept').symm
  -- A scan records one cache copy for a hash, so both are that one.
  have hexists : ∀ {q}, (¬ ∀ m ∈ (startupScan cached uploads).displaced, m.location ≠ .localFile q) →
      ∃ m ∈ (startupScan cached uploads).displaced, m.location = .localFile q := by
    intro q hq
    by_contra hno
    exact hq fun m hm hl => hno ⟨m, hm, hl⟩
  obtain ⟨m, hm, hl⟩ := hexists hkept
  obtain ⟨m', hm', hl'⟩ := hexists hkept'
  obtain ⟨_, _, hlookup⟩ := hremoved hp hf m hm hl
  obtain ⟨_, _, hlookup'⟩ := hremoved hp' hf' m' hm' hl'
  obtain rfl := Option.some.inj (hlookup.symm.trans (hsha ▸ hlookup'))
  exact FileLocation.localFile.inj (hl.symm.trans hl')

/-- Every order of enumeration gives the same index and leaves no orphan exactly when below each root a hash has at most one file. -/
theorem startup_order_independent (hlayout : cfg.storage = .new root) (htree : s.disk.Tree)
    (hroots : ∀ origin, originRoot cfg.storage origin ∈ s.disk.dirs) :
    ((∀ (o o' : Enumeration) (env env' : Nat → Env), (∀ n, (env n).fs.fault = none) → (∀ n, (env' n).fs.fault = none) →
        (o.run cfg env (buildFileIndex cfg.libs cfg.storage) s).2.index.Agrees
          (o'.run cfg env' (buildFileIndex cfg.libs cfg.storage) s).2.index) ∧
      ∀ (o : Enumeration) (env : Nat → Env), (∀ n, (env n).fs.fault = none) →
        NoOrphan cfg.storage (o.run cfg env (buildFileIndex cfg.libs cfg.storage) s).2) ↔
      OnePerRoot cfg.storage s.disk := by
  constructor
  · rintro ⟨_, horphan⟩
    have h := horphan .asListed (fun _ => Sample.calm) Sample.calm_everywhere
    obtain ⟨cached, uploads, hc, hu, hs⟩ := state_of_build (o := .asListed) htree hroots Sample.calm_everywhere
    rw [hs] at h
    exact h.onePerRoot hlayout htree hc hu
  · intro hone
    refine ⟨fun o o' env env' henv henv' => ?_, fun o env henv => ?_⟩
    · obtain ⟨cached, uploads, hc, hu, hs⟩ := state_of_build (o := o) htree hroots henv
      obtain ⟨cached', uploads', hc', hu', hs'⟩ := state_of_build (o := o') htree hroots henv'
      rw [hs, hs']
      have hlookup := hone.lookup_eq htree hc hu hc' hu'
      obtain ⟨htotal, horder⟩ := BlobIndex.replace_congr s.index hlookup
      exact ⟨hlookup, htotal, horder, rfl⟩
    · obtain ⟨cached, uploads, hc, hu, hs⟩ := state_of_build (o := o) htree hroots henv
      rw [hs]
      exact hone.noOrphan htree hc hu

end

namespace Sample

/-- Two uploads of one hash, with different extensions. -/
def twins : List Str := [hash ++ ".png".toList, hash ++ ".jpg".toList]

end Sample

open Sample in
/-- With one upload every order of enumeration gives the same index. -/
theorem startup_order_independent_single : (builtWith .asListed [hash]).index.Agrees (builtWith .backwards [hash]).index := by
  have hone : OnePerRoot config.storage (startedWith [hash]).disk := by
    intro origin p p' parsed parsed' _ _ hf hf' _
    have hp := hasFile_holding.1 hf
    have hp' := hasFile_holding.1 hf'
    simp only [List.map_cons, List.map_nil, List.mem_singleton] at hp hp'
    rw [hp, hp']
  exact ((startup_order_independent (s := startedWith [hash]) rfl (tree_holding (by decide))
    roots_holding).2 hone).1 _ _ _ _ calm_everywhere calm_everywhere

open Sample in
/-- With two uploads of one hash the order of enumeration decides which one is indexed, and the other one is an orphan. -/
theorem startup_order_independent_false :
    (startedWith twins).disk.Tree ∧
      ¬ (builtWith .asListed twins).index.Agrees (builtWith .backwards twins).index ∧
      ¬ NoOrphan config.storage (builtWith .asListed twins) := by
  have hentries : (builtWith .asListed twins).index.map.entries.map (fun e => (e.1, e.2.location)) =
      [(hash, .localFile (uploaded (hash ++ ".jpg".toList)))] := by decide
  have hother : ((builtWith .backwards twins).index.get hash).map (·.location) =
      some (.localFile (uploaded (hash ++ ".png".toList))) := by decide
  have hfile : (builtWith .asListed twins).disk.hasFile (uploaded (hash ++ ".png".toList)) = true := by decide
  have hlocation : ∀ sha256 m, (builtWith .asListed twins).index.get sha256 = some m →
      m.location = .localFile (uploaded (hash ++ ".jpg".toList)) := by
    intro sha256 m hm
    have hmem : (sha256, m.location) ∈ (builtWith .asListed twins).index.map.entries.map (fun e => (e.1, e.2.location)) :=
      List.mem_map.2 ⟨_, AList.mem_lookup_iff.1 hm, rfl⟩
    rw [hentries, List.mem_singleton] at hmem
    exact (Prod.mk.inj hmem).2
  refine ⟨tree_holding (by decide), fun h => ?_, fun h => ?_⟩
  · obtain ⟨m, hm, hl⟩ := Option.map_eq_some_iff.1 hother
    have hne : uploaded (hash ++ ".jpg".toList) ≠ uploaded (hash ++ ".png".toList) := by decide
    exact hne (FileLocation.localFile.inj ((hlocation hash m ((h.entries hash).trans hm)).symm.trans hl))
  · have hparse : (BlobName.parse (hash ++ ".png".toList)).isSome = true := by decide
    obtain ⟨parsed, hp⟩ := Option.isSome_iff_exists.1 hparse
    obtain ⟨sha256, m, hm, hl⟩ := h .upload _ parsed ⟨[], _, rfl, hp⟩ hfile
    have hne : uploaded (hash ++ ".jpg".toList) ≠ uploaded (hash ++ ".png".toList) := by decide
    exact hne (FileLocation.localFile.inj ((hlocation sha256 m hm).symm.trans hl))

/-! ## The same name in both backends -/

/-- What a new process records of a file is what the bucket tells of an object of the same name exactly when the extension of the
name has no dot. -/
theorem backends_read_alike {cfg : Config} {o : Enumeration} {env : Nat → Env} {s : AppState} (htree : s.disk.Tree)
    (hroots : ∀ origin, originRoot cfg.storage origin ∈ s.disk.dirs)
    (hok : (o.run cfg env (buildFileIndex cfg.libs cfg.storage) s).1 = .ok ()) {dir : Path} {name : Str} (hslash : '/' ∉ name)
    {parsed : BlobName.ParsedName} (hparse : BlobName.parse name = some parsed) {m : FileMetadata}
    (hm : (o.run cfg env (buildFileIndex cfg.libs cfg.storage) s).2.index.get parsed.hash = some m)
    (hl : m.location = .localFile (dir ++ [name])) :
    NativeStorage.parseObjectKey (NativeStorage.keyUnder parsed.hash name) = some ⟨parsed.hash, m.expiration, m.extension⟩ ↔
      ∀ extension, parsed.extension = some extension → '.' ∉ extension := by
  obtain ⟨cached, uploads, hc, hu, hi⟩ := index_of_build htree hroots hok
  rw [hi] at hm
  obtain ⟨_, p, _, name', parsed', node, hname, hparse', _, _, rfl⟩ := exists_of_lookup_startupScan htree hc hu hm
  obtain rfl := FileLocation.localFile.inj hl
  obtain rfl := Option.some.inj (List.getLast?_concat.symm.trans hname)
  obtain rfl := Option.some.inj (hparse.symm.trans hparse')
  rw [NativeStorage.parseObjectKey_keyUnder hparse hslash, ← pathExtension_eq_iff hparse, Option.some.injEq,
    BlobName.ParsedName.mk.injEq]
  exact ⟨fun h => h.2.2.symm, fun h => ⟨rfl, rfl, h.symm⟩⟩

open Sample in
/-- A name with one extension reads alike. -/
theorem backends_read_alike_png :
    ∃ m, (builtWith .asListed [hash ++ ".png".toList]).index.get hash = some m ∧
      NativeStorage.parseObjectKey (NativeStorage.keyUnder hash (hash ++ ".png".toList)) = some ⟨hash, m.expiration, m.extension⟩ := by
  have hentry : (((builtWith .asListed [hash ++ ".png".toList]).index.get hash).map FileMetadata.location) =
      some (.localFile (uploaded (hash ++ ".png".toList))) := by decide
  obtain ⟨m, hm, hl⟩ := Option.map_eq_some_iff.1 hentry
  have hok : (Enumeration.asListed.run config (fun _ => calm) (buildFileIndex config.libs config.storage)
      (startedWith [hash ++ ".png".toList])).1 = .ok () := by decide
  have hparse : BlobName.parse (hash ++ ".png".toList) = some ⟨hash, none, some "png".toList⟩ := by decide
  refine ⟨m, hm, (backends_read_alike (tree_holding (by decide)) roots_holding hok (by decide) hparse hm hl).2 ?_⟩
  rintro extension ⟨⟩
  decide

open Sample in
/-- An archive that was uploaded as `tar.gz` has the extension `gz` after a restart, and `tar.gz` in the bucket. -/
theorem backends_read_alike_false :
    (((builtWith .asListed [hash ++ ".tar.gz".toList]).index.get hash).map fun m => (m.expiration, m.extension)) =
      some (none, some "gz".toList) ∧
    (NativeStorage.parseObjectKey (NativeStorage.keyUnder hash (hash ++ ".tar.gz".toList))).map
      (fun parsed => (parsed.expiration, parsed.extension)) = some (none, some "tar.gz".toList) := by
  decide

end Almond
