import Almond.Lemmas.DoorsAux
import Almond.Lemmas.MaintenanceAux
import Almond.Moderation
import Almond.Sample
import Almond.Theorems.FilterKeys
import Almond.Theorems.Units

/-! # Spellings of a hash

The index and the bucket have keys in lower case. A `GET` and a `DELETE` take a hash in either case, and look for it as it is spelled. -/

namespace Almond

open Conc Auth Moderation

/-! ## The doors -/

/-- The requests that name a blob in their path. -/
inductive Door where
  /-- `GET` and `HEAD`. -/
  | get
  | delete
  deriving DecidableEq, Repr

/-- The key that a deletion takes from a file name. -/
def deletionKey (filename : Str) : Option Str :=
  let sha256 := filename.takeWhile (· ≠ '.')
  if byteLen sha256 ≠ 64 ∨ sha256.all isHexDigit = false then none else some sha256

/-- The key that a request takes from a file name, if it accepts it. -/
def Door.key : Door → Str → Option Str
  | .get => Serving.getSha256HashFromFilename
  | .delete => deletionKey

/-- A deletion removes the key that it takes. -/
theorem deleteBlob_eq (cfg : Config) (headers : Headers) (filename : Str) :
    deleteBlob cfg headers filename = match deletionKey filename with
      | none => throw 400
      | some sha256 => do
        let authorized ← orStatus (Authorization.authorize cfg headers .delete)
        orStatus (authorized.bind sha256)
        let _ ← orCode 503 (FileStorage.removeIndexedBlob cfg sha256 .requested none).run
        return .bare 204 := by
  unfold deleteBlob deletionKey
  dsimp only
  split <;> rfl

/-- Both doors take the same keys: the text before the first dot, if it is 64 hexadecimal digits. -/
theorem key_eq_some_iff {door : Door} {filename key : Str} :
    door.key filename = some key ↔ filename.takeWhile (· ≠ '.') = key ∧ key.length = 64 ∧ ∀ c ∈ key, isHexDigit c = true := by
  have hget : Serving.getSha256HashFromFilename filename = deletionKey filename := by
    unfold deletionKey
    show (if (byteLen (filename.takeWhile (· ≠ '.')) = 64 && (filename.takeWhile (· ≠ '.')).all isHexDigit) = true then
      some (filename.takeWhile (· ≠ '.')) else none) = _
    generalize filename.takeWhile (· ≠ '.') = hash
    by_cases hlen : byteLen hash = 64
    · cases hdigits : hash.all isHexDigit with
      | false => simp only [hlen, hdigits, Bool.and_false, Bool.false_eq_true, if_false, or_true, if_true]
      | true =>
        simp only [hlen, hdigits, decide_true, Bool.and_true, if_true, ne_eq, not_true_eq_false, Bool.true_eq_false, or_self, if_false]
    · simp [hlen]
  have hdoor : door.key filename = deletionKey filename := by
    cases door with
    | get => exact hget
    | delete => rfl
  rw [hdoor, deletionKey]
  split
  · rename_i hrefused
    refine ⟨nofun, fun h => ?_⟩
    obtain ⟨rfl, hlen, hdigits⟩ := h
    rw [BlobFilter.byteLen_of_all_isHexDigit hdigits, List.all_eq_true.2 hdigits] at hrefused
    exact absurd hlen (by simpa using hrefused)
  · rename_i haccepted
    obtain ⟨hlen, hdigits⟩ := not_or.1 haccepted
    have hdigits' : ∀ c ∈ filename.takeWhile (· ≠ '.'), isHexDigit c = true := List.all_eq_true.1 (by simpa using hdigits)
    rw [not_not, BlobFilter.byteLen_of_all_isHexDigit hdigits'] at hlen
    refine ⟨fun h => ?_, fun h => congrArg some h.1⟩
    obtain rfl := Option.some.inj h
    exact ⟨rfl, hlen, hdigits'⟩

/-! ## Lower case -/

/-- A hexadecimal digit is one of the policy exactly when it is not in upper case. -/
theorem isLowerHex_iff {c : Char} (h : isHexDigit c = true) : BlobName.isLowerHex c = true ↔ ¬ c.isUpper = true := by
  have hall : ∀ n < 103, isHexDigit (Char.ofNat n) = true →
      (BlobName.isLowerHex (Char.ofNat n) = true ↔ ¬ (Char.ofNat n).isUpper = true) := by decide
  have hlt : c.toNat < 103 := by
    simp [isHexDigit, Char.isDigit, UInt32.le_iff_toNat_le, Char.le_def] at h
    omega
  rw [← Char.ofNat_toNat c] at h ⊢
  exact hall c.toNat hlt h

/-- A key that is taken satisfies the policy exactly when no letter of it is in upper case. -/
theorem isValidHash_iff {door : Door} {filename key : Str} (h : door.key filename = some key) :
    BlobName.isValidHash key = true ↔ ∀ c ∈ key, ¬ c.isUpper = true := by
  obtain ⟨_, hlen, hdigits⟩ := key_eq_some_iff.1 h
  rw [BlobName.isValidHash, Bool.and_eq_true, beq_iff_eq, List.all_eq_true]
  constructor
  · intro hvalid c hc
    exact (isLowerHex_iff (hdigits c hc)).1 (hvalid.2 c hc)
  · intro hlower
    exact ⟨hlen, fun c hc => (isLowerHex_iff (hdigits c hc)).2 (hlower c hc)⟩

/-! ## Removals -/

section

variable {cfg : Config} {t : Tid} {E : Env → Prop} {s : AppState}

/-- A requested removal that succeeds leaves no entry. -/
theorem removeLocked_clears (sha256 : Str) : (FileStorage.removeLocked cfg sha256 .requested none).run.Yields (exec cfg t) E
    (fun x s' => ∀ b, x = .ok b → s'.index.get sha256 = none) s := by
  have hsweep : ∀ s, (FileStorage.sweepBackendCopies cfg sha256).run.Yields (exec cfg t) E (fun _ s' => s'.index = s.index) s :=
    fun s => index_yields_of_physical (FileStorage.sweepBackendCopies_physical cfg sha256)
  refine Task.Yields.lift_bind (p := index (.get sha256)) (Q := fun x s' => x = s.index.get sha256 ∧ s' = s)
    (fun _ _ => ⟨rfl, rfl⟩) ?_
  rintro x s₁ ⟨hx, rfl⟩
  cases x with
  | none =>
    simp only [FileStorage.Removal.sweepsBackend, if_true]
    refine Task.Yields.run_bind (hsweep s₁) (fun _ _ _ => nofun) fun _ s₂ hs₂ b _ => ?_
    rw [hs₂]
    exact hx.symm
  | some current =>
    simp only [FileStorage.movedOn, Bool.false_eq_true, if_false, FileStorage.Removal.sweepsBackend, if_true]
    refine Task.Yields.run_bind (FileStorage.index_yields_dispose sha256 .requested current) (fun _ _ _ => nofun)
      fun _ s₂ hs₂ => ?_
    refine Task.Yields.run_bind (hsweep s₂) (fun _ _ _ => nofun) fun _ s₃ hs₃ => ?_
    intro e _ b _
    have hentry : s₃.index.get sha256 = some current := by rw [hs₃, hs₂, hx]
    show (s₃.index.removeIfLocationMatches sha256 current.location).2.get sha256 = none
    simp [BlobIndex.removeIfLocationMatches, hentry]

/-- A deletion that succeeds leaves no entry for the key that it takes. -/
theorem deleteBlob_clears {headers : Headers} {filename key : Str} (h : deletionKey filename = some key) :
    (deleteBlob cfg headers filename).run.Yields (exec cfg t) E (fun x s' => ∀ r, x = .ok r → s'.index.get key = none) s := by
  rw [deleteBlob_eq, h]
  refine Task.Yields.run_bind (Task.yields_trivial _) (fun _ _ _ => nofun) fun authorized s₁ _ => ?_
  refine Task.Yields.run_bind (Task.yields_trivial _) (fun _ _ _ => nofun) fun _ s₂ _ => ?_
  have hremoved : (FileStorage.removeIndexedBlob cfg key .requested none).run.Yields (exec cfg t) E
      (fun x s' => ∀ b, x = .ok b → s'.index.get key = none) s₂ := (removeLocked_clears key).bind fun _ _ hx => hx
  refine Task.Yields.run_bind (Q := fun x s' => ∀ b, x = .ok b → s'.index.get key = none) ?_ (fun _ _ _ => nofun) fun b s₃ hs₃ => ?_
  · refine hremoved.bind fun x s₃ hs₃ => ?_
    cases x with
    | error e => exact nofun
    | ok b => exact fun _ _ => hs₃ b rfl
  · exact fun _ _ => hs₃ b rfl

end

/-! ## One policy -/

/-- Whatever the case of its letters, a file name that is accepted addresses the blob of the digest that it spells: its key satisfies the
policy for hashes, a lookup finds the blob if it is stored, and after a deletion that is reported as successful it is not. -/
structure OnePolicy (filename : Str) : Prop where
  valid : ∀ (door : Door) key, door.key filename = some key → BlobName.isValidHash key = true
  found : ∀ key, Door.get.key filename = some key → ∀ cfg t env n (s : AppState) metadata,
    s.index.get (key.map Char.toLower) = some metadata →
      ((Serving.resolveBlob cfg key).run.alone (exec cfg t) env n s).1 = .ok (.indexed metadata)
  removed : ∀ key, Door.delete.key filename = some key → ∀ cfg headers t env n (s : AppState) r,
    ((deleteBlob cfg headers filename).run.alone (exec cfg t) env n s).1 = .ok r →
      ((deleteBlob cfg headers filename).run.alone (exec cfg t) env n s).2.2.index.get (key.map Char.toLower) = none

/-- A file name addresses the blob of the digest that it spells exactly when no letter of the hash in it is in upper case. -/
theorem onePolicy_iff (filename : Str) :
    OnePolicy filename ↔ ∀ (door : Door) key, door.key filename = some key → ∀ c ∈ key, ¬ c.isUpper = true := by
  constructor
  · intro h door key hkey
    exact (isValidHash_iff hkey).1 (h.valid door key hkey)
  · intro h
    refine ⟨fun door key hkey => (isValidHash_iff hkey).2 (h door key hkey), ?_, ?_⟩
    · intro key hkey cfg t env n s metadata hmetadata
      rw [ServerConfig.map_toLower_of_not_isUpper (h .get key hkey)] at hmetadata
      have hlookup : (Serving.resolveBlob cfg key).run.Yields (exec cfg t) (fun _ => True) (fun x _ => x = .ok (.indexed metadata)) s := by
        refine Task.Yields.lift_bind (p := index (.get key)) (Q := fun x _ => x = some metadata) (fun _ _ => hmetadata) ?_
        rintro _ s' rfl
        rfl
      exact hlookup.alone (fun _ => trivial) n
    · intro key hkey cfg headers t env n s r hr
      rw [ServerConfig.map_toLower_of_not_isUpper (h .delete key hkey)]
      have hclears : (deleteBlob cfg headers filename).run.Yields (exec cfg t) (fun _ => True)
        (fun x s' => ∀ r, x = .ok r → s'.index.get key = none) s := deleteBlob_clears hkey
      exact hclears.alone (fun _ => trivial) n r hr

namespace Sample

/-- The hash in upper case. -/
def shouted : Str := List.replicate 64 'A'

/-- An authorization to delete the hash, as it is shouted. -/
def shoutedDeletion : Event :=
  { event with
    tags := [⟨"t".toList, some "delete".toList⟩, ⟨"x".toList, some shouted⟩, ⟨"expiration".toList, some "1700003600".toList⟩] }

/-- A server without a bucket whose one client may delete. -/
def deleting : Config :=
  { config with nativeS3 := false, allowedPubkeys := [[]], libs := { libs with parseEvent := fun _ => .ok shoutedDeletion } }

/-- The server holds the blob. -/
def keepingHash : AppState :=
  { started with index := BlobIndex.empty.insert hash (metadata hash) }

/-- The headers of a deletion. -/
def deletionHeaders : Headers :=
  [("authorization".toList, "Nostr e30=".toList)]

end Sample

open Sample in
/-- A deletion of a shouted hash is answered with 204, and the blob is still there. -/
theorem onePolicy_false : ¬ ∀ filename, OnePolicy filename := by
  intro hall
  have hdeleted : ((deleteBlob deleting deletionHeaders shouted).run.alone (exec deleting 0) (fun _ => calm) 0 keepingHash).1 =
      .ok (.bare 204) := by rfl
  have hremains : ((deleteBlob deleting deletionHeaders shouted).run.alone (exec deleting 0) (fun _ => calm) 0
      keepingHash).2.2.index.get (shouted.map Char.toLower) = some (metadata hash) := by rfl
  exact nomatch ((hall shouted).removed shouted rfl deleting deletionHeaders 0 (fun _ => calm) 0 keepingHash _ hdeleted).symm.trans hremains

end Almond
