import Almond.Conc.Buffer
import Almond.Hls
import Mathlib.Data.Finset.Card

/-! # The mirror of a playlist

The references of a playlist are mirrored in rounds: each round attempts some of them at the same time, and the next one gets the
references of the playlists among them. What is stored when a playlist is read, and how the attempts of a round end and in which
order, is for the outside to say. -/

namespace Almond.Hls

/-! ## References -/

/-- `str::lines`: a line ends with a newline, which a carriage return may precede. -/
def lines (content : Str) : List Str :=
  let pieces := content.splitOn '\n'
  (if pieces.getLast? = some [] then pieces.dropLast else pieces).map fun line =>
    if line.getLast? = some '\r' then line.dropLast else line

/-- `HLS_REF_RE`: 64 hexadecimal digits, and optionally a dot with at least one word character. `isWord` is the class `\w`. -/
def captureReference (isWord : Char → Bool) (line : Str) : Option HlsReference :=
  if (line.take 64).length ≠ 64 ∨ !(line.take 64).all Auth.isHexDigit then none
  else
    let sha256 := (line.take 64).map Char.toLower
    match line.drop 64 with
    | [] => some ⟨sha256, none⟩
    | '.' :: extension => if extension ≠ [] ∧ extension.all isWord then some ⟨sha256, some extension⟩ else none
    | _ => none

/-- The references of a playlist. -/
def parsePlaylistReferences (isWord : Char → Bool) (content : Str) : List HlsReference :=
  (((lines content).map trim).filter fun line => line ≠ [] && line.head? ≠ some '#').filterMap (captureReference isWord)

/-! ## Rounds -/

/-- The largest number of rounds. -/
def maxRecursionDepth : Nat := 10

/-- The largest number of references that one round attempts. -/
def maxReferencesPerRound : Nat := 128

/-- The number of hashes from which on no reference is queued. -/
def maxReferencesTotal : Nat := 1024

/-- What the outside decides of one round. -/
structure RoundEnv where
  /-- The results of the attempts, in the order in which they finish. -/
  results : List HlsReference → List (HlsReference × Except String Bool)
  /-- The text of a stored playlist, if it can be read. -/
  text : Str → Option Str

/-- `references.retain(|reference| seen.insert(..))`: the first reference of each hash, and the hashes. -/
def retainUnseen : List HlsReference → Finset Str → List HlsReference × Finset Str
  | [], seen => ([], seen)
  | reference :: references, seen =>
    if reference.sha256 ∈ seen then retainUnseen references seen
    else
      let (retained, seen) := retainUnseen references (insert reference.sha256 seen)
      (reference :: retained, seen)

/-- Queue the references of one playlist that were not seen yet. -/
def queueChildren : List HlsReference → List HlsReference × Finset Str → List HlsReference × Finset Str
  | [], queue => queue
  | child :: children, (nextRound, seen) =>
    if seen.card ≥ maxReferencesTotal then (nextRound, seen)
    else if child.sha256 ∈ seen then queueChildren children (nextRound, seen)
    else queueChildren children (nextRound ++ [child], insert child.sha256 seen)

/-- `collect_playlist_references`. -/
def collectPlaylistReferences (isWord : Char → Bool) (text : Str → Option Str) (sha256 : Str) : List HlsReference :=
  ((text sha256).map (parsePlaylistReferences isWord)).getD []

/-- Whether a reference is one to a playlist. -/
def HlsReference.isPlaylist (reference : HlsReference) : Bool :=
  reference.extension = some "m3u8".toList

/-- Queue what the playlists refer to that a round has mirrored. -/
def queueResults (children : Str → List HlsReference) : List (HlsReference × Except String Bool) →
    List HlsReference × Finset Str → List HlsReference × Finset Str
  | [], queue => queue
  | (_, .error _) :: results, queue => queueResults children results queue
  | (reference, .ok _) :: results, queue =>
    queueResults children results (if reference.isPlaylist then queueChildren (children reference.sha256) queue else queue)

/-- The rounds from one on: the references that each attempts. -/
def mirrorRounds (isWord : Char → Bool) : (left : Nat) → (Nat → RoundEnv) → List HlsReference → Finset Str → List (List HlsReference)
  | 0, _, _, _ => []
  | left + 1, env, allReferences, seen =>
    if allReferences = [] ∨ seen.card > maxReferencesTotal then []
    else
      let attempted := allReferences.take maxReferencesPerRound
      let (nextRound, seen) := queueResults (collectPlaylistReferences isWord (env 0).text) ((env 0).results attempted) ([], seen)
      attempted :: mirrorRounds isWord left (fun n => env (n + 1)) nextRound seen

/-- `mirror_hls_references`: the references that each round attempts. -/
def mirrorHlsReferences (isWord : Char → Bool) (env : Nat → RoundEnv) (references : List HlsReference) : List (List HlsReference) :=
  let (allReferences, seen) := retainUnseen references ∅
  mirrorRounds isWord maxRecursionDepth env (allReferences.take maxReferencesPerRound) seen

end Almond.Hls
