import Almond.Lemmas.ReconstructionAux
import Almond.Lemmas.UploadsAux
import Almond.Sample

/-! # Chunked uploads from end to end -/

namespace Almond

open Conc Tiling Handlers

/-- What a chunk holds of a blob. -/
def ChunkInfo.slice (blob : Bytes) (chunk : ChunkInfo) : Bytes :=
  (blob.drop chunk.offset).take chunk.length

namespace Sample

/-- The first byte, and the second one. -/
def firstChunk : ChunkInfo := ⟨0, 1, config.storage.temp ++ ["0".toList]⟩
def secondChunk : ChunkInfo := ⟨1, 1, config.storage.temp ++ ["1".toList]⟩

/-- A disk with both chunk files. -/
def chunkFiles : AppState :=
  { started with
    disk := { disk with
      names := (AList.insert firstChunk.chunkPath 0 ∅).insert secondChunk.chunkPath 1
      nodes := fun ino => ⟨[ino.toUInt8 + 7], 0⟩
      nextIno := 2 } }

end Sample

end Almond
