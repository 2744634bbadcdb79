import Almond.Lemmas.PaymentsAux
import Almond.Sample

/-! # Payments

Nobody pays twice for a request, or for bytes that were not verified, and nothing that costs money is stored or served before the wallet
settled its price. -/

namespace Almond.Payments

open Cashu Conc

/-- What the record of an operation says when it returns. -/
def Answers (cfg : Config) (op : Op) (past : List (Task.Event Req Resp)) (out : Outcome) : Prop :=
  match op, out with
  | .get headers false filename, .response (.ok resp) => cfg.featurePaidDownload = true → Delivers cfg headers filename past resp
  | _, _ => True

/-- A server that charges for uploads. -/
def paying : Config :=
  { Sample.config with nativeS3 := false, featurePaidUpload := true, cashuWallet := true, cashuAcceptedMints := [Sample.mint] }

/-- Whether the last step published the hash for a chunk. -/
def published : List (Server × Label Req Resp Str Op Report) → Bool
  | (_, .called _ op (.index (.publish sha256 _)) _) :: _ => stores op = some .upload && sha256 = Sample.hash
  | _ => false

end Almond.Payments
