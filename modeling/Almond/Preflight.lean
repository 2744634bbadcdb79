import Almond.Handlers

/-! # `HEAD /upload`

A client may ask whether an upload would be accepted before it sends the bytes. -/

namespace Almond.Handlers

open Authorization Cashu FileStorage

/-- The size that a preflight declares. -/
def preflightSize (headers : Headers) : AppResult Nat := do
  let some value := Http.str headers "x-content-length"
    | throw (.lengthRequired "Missing X-Content-Length header")
  match parseU64 value with
  | some size => return size
  | none => throw (.badRequest "Invalid X-Content-Length header")

/-- The headers that advertise a price. -/
def priceHeaders (quoted : Quote) : List (String × Str) :=
  [("X-Price-Per-MB", decimal quoted.amountSats), ("X-Price-Unit", quoted.unit.toList),
    ("X-Accepted-Mints", [','].intercalate quoted.mints)]

/-- Evaluate the admission policy of an upload without accepting bytes; the reply has the headers that advertise a price, if it has one. A
token on the request is ignored. -/
def headUploadPriced (cfg : Config) (headers : Headers) : AsyncResult (Response × List (String × Str)) := do
  let some sha256 := Http.str headers "x-sha-256"
    | throw (.badRequest "Missing X-SHA-256 header")
  ofResult (validateSha256Format sha256)
  let some _ := (Http.str headers "x-content-type").filter fun value => trim value ≠ []
    | throw (.badRequest "Missing X-Content-Type header")
  let declaredSize ← ofResult (preflightSize headers)
  let authorized ← authorize cfg headers .upload
  authorized.bind sha256
  let maxSize := Upload.clientUploadLimit cfg
  if declaredSize > maxSize then
    throw (.payloadTooLarge s!"Blob size {declaredSize} exceeds the {maxSize}-byte limit")
  ensureStorageCapacity cfg declaredSize
  -- The response that asks for payment is no error here: it carries the price in its headers.
  if cfg.featurePaidUpload then
    let quoted := quote cfg.cashuPricePerMb cfg.cashuAcceptedMints declaredSize
    return (.bare quoted.paymentRequired.status, priceHeaders quoted)
  return (.bare 200, [])

/-- A preflight, without the headers of its reply that advertise the price. -/
def headUpload (cfg : Config) (headers : Headers) : AsyncResult Response :=
  Prod.fst <$> headUploadPriced cfg headers

end Almond.Handlers
