import Almond.Effects

/-! # Payments -/

namespace Almond

/-- Whether money is demanded for an operation. -/
def PaidOperation.isPaid (cfg : Config) : PaidOperation → Bool
  | .upload => cfg.featurePaidUpload
  | .mirror => cfg.featurePaidMirror
  | .download => cfg.featurePaidDownload

namespace Cashu

/-- What this server charges. -/
structure Quote where
  amountSats : Nat
  unit : String
  mints : List Str
  deriving DecidableEq, Repr

/-- The price of a number of bytes: whole megabytes, at least one satoshi. -/
def calculatePrice (sizeBytes pricePerMb : Nat) : Nat :=
  max 1 (saturatingMul ((sizeBytes + (1024 * 1024 - 1)) / (1024 * 1024)) pricePerMb)

/-- Quote a number of bytes. -/
def quote (pricePerMb : Nat) (mints : List Str) (sizeBytes : Nat) : Quote :=
  ⟨calculatePrice sizeBytes pricePerMb, "sat", mints⟩

/-- The error that asks a client to pay. -/
def Quote.paymentRequired (q : Quote) : AppError :=
  .paymentRequired q.amountSats q.unit (q.mints.map text)

/-- The token of a request. -/
def extractCashuHeader (headers : Headers) : Option Str :=
  Http.str headers "x-cashu"

/-- Parse a token. -/
def parseToken (libs : Libs) (tokenStr : Str) : AppResult Token :=
  let tokenStr := trim tokenStr
  if !("cashuA".toList.isPrefixOf tokenStr) && !("cashuB".toList.isPrefixOf tokenStr) then
    .error (.badRequest "Invalid token format: must start with cashuA or cashuB")
  else (libs.parseToken tokenStr).mapError fun e => .badRequest s!"Invalid Cashu token: {e}"

/-- The comparison of two mint URLs. -/
def sameMint (a b : Str) : Bool :=
  (trimEndMatches '/' a).map Char.toLower = (trimEndMatches '/' b).map Char.toLower

/-- The `Debug` form of a list of texts. -/
def showMints (mints : List Str) : String :=
  "[" ++ String.intercalate ", " (mints.map fun m => "\"" ++ text m ++ "\"") ++ "]"

/-- Verify that a token is from an accepted mint and is worth enough. -/
def verifyTokenBasics (token : Token) (requiredAmount : Nat) (acceptedMints : List Str) : AppResult Unit := do
  let mintUrl ← token.mintUrl.mapError fun e => .badRequest s!"Invalid token: could not extract mint URL: {e}"
  unless acceptedMints.any (sameMint mintUrl) do
    throw (.badRequest s!"Mint {text mintUrl} is not accepted. Accepted mints: {showMints acceptedMints}")
  let tokenSats ← token.value.mapError fun e => .badRequest s!"Invalid token: could not calculate value: {e}"
  if tokenSats < requiredAmount then
    throw (.badRequest
      s!"Insufficient payment: token contains {tokenSats} sats but {requiredAmount} sats required")

/-- Swap a token at the mint. -/
def receiveToken (tokenStr : Str) : AsyncResult Nat :=
  orErr (fun _ => .badGateway "Cashu wallet settlement failed") (request (.receiveToken tokenStr))

/-- Settle a quote with a token. -/
def settle (cfg : Config) (tokenStr : Str) (quoted : Quote) : AsyncResult Unit := do
  let token ← ofResult (parseToken cfg.libs tokenStr)
  ofResult (verifyTokenBasics token quoted.amountSats cfg.cashuAcceptedMints)
  unless cfg.cashuWallet do
    throw (.serviceUnavailable "Payment service is not initialized")
  let receivedSats ← receiveToken tokenStr
  if receivedSats < quoted.amountSats then throw quoted.paymentRequired

/-- Settle the payment for one operation. -/
def charge (cfg : Config) (headers : Headers) (operation : PaidOperation) (sizeBytes : Nat) : AsyncResult Unit := do
  if !operation.isPaid cfg then return ()
  let quoted := quote cfg.cashuPricePerMb cfg.cashuAcceptedMints sizeBytes
  match extractCashuHeader headers with
  | none => throw quoted.paymentRequired
  | some tokenStr => settle cfg tokenStr quoted

end Cashu

end Almond
