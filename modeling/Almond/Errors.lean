import Almond.Data.Base64
import Almond.Basic

/-! # Error responses

An error is answered with its status code and its text, in the body and in a header. A text that is no legal value of a header ends in a
panic. -/

namespace Almond.Errors

/-! ## Header values -/

/-- The bytes of a text. -/
def utf8 (s : Str) : Bytes :=
  s.flatMap String.utf8EncodeChar

/-- A byte that a header value may have: no control character but the tab. -/
def isHeaderByte (b : UInt8) : Bool :=
  (32 ≤ b && b ≠ 127) || b = 9

/-- The conversion of a text into a `HeaderValue`. -/
def headerValue (s : Str) : Option Bytes :=
  if (utf8 s).all isHeaderByte then some (utf8 s) else none

/-! ## Payment requests -/

/-- A character of a JSON string. -/
def escapeChar (c : Char) : Str :=
  if c = '"' then "\\\"".toList
  else if c = '\\' then "\\\\".toList
  else if c = '\x08' then "\\b".toList
  else if c = '\x0c' then "\\f".toList
  else if c = '\n' then "\\n".toList
  else if c = '\r' then "\\r".toList
  else if c = '\t' then "\\t".toList
  else if c.toNat < 32 then "\\u00".toList ++ [Nat.digitChar (c.toNat / 16), Nat.digitChar (c.toNat % 16)]
  else [c]

/-- A JSON string. -/
def quote (s : Str) : Str :=
  '"' :: s.flatMap escapeChar ++ ['"']

/-- The payment request as JSON: the fields of a `serde_json` map are in alphabetical order. -/
def paymentJson (amountSats : Nat) (unit : Str) (mints : List Str) : Str :=
  "\x7b\"a\":".toList ++ decimal amountSats ++ ",\"m\":[".toList ++ ((mints.map quote).intersperse [',']).flatten ++ "],\"u\":".toList ++
    quote unit ++ "\x7d".toList

/-- The digits of `URL_SAFE`. -/
def urlSafeDigits : Str :=
  "ABCDEFGHIJKLMNOPQRSTUVWXYZabcdefghijklmnopqrstuvwxyz0123456789-_".toList

/-- A payment request as the value of `X-Cashu`. -/
def paymentRequest (amountSats : Nat) (unit : Str) (mints : List Str) : Str :=
  "cashuA".toList ++ Base64.encode (fun n => urlSafeDigits.getD n 'A') '=' (utf8 (paymentJson amountSats unit mints))

/-! ## Responses -/

/-- A response with its headers and its body. -/
structure ErrorResponse where
  status : Nat
  headers : List (String × Bytes)
  body : Bytes
  deriving DecidableEq

/-- `Response::builder()` with a status, headers and a body. -/
def build (status : Nat) (headers : List (String × Str)) (body : Str) : Option ErrorResponse := do
  let values ← headers.mapM fun (name, value) => (headerValue value).map fun bytes => (name, bytes)
  return ⟨status, values, utf8 body⟩

/-- `Result::expect`: the error is the message of the panic. -/
def expect {α : Type} (message : String) : Option α → Except String α
  | some a => .ok a
  | none => .error message

/-- `AppError::into_response`. -/
def intoResponse (error : AppError) : Except String ErrorResponse :=
  match error with
  | .paymentRequired amountSats unit mints =>
    let encoded := paymentRequest amountSats unit.toList (mints.map String.toList)
    expect "Failed to build payment required response"
      (build 402 [("X-Cashu", encoded), ("X-Reason", error.toText.toList)] s!"Payment required: {amountSats} {unit}".toList)
  | error =>
    expect "building an error response cannot fail" (build error.status [("X-Reason", error.toText.toList)] error.toText.toList)

end Almond.Errors
