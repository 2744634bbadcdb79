import Almond.Errors

/-! # Which errors can be answered

A header value has no control character but the tab, and the text of an error carries texts from outside into one. -/

namespace Almond.Errors

/-- A character that a header value may have. -/
def IsLegal (c : Char) : Prop :=
  c = '\t' ∨ 32 ≤ c.toNat ∧ c.toNat ≠ 127

instance (c : Char) : Decidable (IsLegal c) :=
  inferInstanceAs (Decidable (_ ∨ _))

/-- The texts of an error: its message, or the unit and the mints of a payment. -/
def texts : AppError → List String
  | .unauthorized msg | .forbidden msg | .badRequest msg | .lengthRequired msg | .payloadTooLarge msg | .notFound msg | .conflict msg
  | .insufficientStorage msg | .ioError msg | .networkError msg | .timeout msg | .badGateway msg | .serviceUnavailable msg
  | .internalError msg => [msg]
  | .paymentRequired _ unit mints => unit :: mints

/-! ## Header values -/

/-- The legal bytes. -/
theorem isHeaderByte_iff {b : UInt8} : isHeaderByte b = true ↔ b.toNat = 9 ∨ 32 ≤ b.toNat ∧ b.toNat ≠ 127 := by
  have h127 : b = 127 ↔ b.toNat = 127 := UInt8.toNat_inj.symm
  have h9 : b = 9 ↔ b.toNat = 9 := UInt8.toNat_inj.symm
  simp only [isHeaderByte, Bool.or_eq_true, Bool.and_eq_true, decide_eq_true_eq, UInt8.le_iff_toNat_le, ne_eq, h127, h9]
  exact or_comm

/-- The legal characters. -/
theorem isLegal_iff {c : Char} : IsLegal c ↔ c.toNat = 9 ∨ 32 ≤ c.toNat ∧ c.toNat ≠ 127 := by
  have htab : c = '\t' ↔ c.toNat = 9 := Char.toNat_inj.symm
  rw [IsLegal, htab]

/-- A byte with the highest bit is legal. -/
theorem isHeaderByte_or {x y : UInt8} (h : 128 ≤ y.toNat) : isHeaderByte (x ||| y) = true := by
  have hle : y.toNat ≤ (x ||| y).toNat := by
    rw [UInt8.toNat_or]
    exact Nat.right_le_or
  rw [isHeaderByte_iff]
  omega

/-- The bytes of a character are legal exactly when the character is. -/
theorem isHeaderByte_utf8EncodeChar (c : Char) : (String.utf8EncodeChar c).all isHeaderByte = true ↔ IsLegal c := by
  have hsize : c.utf8Size = 1 ↔ c.toNat ≤ 127 := by
    rw [Char.utf8Size_eq_one_iff, UInt32.le_iff_toNat_le]
    exact Iff.rfl
  by_cases hascii : c.toNat ≤ 127
  · have hbyte : c.val.toUInt8.toNat = c.toNat := by
      rw [UInt32.toNat_toUInt8]
      exact Nat.mod_eq_of_lt (by show c.toNat < 256; omega)
    rw [String.utf8EncodeChar_eq_singleton (hsize.2 hascii), isLegal_iff, List.all_cons, List.all_nil, Bool.and_true, isHeaderByte_iff, hbyte]
  · -- Every byte of a longer character has the highest bit.
    have hlegal : IsLegal c := isLegal_iff.2 (.inr (by omega))
    refine iff_of_true ?_ hlegal
    rcases Char.utf8Size_eq c with h | h | h | h
    · exact absurd (hsize.1 h) hascii
    · rw [String.utf8EncodeChar_eq_cons_cons h]
      simp [isHeaderByte_or]
    · rw [String.utf8EncodeChar_eq_cons_cons_cons h]
      simp [isHeaderByte_or]
    · rw [String.utf8EncodeChar_eq_cons_cons_cons_cons h]
      simp [isHeaderByte_or]

/-- A text is a header value exactly when its characters are legal. -/
theorem headerValue_isSome {s : Str} : (headerValue s).isSome = true ↔ ∀ c ∈ s, IsLegal c := by
  have hall : (utf8 s).all isHeaderByte = true ↔ ∀ c ∈ s, IsLegal c := by
    simp only [utf8, List.all_flatMap, List.all_eq_true (l := s), isHeaderByte_utf8EncodeChar]
  rw [headerValue, ← hall]
  split
  · rename_i h
    simp [h]
  · rename_i h
    simp [h]

/-- A header value is the bytes of its text. -/
theorem headerValue_eq {s : Str} (h : ∀ c ∈ s, IsLegal c) : headerValue s = some (utf8 s) := by
  have hsome := headerValue_isSome.2 h
  rw [headerValue] at hsome ⊢
  split at hsome
  · rename_i hall
    rw [if_pos hall]
  · nomatch hsome

/-! ## The texts of errors -/

/-- The digits of a number are legal. -/
theorem isLegal_decimal {n : Nat} : ∀ c ∈ decimal n, IsLegal c := by
  intro c hc
  have hdigit := Nat.isDigit_of_mem_toDigits (by decide) (by decide) hc
  have hrange : 48 ≤ c.toNat ∧ c.toNat ≤ 57 := Char.isDigit_iff_toNat.1 hdigit
  exact isLegal_iff.2 (.inr (by omega))

/-- The digits of a payment request are legal. -/
theorem isLegal_urlSafeDigits (n : Nat) : IsLegal (urlSafeDigits.getD n 'A') := by
  have hall : (urlSafeDigits.all fun c => decide (IsLegal c)) = true := by decide
  rw [List.getD_eq_getElem?_getD]
  cases hn : urlSafeDigits[n]? with
  | none => exact (by decide : IsLegal 'A')
  | some c => exact of_decide_eq_true (List.all_eq_true.1 hall c (List.mem_of_getElem? hn))

/-- A payment request is a header value, whatever it is for. -/
theorem isLegal_paymentRequest (amountSats : Nat) (unit : Str) (mints : List Str) : ∀ c ∈ paymentRequest amountSats unit mints, IsLegal c := by
  intro c hc
  rcases List.mem_append.1 hc with hc | hc
  · have hall : ("cashuA".toList.all fun c => decide (IsLegal c)) = true := by decide
    exact of_decide_eq_true (List.all_eq_true.1 hall c hc)
  · exact Base64.forall_mem_encode (fun n _ => isLegal_urlSafeDigits n) (by decide) _ c hc

/-- The characters of joined texts. -/
theorem forall_mem_intercalate {P : Char → Prop} {separator : String} (h : ∀ c ∈ separator.toList, P c) (mints : List String) :
    (∀ c ∈ (String.intercalate separator mints).toList, P c) ↔ ∀ mint ∈ mints, ∀ c ∈ mint.toList, P c := by
  induction mints with
  | nil => simp
  | cons mint mints ih =>
    by_cases hnil : mints = []
    · subst hnil
      simp
    · rw [String.intercalate_cons_of_ne_nil hnil, String.toList_append, String.toList_append, List.forall_mem_append,
        List.forall_mem_append, ih, List.forall_mem_cons, and_iff_left h]

/-- A message after a legal label. -/
theorem isLegal_labelled {label : String} (h : (label.toList.all fun c => decide (IsLegal c)) = true) (msg : String) :
    (∀ c ∈ (label ++ msg).toList, IsLegal c) ↔ ∀ t ∈ [msg], ∀ c ∈ t.toList, IsLegal c := by
  rw [List.forall_mem_singleton, String.toList_append, List.forall_mem_append]
  exact and_iff_right fun c hc => of_decide_eq_true (List.all_eq_true.1 h c hc)

/-- The text of a payment is legal exactly when the unit and the mints are. -/
theorem isLegal_payment (amountSats : Nat) (unit : String) (mints : List String) :
    (∀ c ∈ (AppError.paymentRequired amountSats unit mints).toText.toList, IsLegal c) ↔ ∀ t ∈ unit :: mints, ∀ c ∈ t.toList, IsLegal c := by
  have hlabel : ∀ {label : String}, (label.toList.all fun c => decide (IsLegal c)) = true → ∀ c ∈ label.toList, IsLegal c :=
    fun h c hc => of_decide_eq_true (List.all_eq_true.1 h c hc)
  have hamount : ∀ c ∈ (toString amountSats).toList, IsLegal c := by
    rw [show (toString amountSats).toList = decimal amountSats from by simp [decimal]]
    exact isLegal_decimal
  have htext : (AppError.paymentRequired amountSats unit mints).toText =
      "Payment required: " ++ toString amountSats ++ " " ++ unit ++ " (mints: " ++ String.intercalate ", " mints ++ ")" := rfl
  rw [htext]
  simp only [String.toList_append, List.forall_mem_append]
  rw [forall_mem_intercalate (hlabel (by decide)), List.forall_mem_cons]
  have hpayment := @hlabel "Payment required: " (by decide)
  have hspace := @hlabel " " (by decide)
  have hmints := @hlabel " (mints: " (by decide)
  have hend := @hlabel ")" (by decide)
  constructor
  · rintro ⟨⟨⟨⟨-, hunit⟩, -⟩, haccepted⟩, -⟩
    exact ⟨hunit, haccepted⟩
  · rintro ⟨hunit, haccepted⟩
    exact ⟨⟨⟨⟨⟨⟨hpayment, hamount⟩, hspace⟩, hunit⟩, hmints⟩, haccepted⟩, hend⟩

/-- The text of an error is legal exactly when the texts in it are. -/
theorem isLegal_toText (error : AppError) : (∀ c ∈ error.toText.toList, IsLegal c) ↔ ∀ t ∈ texts error, ∀ c ∈ t.toList, IsLegal c := by
  cases error with
  | paymentRequired amountSats unit mints => exact isLegal_payment amountSats unit mints
  | unauthorized msg => exact isLegal_labelled (by decide) msg
  | forbidden msg => exact isLegal_labelled (by decide) msg
  | badRequest msg => exact isLegal_labelled (by decide) msg
  | lengthRequired msg => exact isLegal_labelled (by decide) msg
  | payloadTooLarge msg => exact isLegal_labelled (by decide) msg
  | notFound msg => exact isLegal_labelled (by decide) msg
  | conflict msg => exact isLegal_labelled (by decide) msg
  | insufficientStorage msg => exact isLegal_labelled (by decide) msg
  | ioError msg => exact isLegal_labelled (by decide) msg
  | networkError msg => exact isLegal_labelled (by decide) msg
  | timeout msg => exact isLegal_labelled (by decide) msg
  | badGateway msg => exact isLegal_labelled (by decide) msg
  | serviceUnavailable msg => exact isLegal_labelled (by decide) msg
  | internalError msg => exact isLegal_labelled (by decide) msg

/-! ## Responses -/

/-- A text with an illegal character is no header value. -/
theorem headerValue_eq_none {s : Str} (h : ¬ ∀ c ∈ s, IsLegal c) : headerValue s = none := by
  rw [← headerValue_isSome] at h
  simpa using h

/-- A response is built exactly from legal headers. -/
theorem build_isSome {status : Nat} {headers : List (String × Str)} {body : Str} :
    (build status headers body).isSome = true ↔ ∀ p ∈ headers, ∀ c ∈ p.2, IsLegal c := by
  have hvalues : (headers.mapM fun p => (headerValue p.2).map fun bytes => (p.1, bytes)).isSome = true ↔
      ∀ p ∈ headers, ∀ c ∈ p.2, IsLegal c := by
    induction headers with
    | nil => simp
    | cons p headers ih =>
      rw [List.mapM_cons, List.forall_mem_cons, ← ih]
      by_cases hp : ∀ c ∈ p.2, IsLegal c
      · rw [headerValue_eq hp]
        rw [and_iff_right hp]
        cases headers.mapM fun p => (headerValue p.2).map fun bytes => (p.1, bytes) <;> simp
      · rw [headerValue_eq_none hp]
        simp [hp]
  rw [← hvalues, build]
  cases headers.mapM fun p => (headerValue p.2).map fun bytes => (p.1, bytes) <;> rfl

/-- What is expected is there. -/
theorem expect_ok_iff {α : Type} {message : String} {x : Option α} : (∃ a, expect message x = .ok a) ↔ x.isSome = true := by
  cases x with
  | none => simp [expect]
  | some a => simp [expect]

/-- An error is answered exactly when the texts in it have no control character but the tab. -/
theorem intoResponse_ok_iff (error : AppError) :
    (∃ r, intoResponse error = .ok r) ↔ ∀ t ∈ texts error, ∀ c ∈ t.toList, IsLegal c := by
  rw [← isLegal_toText]
  cases error with
  | paymentRequired amountSats unit mints =>
    rw [intoResponse, expect_ok_iff, build_isSome, List.forall_mem_cons, List.forall_mem_singleton]
    have hcashu := isLegal_paymentRequest amountSats unit.toList (mints.map String.toList)
    dsimp only
    exact ⟨And.right, fun hreason => ⟨hcashu, hreason⟩⟩
  | _ => exact expect_ok_iff.trans (build_isSome.trans List.forall_mem_singleton)

/-- A message of two lines ends in a panic. -/
theorem intoResponse_false : ¬ ∀ error, ∃ r, intoResponse error = .ok r := by
  intro hall
  have hlegal := (intoResponse_ok_iff _).1 (hall (.badRequest "a\nb"))
  exact absurd (hlegal "a\nb" (by simp [texts]) '\n' (by simp)) (by decide)

end Almond.Errors
