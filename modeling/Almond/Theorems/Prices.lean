import Almond.Lemmas.NamesAux
import Almond.Lemmas.PreflightAux
import Almond.Lemmas.PriceAux
import Almond.Sample
import Mathlib.Algebra.Order.Floor.Div

/-! # Prices

A preflight advertises in `X-Price-Per-MB` what the whole blob costs. A client that takes it for the price of a megabyte computes what the
upload is charged only for a blob within a megabyte. -/

namespace Almond.Handlers

open Conc Cashu

/-- The bytes of a megabyte. -/
def megabyte : Nat := 1024 * 1024

/-- The price of a number of bytes is that of their megabytes, at least one and at most the largest `u64`. -/
theorem calculatePrice_eq (size price : Nat) : calculatePrice size price = min (max 1 (size ⌈/⌉ megabyte * price)) u64Max := by
  have hmegabytes : (size + (1024 * 1024 - 1)) / (1024 * 1024) = size ⌈/⌉ megabyte := by
    rw [Nat.ceilDiv_eq_add_pred_div, megabyte, Nat.add_sub_assoc (by decide)]
  have hmax : 1 ≤ u64Max := by decide
  rw [calculatePrice, hmegabytes, saturatingMul]
  omega

/-- More bytes at a higher price do not cost less. -/
theorem calculatePrice_mono {size size' price price' : Nat} (hsize : size ≤ size') (hprice : price ≤ price') :
    calculatePrice size price ≤ calculatePrice size' price' := by
  have hmegabytes : size ⌈/⌉ megabyte ≤ size' ⌈/⌉ megabyte := by
    rw [Nat.ceilDiv_eq_add_pred_div, Nat.ceilDiv_eq_add_pred_div]
    exact Nat.div_le_div_right (by omega)
  rw [calculatePrice_eq, calculatePrice_eq]
  exact min_le_min (max_le_max (Nat.le_refl 1) (Nat.mul_le_mul hmegabytes hprice)) (Nat.le_refl u64Max)

/-- There is at most one megabyte in a megabyte. -/
theorem ceilDiv_megabyte_le_one_iff {size : Nat} : size ⌈/⌉ megabyte ≤ 1 ↔ size ≤ megabyte := by
  rw [ceilDiv_le_iff_le_mul (by decide), Nat.mul_one]

/-- Every price is a positive `u64`. -/
theorem calculatePrice_bounds (size price : Nat) : 1 ≤ calculatePrice size price ∧ calculatePrice size price ≤ u64Max := by
  have hmax : 1 ≤ u64Max := by decide
  rw [calculatePrice_eq]
  omega

/-- The price of a blob is the price of its megabytes at this price exactly within a megabyte. -/
theorem calculatePrice_eq_iff (size price : Nat) :
    calculatePrice size price = max 1 (size ⌈/⌉ megabyte * calculatePrice size price) ↔ size ≤ megabyte := by
  have hpos := (calculatePrice_bounds size price).1
  rw [← ceilDiv_megabyte_le_one_iff]
  constructor
  · intro heq
    by_contra hmany
    have hmul : 2 * calculatePrice size price ≤ size ⌈/⌉ megabyte * calculatePrice size price := Nat.mul_le_mul_right _ (by omega)
    omega
  · intro hfew
    by_cases hnone : size ⌈/⌉ megabyte = 0
    · have hmax : 1 ≤ u64Max := by decide
      rw [calculatePrice_eq, hnone, Nat.zero_mul, Nat.zero_mul]
      omega
    · have hone : size ⌈/⌉ megabyte = 1 := by omega
      rw [hone]
      omega

/-- The same where the client caps its result. -/
theorem calculatePrice_eq_capped_iff (size price : Nat) :
    calculatePrice size price = min (max 1 (size ⌈/⌉ megabyte * calculatePrice size price)) u64Max ↔
      size ≤ megabyte ∨ calculatePrice size price = u64Max := by
  obtain ⟨hpos, hmax⟩ := calculatePrice_bounds size price
  constructor
  · intro heq
    by_cases hfull : calculatePrice size price = u64Max
    · exact .inr hfull
    · exact .inl ((calculatePrice_eq_iff size price).1 (by omega))
  · intro h
    rcases h with hsize | hfull
    · rw [← (calculatePrice_eq_iff size price).2 hsize]
      omega
    · have hsome : ¬ size ⌈/⌉ megabyte = 0 := by
        intro hnone
        have hlarge : 1 < u64Max := by decide
        rw [calculatePrice_eq, hnone, Nat.zero_mul] at hfull
        omega
      have hmul : u64Max ≤ size ⌈/⌉ megabyte * u64Max := Nat.le_mul_of_pos_left _ (Nat.pos_of_ne_zero hsome)
      rw [hfull]
      omega

/-! ## What is advertised and what is charged -/

/-- A preflight for a number of bytes can advertise a price per megabyte. -/
def Advertises (cfg : Config) (size price : Nat) : Prop :=
  ∃ headers events reply, preflightSize headers = .ok size ∧ (headUploadPriced cfg headers).run.Returns events (.ok reply) ∧
    reply.2.lookup "X-Price-Per-MB" = some (decimal price)

/-- An upload of a number of bytes can be refused until an amount is paid. -/
def Charges (cfg : Config) (size amount : Nat) : Prop :=
  ∃ headers body events unit mints, (receivedBytes body).length = size ∧
    (uploadFile cfg headers body).run.Returns events (.error (.paymentRequired amount unit mints))

/-- A fallible value that was returned. -/
theorem eq_of_returns_ofResult {α : Type} {x : AppResult α} {events : List (Task.Event Req Resp)} {a : α}
    (h : (ofResult x).run.Returns events (.ok a)) : x = .ok a :=
  h.2

/-- What a preflight advertises is the price of all the bytes. -/
theorem price_of_advertises {cfg : Config} {size price : Nat} (h : Advertises cfg size price) :
    price = calculatePrice size cfg.cashuPricePerMb := by
  obtain ⟨headers, events, reply, hsize, h, hprice⟩ := h
  unfold headUploadPriced at h
  split at h
  swap
  · exact nomatch h.2
  obtain ⟨_, e₁, _, h⟩ := h.of_bind_right
  split at h
  swap
  · exact nomatch h.2
  obtain ⟨before, after, declaredSize, rfl, hdeclared, h⟩ := Task.returns_run_bind_ok_iff.1 h
  obtain rfl : declaredSize = size := Except.ok.inj ((eq_of_returns_ofResult hdeclared).symm.trans hsize)
  obtain ⟨_, e₂, _, h⟩ := Task.Returns.of_bind_right h
  obtain ⟨_, e₃, _, h⟩ := h.of_bind_right
  dsimp only at h
  split at h
  · exact nomatch h.2
  obtain ⟨_, e₄, _, h⟩ := h.of_bind_right
  split at h
  · obtain rfl := Except.ok.inj h.2
    have hdecimal : decimal (calculatePrice declaredSize cfg.cashuPricePerMb) = decimal price := Option.some.inj hprice
    have hvalue := congrArg digitsValue hdecimal
    rw [digitsValue_decimal, digitsValue_decimal] at hvalue
    exact hvalue.symm
  · obtain rfl := Except.ok.inj h.2
    exact nomatch hprice

/-- What an upload is charged is the price of its bytes, where uploads are paid. -/
theorem amount_of_charges {cfg : Config} {size amount : Nat} (h : Charges cfg size amount) :
    cfg.featurePaidUpload = true ∧ amount = calculatePrice size cfg.cashuPricePerMb := by
  obtain ⟨headers, body, events, unit, mints, rfl, h⟩ := h
  exact fails_uploadFile cfg headers body events _ h _ rfl amount unit mints rfl

/-- What an upload is charged is its megabytes at the advertised price exactly when there is at most one megabyte, unless both are
capped. The charge is its megabytes at the configured price, capped, it does not decrease in the bytes nor in the price, and no upload is
accepted for less. -/
theorem charged_iff {cfg : Config} {size price amount : Nat} (hadvertised : Advertises cfg size price) (hcharged : Charges cfg size amount) :
    (amount = max 1 (size ⌈/⌉ megabyte * price) ↔ size ≤ megabyte) ∧
      (amount = min (max 1 (size ⌈/⌉ megabyte * price)) u64Max ↔ size ≤ megabyte ∨ amount = u64Max) ∧
      amount = min (max 1 (size ⌈/⌉ megabyte * cfg.cashuPricePerMb)) u64Max ∧
      (∀ cfg' size' amount', cfg.cashuPricePerMb ≤ cfg'.cashuPricePerMb → size ≤ size' → Charges cfg' size' amount' → amount ≤ amount') ∧
      ∀ headers body events r, (receivedBytes body).length = size → (uploadFile cfg headers body).run.Returns events (.ok r) →
        Settled events amount := by
  obtain rfl := price_of_advertises hadvertised
  obtain ⟨hpaid, rfl⟩ := amount_of_charges hcharged
  refine ⟨calculatePrice_eq_iff .., calculatePrice_eq_capped_iff .., calculatePrice_eq .., ?_, ?_⟩
  · intro cfg' size' amount' hprice hsize hcharged'
    rw [(amount_of_charges hcharged').2]
    exact calculatePrice_mono hsize hprice
  · rintro headers body events r rfl h
    exact settled_of_uploadFile hpaid h

/-! ## A small server -/

end Almond.Handlers

namespace Almond.Sample

open Conc Handlers Cashu

/-- A server that demands a satoshi for a megabyte. -/
def pricing : Config :=
  { config with featurePaidUpload := true, maxBlobSizeBytes := 4194304 }

/-- What a task answers on the server. -/
theorem exists_returns {α : Type} {p : AsyncResult α} {x : AppResult α}
    (h : (p.run.alone (exec pricing 0) (fun _ => calm) 0 started).1 = x) : ∃ events, p.run.Returns events x := by
  rw [← h]
  exact Task.exists_returns_alone ..

/-- A preflight of a number of bytes. -/
def preflightOf (size : Str) : Headers :=
  [("authorization".toList, "Nostr e30=".toList), ("x-sha-256".toList, hash), ("x-content-type".toList, "image/png".toList),
    ("x-content-length".toList, size)]

/-- The server advertises what the bytes cost. -/
theorem advertises_two : Advertises pricing 2097152 2 := by
  have hreply : ((headUploadPriced pricing (preflightOf "2097152".toList)).run.alone (exec pricing 0) (fun _ => calm) 0 started).1 =
      .ok (.bare 402, priceHeaders (quote 1 [] 2097152)) := by
    rfl
  obtain ⟨events, h⟩ := exists_returns hreply
  exact ⟨preflightOf "2097152".toList, events, _, rfl, h, rfl⟩

/-- The headers of an upload of a body of unknown size, without a token. -/
def unpaidHeaders : Headers :=
  [("authorization".toList, "Nostr e30=".toList), ("x-sha-256".toList, hash)]

/-- The bytes of a body that arrives whole. -/
theorem receivedBytes_map_ok (frames : List Bytes) : receivedBytes (frames.map .ok : Body) = frames.flatten := by
  induction frames with
  | nil => rfl
  | cons data frames ih => rw [List.map_cons, receivedBytes_ok, ih, List.flatten_cons]

/-- A body that is small enough is received. -/
theorem exists_streamed (frames : List Bytes) (h : frames.flatten.length ≤ 4194304) : ∃ events,
    (Upload.streamToTempFile libs (frames.map .ok) (uploadTemp pricing started) 4194304).run.Returns events
      (.ok (hash, frames.flatten.length)) := by
  have hfits : frames.flatten.length ≤ u64Max := Nat.le_trans h (by decide)
  have hparent : started.disk.parentExists (uploadTemp pricing started) = true := by decide
  have hfree : uploadTemp pricing started ∉ started.disk.dirs := by decide
  have hstream := @Upload.streamToTempFile_decides pricing 0 calm started ⟨rfl, rfl⟩ frames (uploadTemp pricing started) 4194304 hfits hparent
  have hcalm : ∀ n : Nat, (fun _ => calm) n = calm := fun _ => rfl
  obtain ⟨r, hr⟩ := (hstream.alone_ok_iff hcalm 0).2 ⟨hfree, h⟩
  have hx := hstream.alone hcalm 0
  rw [hr] at hx
  obtain rfl : r = (hash, frames.flatten.length) := hx.2
  exact exists_returns hr

/-- An upload without a token is refused until the price of its bytes is paid. -/
theorem charges_body (frames : List Bytes) (h : frames.flatten.length ≤ 4194304) :
    Charges pricing frames.flatten.length (calculatePrice frames.flatten.length 1) := by
  have hcharge : ∃ events, (charge pricing unpaidHeaders .upload frames.flatten.length).run.Returns events
      (.error (quote 1 [] frames.flatten.length).paymentRequired) := ⟨[], rfl, rfl⟩
  have hreceive : ∃ events, (receiveUpload pricing unpaidHeaders (frames.map .ok) ⟨event, .upload, 1700003600⟩ hash
      (uploadTemp pricing started)).run.Returns events (.error (quote 1 [] frames.flatten.length).paymentRequired) := by
    refine Task.exists_returns_bind_ok (exists_streamed frames h) ?_
    refine Task.exists_returns_bind_ok (a := ()) (exists_returns rfl) (Task.exists_returns_bind_ok (a := ()) (exists_returns rfl) ?_)
    exact Task.exists_returns_bind_ok (a := ()) (exists_returns rfl) (Task.exists_returns_bind_error hcharge)
  have hupload : ∃ events, (uploadFile pricing unpaidHeaders (frames.map .ok)).run.Returns events
      (.error (quote 1 [] frames.flatten.length).paymentRequired) := by
    refine Task.exists_returns_bind_ok (a := ⟨event, .upload, 1700003600⟩) (exists_returns rfl) ?_
    refine Task.exists_returns_bind_ok (a := hash) (exists_returns rfl) (Task.exists_returns_bind_ok (a := ()) (exists_returns rfl) ?_)
    refine Task.exists_returns_bind_ok (a := none) (exists_returns rfl) (Task.exists_returns_bind_ok (a := ()) (exists_returns rfl) ?_)
    refine Task.exists_returns_bind_ok (a := ()) (exists_returns rfl) ?_
    refine Task.exists_returns_bind_ok (a := uploadTemp pricing started) (exists_returns rfl) ?_
    exact Task.exists_returns_bind_error (exists_returns_withTemp hreceive)
  obtain ⟨events, hupload⟩ := hupload
  exact ⟨unpaidHeaders, frames.map .ok, events, _, _, congrArg List.length (receivedBytes_map_ok frames), hupload⟩

/-- A body of zeros is charged for its length. -/
theorem charges_zeros {n : Nat} (h : n ≤ 4194304) : Charges pricing n (calculatePrice n 1) := by
  have hlength : [List.replicate n (0 : UInt8)].flatten.length = n := by simp
  have hcharged := charges_body [List.replicate n 0] (hlength.trans_le h)
  rw [hlength] at hcharged
  exact hcharged

/-- Two megabytes cost two satoshis. -/
theorem charges_two : Charges pricing 2097152 2 :=
  charges_zeros (by decide)

end Almond.Sample

namespace Almond.Handlers

open Conc Cashu

open Sample in
/-- Two megabytes at a satoshi. -/
theorem charged_iff_two : (2 = max 1 (2097152 ⌈/⌉ megabyte * 2) ↔ 2097152 ≤ megabyte) ∧
    (2 = min (max 1 (2097152 ⌈/⌉ megabyte * 2)) u64Max ↔ 2097152 ≤ megabyte ∨ 2 = u64Max) ∧
    2 = min (max 1 (2097152 ⌈/⌉ megabyte * 1)) u64Max :=
  have h := charged_iff advertises_two charges_two
  ⟨h.1, h.2.1, h.2.2.1⟩

open Sample in
/-- A client that takes the price of two megabytes for the price of one computes twice what it is charged. -/
theorem charged_false : ¬ ∀ cfg size price amount, Advertises cfg size price → Charges cfg size amount →
    amount = max 1 (size ⌈/⌉ megabyte * price) := by
  intro hall
  have hcomputed : max 1 (2097152 ⌈/⌉ megabyte * 2) = 4 := by decide
  exact absurd (hcomputed ▸ hall pricing 2097152 2 2 advertises_two charges_two) (by decide)

end Almond.Handlers
