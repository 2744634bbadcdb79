import Almond.Fetch

/-! # IPv6 addresses that carry an IPv4 address

The policy for addresses looks through an IPv6 address that maps an IPv4 address. There are three more ways to carry one: the octets follow
the first segments of the address in each of them. -/

namespace Almond.Fetch

/-- The ways in which an IPv6 address carries an IPv4 address. -/
inductive Embedding where
  /-- `::ffff:0:0/96`. -/
  | mapped
  /-- `::/96`. -/
  | compatible
  /-- `64:ff9b::/96`. -/
  | nat64
  /-- `2002::/16`. -/
  | sixToFour
  deriving DecidableEq, Repr

/-- The segments before the octets of an IPv4 address. -/
def Embedding.leading : Embedding → List UInt16
  | .mapped => [0, 0, 0, 0, 0, 0xffff]
  | .compatible => [0, 0, 0, 0, 0, 0]
  | .nat64 => [0x64, 0xff9b, 0, 0, 0, 0]
  | .sixToFour => [0x2002]

/-- The four octets of two segments. -/
def octetsOf (high low : UInt16) : Vector UInt8 4 :=
  #v[(high >>> 8).toUInt8, high.toUInt8, (low >>> 8).toUInt8, low.toUInt8]

/-- An IPv6 address carries an IPv4 address. -/
def Embedding.Carries (e : Embedding) (segments : Vector UInt16 8) (octets : Vector UInt8 4) : Prop :=
  ∃ high low rest, segments.toList = e.leading ++ high :: low :: rest ∧ octets = octetsOf high low

/-- `::`. -/
def unspecified : Vector UInt16 8 :=
  #v[0, 0, 0, 0, 0, 0, 0, 0]

/-- `::1`. -/
def loopback : Vector UInt16 8 :=
  #v[0, 0, 0, 0, 0, 0, 0, 1]

/-- An address has eight segments. -/
theorem segments_eq (segments : Vector UInt16 8) : ∃ a b c d e f g h, segments = #v[a, b, c, d, e, f, g, h] := by
  obtain ⟨⟨l⟩, hl⟩ := segments
  match l, hl with
  | [a, b, c, d, e, f, g, h], _ => exact ⟨a, b, c, d, e, f, g, h, rfl⟩

section

variable {a b c d e f g h : UInt16}

/-- What the program sees of an address that maps none: `::1`, `::` and four ranges are rejected. -/
theorem isPrivateIp_unmapped (hunmapped : toIpv4Mapped #v[a, b, c, d, e, f, g, h] = none) :
    isPrivateIp (.v6 #v[a, b, c, d, e, f, g, h]) = true ↔
      #v[a, b, c, d, e, f, g, h] = loopback ∨ #v[a, b, c, d, e, f, g, h] = unspecified ∨
        a &&& 0xff00 = 0xff00 ∨ a &&& 0xffc0 = 0xfe80 ∨ a &&& 0xfe00 = 0xfc00 ∨ (a = 0x2001 ∧ b = 0x0db8) := by
  have hloopback : #v[a, b, c, d, e, f, g, h] = loopback ↔ a = 0 ∧ b = 0 ∧ c = 0 ∧ d = 0 ∧ e = 0 ∧ f = 0 ∧ g = 0 ∧ h = 1 := by
    simp [loopback]
  have hunspecified : #v[a, b, c, d, e, f, g, h] = unspecified ↔ a = 0 ∧ b = 0 ∧ c = 0 ∧ d = 0 ∧ e = 0 ∧ f = 0 ∧ g = 0 ∧ h = 0 := by
    simp [unspecified]
  rw [hloopback, hunspecified, isPrivateIp, hunmapped]
  show ((a = 0 && b = 0 && c = 0 && d = 0 && e = 0 && f = 0 && g = 0) && h = 1 ||
      (a = 0 && b = 0 && c = 0 && d = 0 && e = 0 && f = 0 && g = 0) && h = 0 || a &&& 0xff00 = 0xff00 || a &&& 0xffc0 = 0xfe80 ||
      a &&& 0xfe00 = 0xfc00 || (a = 0x2001 && b = 0x0db8) : Bool) = true ↔ _
  simp only [Bool.or_eq_true, Bool.and_eq_true, decide_eq_true_eq, and_assoc, or_assoc]

/-- An address that maps none and starts with none of the rejected ranges. -/
theorem isPrivateIp_outside (hunmapped : toIpv4Mapped #v[a, b, c, d, e, f, g, h] = none)
    (houtside : a &&& 0xff00 ≠ 0xff00 ∧ a &&& 0xffc0 ≠ 0xfe80 ∧ a &&& 0xfe00 ≠ 0xfc00 ∧ a ≠ 0x2001) :
    isPrivateIp (.v6 #v[a, b, c, d, e, f, g, h]) = true ↔
      #v[a, b, c, d, e, f, g, h] = loopback ∨ #v[a, b, c, d, e, f, g, h] = unspecified := by
  obtain ⟨hmulticast, hlinkLocal, huniqueLocal, hdocumentation⟩ := houtside
  rw [isPrivateIp_unmapped hunmapped]
  simp only [hmulticast, hlinkLocal, huniqueLocal, hdocumentation, false_and, or_false]

end

/-- What the program sees of an address: that of a mapped address is its IPv4 address, and `::1` and `::` are the only ones of the other
embeddings that it rejects. -/
theorem isPrivateIp_of_carries {e : Embedding} {segments : Vector UInt16 8} {octets : Vector UInt8 4} (h : e.Carries segments octets) :
    isPrivateIp (.v6 segments) = true ↔
      e = .mapped ∧ isPrivateIp (.v4 octets) = true ∨ segments = loopback ∨ segments = unspecified := by
  obtain ⟨a, b, c, d, x, f, g, i, rfl⟩ := segments_eq segments
  obtain ⟨high, low, rest, hsegments, rfl⟩ := h
  cases e with
  | mapped =>
    simp [Embedding.leading] at hsegments
    obtain ⟨rfl, rfl, rfl, rfl, rfl, rfl, rfl, rfl, -⟩ := hsegments
    simp [isPrivateIp, toIpv4Mapped, octetsOf, unspecified, loopback]
  | compatible =>
    simp [Embedding.leading] at hsegments
    obtain ⟨rfl, rfl, rfl, rfl, rfl, rfl, rfl, rfl, -⟩ := hsegments
    rw [isPrivateIp_outside rfl (by decide)]
    simp
  | nat64 =>
    simp [Embedding.leading] at hsegments
    obtain ⟨rfl, rfl, rfl, rfl, rfl, rfl, rfl, rfl, -⟩ := hsegments
    rw [isPrivateIp_outside rfl (by decide)]
    simp
  | sixToFour =>
    simp [Embedding.leading] at hsegments
    obtain ⟨rfl, rfl, rfl, rfl⟩ := hsegments
    rw [isPrivateIp_outside rfl (by decide)]
    simp

/-- An address whose IPv4 address is rejected is rejected exactly when it maps it, or is `::1` or `::`. -/
theorem rejects_embedded_iff {e : Embedding} {segments : Vector UInt16 8} {octets : Vector UInt8 4} (h : e.Carries segments octets)
    (hrejected : isPrivateIp (.v4 octets) = true) :
    isPrivateIp (.v6 segments) = true ↔ e = .mapped ∨ segments = loopback ∨ segments = unspecified := by
  rw [isPrivateIp_of_carries h]
  simp only [hrejected, and_true]

/-- A mapped private address is rejected. -/
theorem rejects_embedded_iff_mapped :
    isPrivateIp (.v6 #v[0, 0, 0, 0, 0, 0xffff, 0x0a00, 1]) = true ↔
      Embedding.mapped = .mapped ∨ #v[0, 0, 0, 0, 0, 0xffff, 0x0a00, 1] = loopback ∨ #v[0, 0, 0, 0, 0, 0xffff, 0x0a00, 1] = unspecified := by
  have hcarries : Embedding.mapped.Carries #v[0, 0, 0, 0, 0, 0xffff, 0x0a00, 1] #v[10, 0, 0, 1] := ⟨0x0a00, 1, [], rfl, rfl⟩
  exact rejects_embedded_iff hcarries (by decide)

/-- `10.0.0.1` is rejected, but it is not seen in any of the other embeddings. -/
theorem exists_unseen {e : Embedding} (he : e ≠ .mapped) :
    ∃ segments octets, e.Carries segments octets ∧ isPrivateIp (.v4 octets) = true ∧ isPrivateIp (.v6 segments) = false := by
  cases e with
  | mapped => exact absurd rfl he
  | compatible => exact ⟨#v[0, 0, 0, 0, 0, 0, 0x0a00, 1], #v[10, 0, 0, 1], ⟨0x0a00, 1, [], rfl, rfl⟩, by decide, by decide⟩
  | nat64 => exact ⟨#v[0x64, 0xff9b, 0, 0, 0, 0, 0x0a00, 1], #v[10, 0, 0, 1], ⟨0x0a00, 1, [], rfl, rfl⟩, by decide, by decide⟩
  | sixToFour => exact ⟨#v[0x2002, 0x0a00, 1, 0, 0, 0, 0, 0], #v[10, 0, 0, 1], ⟨0x0a00, 1, _, rfl, rfl⟩, by decide, by decide⟩

/-- `64:ff9b::a00:1` carries `10.0.0.1` and is not rejected. -/
theorem rejects_embedded_false :
    ¬ ∀ e segments octets, Embedding.Carries e segments octets → isPrivateIp (.v4 octets) = true → isPrivateIp (.v6 segments) = true := by
  intro hall
  have hnat64 : Embedding.nat64 ≠ .mapped := by decide
  obtain ⟨segments, octets, hcarries, hrejected, haccepted⟩ := exists_unseen hnat64
  exact absurd (hall .nat64 segments octets hcarries hrejected) (by rw [haccepted]; nofun)

end Almond.Fetch
