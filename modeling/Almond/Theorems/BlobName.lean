import Almond.Lemmas.NamesAux

/-! # The format of blob names -/

namespace Almond.BlobName

/-! ## Where a name is cut -/

/-- A cut at a byte separates a head of that many bytes. -/
theorem splitAtByte_eq_some {n : Nat} {s head rest : Str} (h : splitAtByte n s = some (head, rest)) :
    s = head ++ rest ∧ byteLen head = n := by
  induction s generalizing n head with
  | nil =>
    cases n with
    | zero => cases h; exact ⟨rfl, rfl⟩
    | succ n => nomatch h
  | cons c s ih =>
    cases n with
    | zero => cases h; exact ⟨rfl, rfl⟩
    | succ n =>
      unfold splitAtByte at h
      split at h
      · rename_i hle
        obtain ⟨⟨head', rest'⟩, hs, he⟩ := Option.map_eq_some_iff.1 h
        cases he
        obtain ⟨hsplit, hlen⟩ := ih hs
        refine ⟨by rw [List.cons_append, ← hsplit], ?_⟩
        have : byteLen (c :: head') = c.utf8Size + byteLen head' := rfl
        omega
      · nomatch h

/-- A text is cut where a head of that many bytes ends. -/
theorem splitAtByte_append (head rest : Str) : splitAtByte (byteLen head) (head ++ rest) = some (head, rest) := by
  induction head with
  | nil => cases rest <;> rfl
  | cons c head ih =>
    have hpos : 0 < c.utf8Size := Char.utf8Size_pos c
    have hlen : byteLen (c :: head) = c.utf8Size + byteLen head := rfl
    obtain ⟨n, hn⟩ : ∃ n, byteLen (c :: head) = n + 1 := ⟨c.utf8Size + byteLen head - 1, by omega⟩
    have hle : c.utf8Size ≤ n + 1 := by omega
    have hrest : n + 1 - c.utf8Size = byteLen head := by omega
    rw [hn, List.cons_append, splitAtByte, if_pos hle, hrest, ih, Option.map_some]

/-- A lowercase hexadecimal digit is one byte. -/
theorem utf8Size_of_isLowerHex {c : Char} (h : isLowerHex c = true) : c.utf8Size = 1 := by
  have hle : c ≤ 'f' := by
    simp only [isLowerHex, Char.isDigit, Bool.or_eq_true, Bool.and_eq_true, decide_eq_true_eq] at h
    rcases h with h | h
    · exact Char.le_trans h.2 (by decide)
    · exact h.2
  have hval : c.val ≤ 0x7f := UInt32.le_trans hle (by decide)
  simp [Char.utf8Size, hval]

/-- A text of lowercase hexadecimal digits has as many bytes as characters. -/
theorem byteLen_of_all_isLowerHex {s : Str} (h : s.all isLowerHex = true) : byteLen s = s.length := by
  induction s with
  | nil => rfl
  | cons c s ih =>
    simp only [List.all_cons, Bool.and_eq_true] at h
    have hlen : byteLen (c :: s) = c.utf8Size + byteLen s := rfl
    rw [hlen, utf8Size_of_isLowerHex h.1, ih h.2, List.length_cons, Nat.add_comm]

/-- A valid hash has as many bytes as characters. -/
theorem byteLen_of_isValidHash {hash : Str} (h : isValidHash hash = true) : byteLen hash = hashLen := by
  have hlen := length_of_isValidHash h
  simp only [isValidHash, Bool.and_eq_true] at h
  rw [byteLen_of_all_isLowerHex h.2, hlen]

/-- A name parses as it does when it is cut at a byte, whatever its characters are. -/
theorem parse_eq_splitAtByte (n : Str) : parse n = (splitAtByte hashLen n).bind fun (hash, rest) =>
    if isValidHash hash then (parseRest rest).map fun (expiration, extension) => ⟨hash, expiration, extension⟩ else none := by
  by_cases hv : isValidHash (n.take hashLen) = true
  · have hcut : splitAtByte hashLen n = some (n.take hashLen, n.drop hashLen) := by
      have := splitAtByte_append (n.take hashLen) (n.drop hashLen)
      rwa [byteLen_of_isValidHash hv, List.take_append_drop] at this
    simp only [parse, hcut, Option.bind_some]
  · have hnone : parse n = none := by simp only [parse, if_neg hv]
    rw [hnone]
    cases hs : splitAtByte hashLen n with
    | none => rfl
    | some cut =>
      obtain ⟨hash, rest⟩ := cut
      have hn := (splitAtByte_eq_some hs).1
      have hinvalid : ¬ isValidHash hash = true := by
        intro h
        refine hv ?_
        rwa [hn, List.take_left' (length_of_isValidHash h)]
      simp only [Option.bind_some, if_neg hinvalid]

/-! ## The format -/

/-- Blob names are read back as they were built; a text is a blob name exactly when it is spelled by the grammar; and a name that
is read and built again has at most lost the zeros before its expiration. -/
theorem name_parse :
    (∀ hash e x, isValidHash hash = true → (∀ n, e = some n → n ≤ u64Max) →
      ∃ s, name hash e x = .ok s ∧ parse s = some ⟨hash, e, x⟩) ∧
    (∀ s, (parse s).isSome = true ↔ ∃ hash digits x, isValidHash hash = true ∧ (∀ ds, digits = some ds → IsU64 ds) ∧
      s = spelled hash digits x) ∧
    (∀ s p, parse s = some p → ∃ zeros, name p.hash p.expiration p.extension =
        .ok (spelled p.hash (p.expiration.map decimal) p.extension) ∧
      s = spelled p.hash (p.expiration.map fun n => List.replicate zeros '0' ++ decimal n) p.extension) := by
  refine ⟨fun hash e x hv he => ⟨_, name_eq hv e x, parse_append_suffix hv he x⟩, fun s => ⟨fun h => ?_, ?_⟩, fun s p h => ?_⟩
  · obtain ⟨p, hp⟩ := Option.isSome_iff_exists.1 h
    obtain ⟨hv, digits, hd, _, hs⟩ := spelled_of_parse hp
    exact ⟨p.hash, digits, p.extension, hv, hd, hs⟩
  · rintro ⟨hash, digits, x, hv, hd, rfl⟩
    rw [parse_spelled hv hd]
    rfl
  · obtain ⟨hv, digits, hd, he, hs⟩ := spelled_of_parse h
    have hname : name p.hash p.expiration p.extension = .ok (spelled p.hash (p.expiration.map decimal) p.extension) := by
      rw [name_eq hv, append_suffix_eq_spelled]
    cases digits with
    | none =>
      rw [← he] at hname ⊢
      exact ⟨0, hname, hs⟩
    | some ds =>
      obtain ⟨hne, hall, _⟩ := hd ds rfl
      obtain ⟨zeros, hz⟩ := eq_zeros_append_decimal hne hall
      refine ⟨zeros, hname, ?_⟩
      rw [← he, Option.map_some, Option.map_some, ← hz]
      exact hs

end Almond.BlobName
