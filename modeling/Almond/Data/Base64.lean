import Mathlib.Data.Nat.Notation

/-! # Base64

Three bytes are four digits. The digits are a parameter; the last ones are padded. -/

namespace Almond.Base64

variable {α : Type}

/-- The number that three bytes spell. -/
def group (a b c : UInt8) : Nat :=
  65536 * a.toNat + 256 * b.toNat + c.toNat

/-- The digits of bytes, six bits each. -/
def encode (digit : Nat → α) (pad : α) : List UInt8 → List α
  | a :: b :: c :: rest =>
    let n := group a b c
    digit (n / 262144 % 64) :: digit (n / 4096 % 64) :: digit (n / 64 % 64) :: digit (n % 64) :: encode digit pad rest
  | [a, b] =>
    let n := group a b 0
    [digit (n / 262144 % 64), digit (n / 4096 % 64), digit (n / 64 % 64), pad]
  | [a] =>
    let n := group a 0 0
    [digit (n / 262144 % 64), digit (n / 4096 % 64), pad, pad]
  | [] => []

/-- What holds of the digits and of the padding holds of every character. -/
theorem forall_mem_encode {digit : Nat → α} {pad : α} {P : α → Prop} (hdigit : ∀ n < 64, P (digit n)) (hpad : P pad) (bytes : List UInt8) :
    ∀ x ∈ encode digit pad bytes, P x := by
  have hsix : ∀ n, P (digit (n % 64)) := fun n => hdigit _ (Nat.mod_lt _ (by decide))
  fun_induction encode digit pad bytes with
  | case1 a b c rest n ih =>
    simp only [List.forall_mem_cons]
    exact ⟨hsix _, hsix _, hsix _, hsix _, ih⟩
  | case2 a b n => simp [hsix, hpad]
  | case3 a n => simp [hsix, hpad]
  | case4 => simp

end Almond.Base64
