import Almond.Descriptor
import Mathlib.Order.Bounds.Basic

/-! # The announced deadline is the one of the cleanup -/

namespace Almond.Startup

variable {cfg : Config} {m : FileMetadata} {age age' now : Nat} {a b a' b' : Option Nat}

/-- Whether a deadline comes no later than another one; without a deadline, it never comes. -/
def Sooner (a b : Option Nat) : Prop :=
  ∀ d, b = some d → ∃ d', a = some d' ∧ d' ≤ d

/-- A deadline comes no later than itself. -/
theorem Sooner.refl (a : Option Nat) : Sooner a a :=
  fun d hd => ⟨d, hd, le_refl d⟩

/-- The deadlines that a policy sets for an upload: the client's, and the age limit unless it is 0. -/
def Claimed (m : FileMetadata) (age d : Nat) : Prop :=
  m.expiration = some d ∨ 0 < age ∧ d = saturatingAdd m.createdAt age

/-- The earliest of two deadlines comes first. -/
theorem earliest_eq_some {d : Nat} : earliest a b = some d ↔ IsLeast {x | a = some x ∨ b = some x} d := by
  have hleast : ∀ {S : Set Nat} {x}, S = {x} → (x = d ↔ IsLeast S d) := by
    rintro S x rfl
    refine ⟨?_, fun h => (Set.mem_singleton_iff.1 h.1).symm⟩
    rintro rfl
    exact isLeast_singleton
  cases a with
  | none =>
    cases b with
    | none => exact ⟨nofun, fun h => h.1.elim nofun nofun⟩
    | some y =>
      rw [earliest, Option.some.injEq]
      exact hleast (by ext; simp [eq_comm])
  | some x =>
    cases b with
    | none =>
      rw [earliest, Option.some.injEq]
      exact hleast (by ext; simp [eq_comm])
    | some y =>
      have hset : {z | some x = some z ∨ some y = some z} = {x, y} := by ext; simp [eq_comm]
      rw [earliest, Option.some.injEq, hset]
      refine ⟨?_, fun h => (isLeast_pair).unique h⟩
      rintro rfl
      exact isLeast_pair

/-- Sooner deadlines have a sooner earliest one. -/
theorem Sooner.earliest (ha : Sooner a' a) (hb : Sooner b' b) : Sooner (earliest a' b') (earliest a b) := by
  have hle : ∀ {x y : Option Nat} {z : Nat}, x = some z ∨ y = some z → ∃ d, Startup.earliest x y = some d ∧ d ≤ z := by
    intro x y z hz
    cases x with
    | none =>
      cases y with
      | none => exact hz.elim nofun nofun
      | some y => exact ⟨y, rfl, (Option.some.inj (hz.resolve_left nofun)).le⟩
    | some x =>
      cases y with
      | none => exact ⟨x, rfl, (Option.some.inj (hz.resolve_right nofun)).le⟩
      | some y =>
        refine ⟨min x y, rfl, ?_⟩
        rcases hz with hz | hz
        · exact (min_le_left x y).trans (Option.some.inj hz).le
        · exact (min_le_right x y).trans (Option.some.inj hz).le
  intro d hd
  rcases (earliest_eq_some.1 hd).1 with h | h
  · obtain ⟨d', hd', hle'⟩ := ha d h
    obtain ⟨d'', he, hle''⟩ := hle (y := b') (.inl hd')
    exact ⟨d'', he, hle''.trans hle'⟩
  · obtain ⟨d', hd', hle'⟩ := hb d h
    obtain ⟨d'', he, hle''⟩ := hle (x := a') (.inr hd')
    exact ⟨d'', he, hle''.trans hle'⟩

/-- The deadline of an upload, whatever the limit of cache copies is. -/
theorem cleanupDeadline_upload (ho : m.origin = .upload) (age ttl : Nat) : cleanupDeadline m age ttl =
    earliest m.expiration (if age > 0 then some (saturatingAdd m.createdAt age) else none) := by
  simp only [cleanupDeadline, ho]

/-- What is announced for an upload. -/
theorem sunsetExpiration_upload (ho : m.origin = .upload) (age : Nat) : sunsetExpiration m age =
    earliest m.expiration (if age > 0 then some (saturatingAdd m.createdAt age) else none) := by
  simp only [sunsetExpiration, ho, cleanupDeadline_upload ho]

/-- A lower age limit, or one where there was none, comes sooner. -/
theorem sooner_ageDeadline (created : Nat) (hpos : 0 < age') (hle : age = 0 ∨ age' ≤ age) :
    Sooner (if age' > 0 then some (saturatingAdd created age') else none)
      (if age > 0 then some (saturatingAdd created age) else none) := by
  intro d hd
  split at hd
  · rename_i hage
    cases hd
    have hle' : age' ≤ age := hle.resolve_left (by omega)
    refine ⟨_, if_pos hpos, ?_⟩
    unfold saturatingAdd
    omega
  · nomatch hd

/-- An upload is expired exactly when the announced deadline has passed, and the descriptor announces it; it is the least of the
client's deadline and the age limit, each of which can only bring it forward; no sum wraps; and a cache copy announces nothing. -/
theorem sunset_is_cleanup_deadline (cfg : Config) (sha256 : Str) (m : FileMetadata) (now : Nat) :
    (m.origin = .upload → (expired cfg m now = true ↔ ∃ d, sunsetExpiration m cfg.maxFileAgeSecs = some d ∧ d ≤ now)) ∧
    (createBlobDescriptor cfg sha256 m).expiration = sunsetExpiration m cfg.maxFileAgeSecs ∧
    (m.origin = .upload → ∀ age d, sunsetExpiration m age = some d ↔ IsLeast {x | Claimed m age x} d) ∧
    (∀ age e e', Sooner e' e → Sooner (sunsetExpiration { m with expiration := e' } age) (sunsetExpiration { m with expiration := e } age)) ∧
    (∀ age age', 0 < age' → age = 0 ∨ age' ≤ age → Sooner (sunsetExpiration m age') (sunsetExpiration m age)) ∧
    (∀ age, m.createdAt ≤ u64Max → m.createdAt ≤ saturatingAdd m.createdAt age ∧ saturatingAdd m.createdAt age ≤ u64Max ∧
      (m.createdAt + age ≤ u64Max → saturatingAdd m.createdAt age = m.createdAt + age)) ∧
    (m.origin = .upstreamCache → ∀ age, sunsetExpiration m age = none) := by
  refine ⟨fun ho => ?_, rfl, fun ho age d => ?_, fun age e e' h => ?_, fun age age' hpos hle => ?_, fun age hm => ⟨?_, ?_, ?_⟩,
    fun ho age => ?_⟩
  · rw [expired, cleanupDeadline_upload ho, sunsetExpiration_upload ho, Option.any_eq_true]
    simp only [decide_eq_true_eq]
  · rw [sunsetExpiration_upload ho, earliest_eq_some]
    have hset : {x | m.expiration = some x ∨ (if age > 0 then some (saturatingAdd m.createdAt age) else none) = some x} =
        {x | Claimed m age x} := by
      ext x
      refine or_congr_right ?_
      by_cases hage : 0 < age
      · simp only [gt_iff_lt, hage, if_true, Option.some.injEq, true_and]
        exact eq_comm
      · simp only [gt_iff_lt, hage, if_false, false_and, reduceCtorEq]
    rw [hset]
  · cases m.origin with
    | upload => exact h.earliest (.refl _)
    | upstreamCache => exact .refl _
  · cases ho : m.origin with
    | upload =>
      rw [sunsetExpiration_upload ho, sunsetExpiration_upload ho]
      exact (Sooner.refl _).earliest (sooner_ageDeadline _ hpos hle)
    | upstreamCache =>
      simp only [sunsetExpiration, ho]
      exact .refl _
  · exact le_min (Nat.le_add_right ..) hm
  · exact min_le_right ..
  · exact saturatingAdd_eq
  · simp only [sunsetExpiration, ho]

end Almond.Startup
