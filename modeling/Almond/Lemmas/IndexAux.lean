import Almond.Catalogue
import Mathlib.Data.Finmap

/-! # The redundant parts of the index

The sum of the sizes and the newest-first order are kept beside the entries. Every operation keeps them in step with the entries. -/

namespace Almond

/-! ## The order of texts -/

/-- Every two texts are ordered. -/
theorem strLe_total (a b : Str) : strLe a b = true ∨ strLe b a = true := by
  induction a generalizing b with
  | nil => exact .inl rfl
  | cons x a ih =>
    cases b with
    | nil => exact .inr rfl
    | cons y b =>
      simp only [strLe]
      by_cases hxy : x = y
      · subst hxy
        simpa using ih b
      · simp only [if_neg hxy, if_neg (Ne.symm hxy), decide_eq_true_eq]
        omega

/-- Texts that are ordered both ways are the same. -/
theorem strLe_antisymm {a b : Str} (h : strLe a b = true) (h' : strLe b a = true) : a = b := by
  induction a generalizing b with
  | nil =>
    cases b with
    | nil => rfl
    | cons y b => nomatch h'
  | cons x a ih =>
    cases b with
    | nil => nomatch h
    | cons y b =>
      simp only [strLe] at h h'
      by_cases hxy : x = y
      · subst hxy
        rw [if_pos rfl] at h h'
        rw [ih h h']
      · simp only [if_neg hxy, if_neg (Ne.symm hxy), decide_eq_true_eq] at h h'
        exact absurd (Char.toNat_inj.1 (Nat.le_antisymm h h')) hxy

/-- The order of texts is transitive. -/
theorem strLe_trans {a b c : Str} (h : strLe a b = true) (h' : strLe b c = true) : strLe a c = true := by
  induction a generalizing b c with
  | nil => rfl
  | cons x a ih =>
    cases b with
    | nil => nomatch h
    | cons y b =>
      cases c with
      | nil => nomatch h'
      | cons z c =>
        simp only [strLe] at h h' ⊢
        by_cases hxy : x = y
        · subst hxy
          rw [if_pos rfl] at h
          by_cases hxz : x = z
          · subst hxz
            rw [if_pos rfl] at h' ⊢
            exact ih h h'
          · rwa [if_neg hxz] at h' ⊢
        · rw [if_neg hxy, decide_eq_true_eq] at h
          by_cases hyz : y = z
          · subst hyz
            rw [if_neg hxy, decide_eq_true_eq]
            exact h
          · rw [if_neg hyz, decide_eq_true_eq] at h'
            have hxz : x ≠ z := by
              rintro rfl
              exact hxy (Char.toNat_inj.1 (Nat.le_antisymm h h'))
            rw [if_neg hxz, decide_eq_true_eq]
            omega

namespace BlobIndex

/-! ## The newest-first order -/

/-- One key comes before another one. -/
def Before (a b : Nat × Str) : Prop :=
  newer a b = true ∧ a ≠ b

/-- Every two keys are ordered. -/
theorem newer_total (a b : Nat × Str) : newer a b = true ∨ newer b a = true := by
  simp only [newer]
  by_cases h : a.1 = b.1
  · simp only [if_pos h, if_pos h.symm]
    exact strLe_total b.2 a.2
  · simp only [if_neg h, if_neg (Ne.symm h), decide_eq_true_eq]
    omega

/-- The order of keys is transitive. -/
theorem newer_trans {a b c : Nat × Str} (h : newer a b = true) (h' : newer b c = true) : newer a c = true := by
  simp only [newer] at h h' ⊢
  by_cases hab : a.1 = b.1
  · rw [if_pos hab] at h
    by_cases hbc : b.1 = c.1
    · rw [if_pos hbc] at h'
      rw [if_pos (hab.trans hbc)]
      exact strLe_trans h' h
    · rw [if_neg hbc] at h'
      rw [if_neg (hab ▸ hbc), hab]
      exact h'
  · rw [if_neg hab, decide_eq_true_eq] at h
    by_cases hbc : b.1 = c.1
    · rw [if_neg (hbc ▸ hab), ← hbc, decide_eq_true_eq]
      exact h
    · rw [if_neg hbc, decide_eq_true_eq] at h'
      rw [if_neg (by omega), decide_eq_true_eq]
      omega

/-- One key comes before another one when its time is later, and among equal times by its hash. -/
theorem before_iff {a b : Nat × Str} : Before a b ↔ b.1 < a.1 ∨ a.1 = b.1 ∧ strLe b.2 a.2 = true ∧ a.2 ≠ b.2 := by
  obtain ⟨t, k⟩ := a
  obtain ⟨t', k'⟩ := b
  simp only [Before, newer, ne_eq, Prod.mk.injEq, not_and]
  by_cases h : t = t'
  · subst h
    simp
  · simp only [h, if_false, decide_eq_true_eq, false_implies, and_true, false_and, or_false]
    omega

/-- Keys that are ordered both ways are the same. -/
theorem newer_antisymm {a b : Nat × Str} (h : newer a b = true) (h' : newer b a = true) : a = b := by
  simp only [newer] at h h'
  by_cases hab : a.1 = b.1
  · rw [if_pos hab] at h
    rw [if_pos hab.symm] at h'
    exact Prod.ext hab (strLe_antisymm h' h)
  · rw [if_neg hab, decide_eq_true_eq] at h
    rw [if_neg (Ne.symm hab), decide_eq_true_eq] at h'
    exact absurd (Nat.le_antisymm h' h) hab

/-- What an insertion into the order adds. -/
theorem mem_orderInsert {a b : Nat × Str} {l : List (Nat × Str)} : b ∈ orderInsert a l ↔ b = a ∨ b ∈ l := by
  induction l with
  | nil => simp [orderInsert]
  | cons c l ih =>
    simp only [orderInsert]
    split
    · rename_i h
      subst h
      simp
    · split
      · exact List.mem_cons
      · rw [List.mem_cons, ih, List.mem_cons]
        exact or_left_comm

/-- An insertion keeps the order sorted. -/
theorem sorted_orderInsert (a : Nat × Str) {l : List (Nat × Str)} (h : l.Pairwise Before) : (orderInsert a l).Pairwise Before := by
  induction l with
  | nil => exact List.pairwise_singleton ..
  | cons c l ih =>
    obtain ⟨hc, hl⟩ := List.pairwise_cons.1 h
    simp only [orderInsert]
    split
    · exact h
    · rename_i hne
      split
      · rename_i hac
        refine List.pairwise_cons.2 ⟨fun b hb => ?_, h⟩
        rcases List.mem_cons.1 hb with rfl | hb
        · exact ⟨hac, hne⟩
        · refine ⟨newer_trans hac (hc b hb).1, ?_⟩
          rintro rfl
          exact hne (newer_antisymm hac (hc a hb).1)
      · rename_i hac
        refine List.pairwise_cons.2 ⟨fun b hb => ?_, ih hl⟩
        rcases mem_orderInsert.1 hb with rfl | hb
        · exact ⟨(newer_total b c).resolve_left hac, Ne.symm hne⟩
        · exact hc b hb

/-- A sorted order names no key twice. -/
theorem nodup_of_sorted {l : List (Nat × Str)} (h : l.Pairwise Before) : l.Nodup :=
  h.imp fun h => h.2

/-! ## The entries and their order -/

/-- The order holds exactly the keys of the entries, with their times. -/
structure Ordered (i : BlobIndex) : Prop where
  sorted : i.order.Pairwise Before
  mem_iff : ∀ createdAt sha256, (createdAt, sha256) ∈ i.order ↔ ∃ m, i.get sha256 = some m ∧ m.createdAt = createdAt

/-- An empty index has an empty order. -/
theorem ordered_empty : Ordered .empty :=
  ⟨.nil, fun _ _ => ⟨nofun, fun ⟨_, h, _⟩ => nomatch h⟩⟩

/-- Overwriting or adding an entry keeps the order. -/
theorem Ordered.insert {i : BlobIndex} (h : i.Ordered) (key : Str) (m : FileMetadata) : (i.insert key m).Ordered := by
  have hother : ∀ {at' : Nat} {sha256 : Str}, sha256 ≠ key →
      ((∃ m', (i.insert key m).get sha256 = some m' ∧ m'.createdAt = at') ↔ (at', sha256) ∈ i.order) := by
    intro at' sha256 hne
    rw [get_insert_of_ne i m hne, h.mem_iff]
  have hself : ∀ {at' : Nat}, (∃ m', (i.insert key m).get key = some m' ∧ m'.createdAt = at') ↔ m.createdAt = at' := by
    intro at'
    rw [get_insert_self]
    exact ⟨fun ⟨_, hm, ha⟩ => Option.some.inj hm ▸ ha, fun ha => ⟨m, rfl, ha⟩⟩
  -- The order before the insertion of the new key, without the old one.
  have hmain : ∀ order, (i.insert key m).order = orderInsert (m.createdAt, key) order → order.Pairwise Before →
      (∀ x, x ∈ order ↔ x ∈ i.order ∧ x.2 ≠ key) → (i.insert key m).Ordered := by
    intro order ho hs hm
    refine ⟨ho ▸ sorted_orderInsert _ hs, fun at' sha256 => ?_⟩
    rw [ho, mem_orderInsert, hm]
    by_cases hk : sha256 = key
    · subst hk
      rw [hself]
      simp [eq_comm]
    · rw [hother hk]
      simp [hk]
  cases hg : i.get key with
  | none =>
    have ho : (i.insert key m).order = orderInsert (m.createdAt, key) i.order := by
      simp only [BlobIndex.insert, insertEntry, hg]
    refine hmain _ ho h.sorted fun x => ⟨fun hx => ⟨hx, ?_⟩, fun hx => hx.1⟩
    rintro rfl
    obtain ⟨m', hm', _⟩ := (h.mem_iff x.1 x.2).1 hx
    rw [hg] at hm'
    nomatch hm'
  | some p =>
    have ho : (i.insert key m).order = orderInsert (m.createdAt, key) (i.order.erase (p.createdAt, key)) := by
      simp only [BlobIndex.insert, insertEntry, hg]
    refine hmain _ ho (h.sorted.sublist List.erase_sublist) fun x => ?_
    rw [(nodup_of_sorted h.sorted).mem_erase_iff]
    refine ⟨fun hx => ⟨hx.2, ?_⟩, fun hx => ⟨?_, hx.1⟩⟩
    · rintro rfl
      obtain ⟨m', hm', ha⟩ := (h.mem_iff x.1 x.2).1 hx.2
      rw [hg] at hm'
      cases hm'
      exact hx.1 (Prod.ext ha.symm rfl)
    · rintro rfl
      exact hx.2 rfl

/-- Removing an entry keeps the order. -/
theorem Ordered.remove {i : BlobIndex} (h : i.Ordered) (sha256 : Str) : (i.remove sha256).1.Ordered := by
  cases hg : i.get sha256 with
  | none =>
    simp only [BlobIndex.remove, hg]
    exact h
  | some p =>
    have ho : (i.remove sha256).1.order = i.order.erase (p.createdAt, sha256) := by
      simp only [BlobIndex.remove, hg]
    refine ⟨ho ▸ h.sorted.sublist List.erase_sublist, fun at' k => ?_⟩
    rw [ho, (nodup_of_sorted h.sorted).mem_erase_iff, h.mem_iff]
    by_cases hk : k = sha256
    · subst hk
      rw [get_remove_self]
      refine ⟨fun ⟨hne, m, hm, ha⟩ => ?_, fun ⟨_, hm, _⟩ => nomatch hm⟩
      rw [hg] at hm
      cases hm
      have heq : (at', k) = (p.createdAt, k) := Prod.ext ha.symm rfl
      exact absurd heq hne
    · rw [get_remove_of_ne i hk]
      refine ⟨fun hm => hm.2, fun hm => ⟨?_, hm⟩⟩
      rintro ⟨⟩
      exact hk rfl

/-- Replacing everything keeps the order. -/
theorem Ordered.replace (i : BlobIndex) (map : AList fun _ : Str => FileMetadata) : (i.replace map).Ordered := by
  have hfold : ∀ (entries : List ((_ : Str) × FileMetadata)) (order : List (Nat × Str)), order.Pairwise Before →
      (entries.foldl (fun o e => orderInsert (e.2.createdAt, e.1) o) order).Pairwise Before ∧
        ∀ x, x ∈ entries.foldl (fun o e => orderInsert (e.2.createdAt, e.1) o) order ↔
          x ∈ order ∨ ∃ e ∈ entries, (e.2.createdAt, e.1) = x := by
    intro entries
    induction entries with
    | nil => exact fun order ho => ⟨ho, fun x => by simp⟩
    | cons e entries ih =>
      intro order ho
      obtain ⟨hs, hm⟩ := ih _ (sorted_orderInsert (e.2.createdAt, e.1) ho)
      refine ⟨hs, fun x => ?_⟩
      rw [List.foldl_cons, hm, mem_orderInsert]
      simp only [List.mem_cons, exists_eq_or_imp, eq_comm (a := x)]
      rw [or_comm (a := _ = x), or_assoc]
  obtain ⟨hs, hm⟩ := hfold map.entries [] .nil
  refine ⟨hs, fun at' sha256 => (hm (at', sha256)).trans ?_⟩
  rw [get_replace]
  constructor
  · rintro (hx | ⟨e, he, hx⟩)
    · nomatch hx
    · cases hx
      exact ⟨e.2, AList.mem_lookup_iff.2 he, rfl⟩
  · rintro ⟨m, hm, rfl⟩
    exact .inr ⟨⟨sha256, m⟩, AList.mem_lookup_iff.1 hm, rfl⟩

/-- Every operation keeps the order. -/
theorem Ordered.apply {i : BlobIndex} (h : i.Ordered) (op : Mutation) : (i.apply op).Ordered := by
  cases op with
  | insert key m => exact h.insert key m
  | publish key m =>
    simp only [BlobIndex.apply]
    obtain ⟨_, _, _, hp⟩ | ⟨_, hp⟩ := i.publish_cases key m
    · rw [hp]
      exact h
    · rw [hp]
      exact h.insert key m
  | remove sha256 => exact h.remove sha256
  | removeIfLocationMatches sha256 location =>
    simp only [BlobIndex.apply]
    obtain ⟨_, _, _, hp⟩ | ⟨_, hp⟩ := i.removeIf_cases sha256 location
    · rw [hp]
      exact h.remove sha256
    · rw [hp]
      exact h
  | replace map => exact Ordered.replace i map

/-- Every reachable index is ordered. -/
theorem Reachable.ordered {ok : BlobIndex → Mutation → Prop} {i : BlobIndex} (h : Reachable ok i) : i.Ordered :=
  h.invariant ordered_empty fun _ op hi _ => hi.apply op

/-! ## The sum of the sizes -/

/-- The sum of the sizes of the entries, without one of them. -/
theorem sumSizes_erase {map : AList fun _ : Str => FileMetadata} {k : Str} {m : FileMetadata} (h : map.lookup k = some m) :
    sumSizes map = m.size + sumSizes (map.erase k) := by
  have hmem : k ∈ map.entries.keys := AList.mem_keys.1 (AList.lookup_isSome.1 (by rw [h]; rfl))
  obtain ⟨m', l₁, l₂, _, hl, hk⟩ := List.exists_of_kerase hmem
  have hm : m' = m := by
    have hentry : (⟨k, m'⟩ : (_ : Str) × FileMetadata) ∈ map.entries := by
      rw [hl]
      exact List.mem_append_right _ List.mem_cons_self
    rw [AList.mem_lookup_iff.2 hentry] at h
    exact Option.some.inj h
  simp only [sumSizes, AList.erase, hk]
  rw [hl, hm]
  simp only [List.map_append, List.map_cons, List.sum_append, List.sum_cons]
  omega

/-- The sum of the sizes of the entries after one of them was written. -/
theorem sumSizes_insert (map : AList fun _ : Str => FileMetadata) (k : Str) (m : FileMetadata) :
    sumSizes (map.insert k m) = m.size + sumSizes (map.erase k) :=
  List.sum_cons

/-- Removing what is not there changes no sum. -/
theorem sumSizes_erase_none {map : AList fun _ : Str => FileMetadata} {k : Str} (h : map.lookup k = none) :
    sumSizes (map.erase k) = sumSizes map := by
  have hk : k ∉ map.entries.keys := fun hk => AList.lookup_eq_none.1 h hk
  simp only [sumSizes, AList.erase, List.kerase_of_notMem_keys hk]

/-- A sum, as the index computes it: it wraps around. -/
theorem foldl_wrappingAdd_mod (entries : List ((_ : Str) × FileMetadata)) {start : Nat} (h : start ≤ u64Max) :
    entries.foldl (fun total e => wrappingAdd total e.2.size) start =
      (start + (entries.map fun e => e.2.size).sum) % (u64Max + 1) := by
  induction entries generalizing start with
  | nil => exact (Nat.mod_eq_of_lt (Nat.lt_succ_of_le h)).symm
  | cons e entries ih =>
    have hle : wrappingAdd start e.2.size ≤ u64Max := Nat.le_of_lt_succ (Nat.mod_lt _ (Nat.succ_pos _))
    rw [List.foldl_cons, ih hle, List.map_cons, List.sum_cons, ← Nat.add_assoc, wrappingAdd, Nat.mod_add_mod]

/-- A sum that fits, as the index computes it. -/
theorem foldl_wrappingAdd {entries : List ((_ : Str) × FileMetadata)} {start : Nat}
    (h : start + (entries.map fun e => e.2.size).sum ≤ u64Max) :
    entries.foldl (fun total e => wrappingAdd total e.2.size) start = start + (entries.map fun e => e.2.size).sum := by
  rw [foldl_wrappingAdd_mod entries (by omega), Nat.mod_eq_of_lt (Nat.lt_succ_of_le h)]

/-- The total of entries that replace all others. -/
theorem totalBytes_replace (i : BlobIndex) (map : AList fun _ : Str => FileMetadata) :
    (i.replace map).totalBytes = sumSizes map % (u64Max + 1) := by
  have := foldl_wrappingAdd_mod map.entries (Nat.zero_le u64Max)
  rwa [Nat.zero_add] at this

/-- The same entries, in another order, make the same index. -/
theorem replace_congr (i : BlobIndex) {map map' : AList fun _ : Str => FileMetadata}
    (h : ∀ sha256, map.lookup sha256 = map'.lookup sha256) :
    (i.replace map).totalBytes = (i.replace map').totalBytes ∧ (i.replace map).order = (i.replace map').order := by
  have hperm : map.entries.Perm map'.entries := List.lookup_ext map.nodupKeys map'.nodupKeys fun k m => by
    have := h k
    rw [AList.lookup, AList.lookup] at this
    rw [this]
  constructor
  · rw [totalBytes_replace, totalBytes_replace, sumSizes, sumSizes, (hperm.map _).sum_nat]
  · have ho := Ordered.replace i map
    have ho' := Ordered.replace i map'
    refine List.Perm.eq_of_pairwise (fun a b _ _ hab hba => newer_antisymm hab.1 hba.1) ho.sorted ho'.sorted ?_
    refine (List.perm_ext_iff_of_nodup (nodup_of_sorted ho.sorted) (nodup_of_sorted ho'.sorted)).2 fun x => ?_
    rw [ho.mem_iff, ho'.mem_iff, get_replace, get_replace, h]

/-- The sum is the sum of the sizes of the entries. -/
def Summed (i : BlobIndex) : Prop :=
  i.totalBytes = sumSizes i.map

/-- Overwriting or adding an entry keeps the sum, when it fits. -/
theorem Summed.insert {i : BlobIndex} (h : i.Summed) (key : Str) {m : FileMetadata} (hfit : sumSizes i.map + m.size ≤ u64Max) :
    (i.insert key m).Summed := by
  have hadd : wrappingAdd i.totalBytes m.size = i.totalBytes + m.size := wrappingAdd_eq (by rw [h]; exact hfit)
  unfold Summed at h
  cases hg : i.get key with
  | none =>
    have hmap := sumSizes_erase_none hg
    simp only [Summed, BlobIndex.insert, insertEntry, hg, sumSizes_insert, hadd]
    omega
  | some p =>
    have hmap := sumSizes_erase hg
    simp only [Summed, BlobIndex.insert, insertEntry, hg, sumSizes_insert, hadd]
    omega

/-- Removing an entry keeps the sum. -/
theorem Summed.remove {i : BlobIndex} (h : i.Summed) (sha256 : Str) : (i.remove sha256).1.Summed := by
  unfold Summed at h
  cases hg : i.get sha256 with
  | none =>
    simp only [Summed, BlobIndex.remove, hg]
    exact h
  | some p =>
    have hmap := sumSizes_erase hg
    simp only [Summed, BlobIndex.remove, hg]
    omega

/-- An entry is no larger than the sum. -/
theorem Summed.size_le {i : BlobIndex} (h : i.Summed) {sha256 : Str} {m : FileMetadata} (hg : i.get sha256 = some m) :
    m.size ≤ i.totalBytes := by
  have hmap := sumSizes_erase hg
  unfold Summed at h
  omega

/-- Every operation that fits keeps the sum. -/
theorem Summed.apply {i : BlobIndex} (h : i.Summed) {op : Mutation} (hfit : i.Fits op) : (i.apply op).Summed := by
  cases op with
  | insert key m => exact h.insert key (hfit rfl)
  | publish key m =>
    simp only [BlobIndex.apply]
    obtain ⟨_, _, _, hp⟩ | ⟨hnone, hp⟩ := i.publish_cases key m
    · rw [hp]
      exact h
    · rw [hp]
      refine h.insert key (hfit ?_)
      simp only [touches, contains]
      by_cases ho : m.origin = .upstreamCache
      · simp [hnone ho]
      · simp [ho]
  | remove sha256 => exact h.remove sha256
  | removeIfLocationMatches sha256 location =>
    simp only [BlobIndex.apply]
    obtain ⟨_, _, _, hp⟩ | ⟨_, hp⟩ := i.removeIf_cases sha256 location
    · rw [hp]
      exact h.remove sha256
    · rw [hp]
      exact h
  | replace map =>
    have hsum : 0 + sumSizes map ≤ u64Max := (Nat.zero_add _).symm ▸ hfit rfl
    exact (foldl_wrappingAdd hsum).trans (Nat.zero_add _)

/-- Every index that was reached with sums that fit has the sum. -/
theorem Reachable.summed {i : BlobIndex} (h : Reachable Fits i) : i.Summed :=
  h.invariant rfl fun _ _ hi hfit => hi.apply hfit

/-- No subtraction of an operation that fits saturates. -/
theorem Summed.subtraction_le {i : BlobIndex} (h : i.Summed) {op : Mutation} (hfit : i.Fits op) {a b : Nat}
    (hs : i.subtraction op = some (a, b)) : b ≤ a := by
  unfold subtraction at hs
  split at hs
  · rename_i htouch
    have hadd : ∀ {key : Str} {m p : FileMetadata}, i.get key = some p → sumSizes i.map + m.size ≤ u64Max →
        p.size ≤ wrappingAdd i.totalBytes m.size := by
      intro key m p hg hle
      rw [wrappingAdd_eq (by rw [h]; exact hle)]
      exact (h.size_le hg).trans (Nat.le_add_right ..)
    cases op with
    | insert key m =>
      obtain ⟨p, hg, he⟩ := Option.map_eq_some_iff.1 hs
      cases he
      exact hadd hg (hfit htouch)
    | publish key m =>
      obtain ⟨p, hg, he⟩ := Option.map_eq_some_iff.1 hs
      cases he
      exact hadd hg (hfit htouch)
    | remove sha256 =>
      obtain ⟨p, hg, he⟩ := Option.map_eq_some_iff.1 hs
      cases he
      exact h.size_le hg
    | removeIfLocationMatches sha256 location =>
      obtain ⟨p, hg, he⟩ := Option.map_eq_some_iff.1 hs
      cases he
      exact h.size_le hg
    | replace map => nomatch hs
  · nomatch hs

/-! ## The generation -/

/-- An operation that does not write leaves the index as it is. -/
theorem apply_of_not_touches {i : BlobIndex} {op : Mutation} (h : i.touches op = false) : i.apply op = i := by
  cases op with
  | insert key m => nomatch h
  | publish key m =>
    simp only [BlobIndex.apply]
    obtain ⟨_, _, _, hp⟩ | ⟨hnone, hp⟩ := i.publish_cases key m
    · rw [hp]
    · simp only [touches, Bool.not_eq_false', Bool.and_eq_true, decide_eq_true_eq, contains] at h
      rw [hnone h.1] at h
      nomatch h.2
  | remove sha256 =>
    simp only [touches, contains, Option.isSome_eq_false_iff, Option.isNone_iff_eq_none] at h
    simp only [BlobIndex.apply, BlobIndex.remove, h]
  | removeIfLocationMatches sha256 location =>
    simp only [BlobIndex.apply]
    obtain ⟨m, hg, hl, _⟩ | ⟨_, hp⟩ := i.removeIf_cases sha256 location
    · simp [touches, hg, hl] at h
    · rw [hp]
  | replace map => nomatch h

/-- An operation that writes is counted. -/
theorem generation_of_touches {i : BlobIndex} {op : Mutation} (h : i.touches op = true) :
    (i.apply op).generation = i.generation + 1 := by
  have hremove : ∀ {sha256 : Str} {m : FileMetadata}, i.get sha256 = some m →
      (i.remove sha256).1.generation = i.generation + 1 := by
    intro sha256 m hg
    simp only [BlobIndex.remove, hg]
  cases op with
  | insert key m => rfl
  | publish key m =>
    simp only [BlobIndex.apply]
    obtain ⟨e, ho, hg, _⟩ | ⟨_, hp⟩ := i.publish_cases key m
    · simp [touches, contains, ho, hg] at h
    · rw [hp]
      rfl
  | remove sha256 =>
    obtain ⟨m, hg⟩ := Option.isSome_iff_exists.1 h
    exact hremove hg
  | removeIfLocationMatches sha256 location =>
    simp only [BlobIndex.apply]
    obtain ⟨m, hg, _, hp⟩ | ⟨hne, _⟩ := i.removeIf_cases sha256 location
    · rw [hp]
      exact hremove hg
    · obtain ⟨m, hg, hl⟩ := (Option.any_eq_true ..).1 h
      exact absurd (of_decide_eq_true hl) (hne m hg)
  | replace map => rfl

end BlobIndex

end Almond
