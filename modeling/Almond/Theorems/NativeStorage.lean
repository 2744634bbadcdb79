import Almond.Lemmas.NamesAux
import Almond.Lemmas.ReconstructionAux
import Almond.Sample

/-! # The layout of the bucket -/

namespace Almond.NativeStorage

open Conc

/-! ## The pages of a listing -/

section

variable {b : Bucket} {keyPrefix key sha256 : Str} {object : S3Object} {p : PageToken} {libs : Libs}

/-- What a page lists. -/
theorem mem_page : (key, object) ∈ b.page keyPrefix p ↔
    b.lookup key = some object ∧ keyPrefix <+: key ∧ Bucket.pageOf p.cuts key = p.index := by
  simp only [Bucket.page, List.mem_insertionSort, List.mem_map, List.mem_filter, Bool.and_eq_true, List.isPrefixOf_iff_prefix,
    decide_eq_true_eq, Prod.mk.injEq]
  constructor
  · rintro ⟨⟨k, x⟩, ⟨he, hp⟩, rfl, rfl⟩
    exact ⟨AList.mem_lookup_iff.2 he, hp⟩
  · rintro ⟨hl, hp⟩
    exact ⟨⟨key, object⟩, ⟨AList.mem_lookup_iff.1 hl, hp⟩, rfl, rfl⟩

/-- Every key is on a page of a listing. -/
theorem exists_page (cuts : List Str) (key : Str) : ∃ p ∈ Bucket.pages cuts, Bucket.pageOf p.cuts key = p.index := by
  refine ⟨⟨cuts, Bucket.pageOf cuts key⟩, List.mem_map.2 ⟨_, List.mem_range.2 ?_, rfl⟩, rfl⟩
  exact Nat.lt_succ_of_le (List.length_filter_le ..)

/-- Whether a key is one of a hash. -/
def IsKeyOf (sha256 key : Str) : Prop :=
  ∃ parsed, parseObjectKey key = some parsed ∧ parsed.hash = sha256

/-- The keys of a hash have its prefix. -/
theorem keyPrefix_of_isKeyOf (h : IsKeyOf sha256 key) (hp : hashPrefix sha256 = .ok keyPrefix) : keyPrefix <+: key := by
  obtain ⟨parsed, hparsed, rfl⟩ := h
  obtain ⟨name, hparse, _⟩ := keyUnder_of_parseObjectKey hparsed
  rw [hashPrefix_eq (BlobName.parse_eq_some hparse).1] at hp
  exact Except.ok.inj hp ▸ keyUnder_prefix hparsed

/-- The keys of a hash on a page. -/
theorem mem_matchingKeys : key ∈ matchingKeys sha256 (b.page keyPrefix p) ↔
    (∃ object, b.lookup key = some object) ∧ keyPrefix <+: key ∧ Bucket.pageOf p.cuts key = p.index ∧ IsKeyOf sha256 key := by
  simp only [matchingKeys, List.mem_filter, List.mem_map, Prod.exists, exists_and_right, exists_eq_right, mem_page, IsKeyOf,
    Option.any_eq_true, decide_eq_true_eq]
  tauto

/-- The first object of a hash on a page is one of its objects. -/
theorem firstOf_eq_some {m : FileMetadata} (h : firstOf libs sha256 (b.page keyPrefix p) = some m) :
    ∃ key, m.location = .s3 key ∧ IsKeyOf sha256 key ∧ (b.lookup key).isSome = true := by
  obtain ⟨e, he, rfl⟩ := Option.map_eq_some_iff.1 h
  have hk : e.1 = sha256 := by simpa using List.find?_some he
  obtain ⟨⟨key, object⟩, hpage, hentry⟩ := List.mem_filterMap.1 (List.mem_of_find?_eq_some he)
  obtain ⟨parsed, hparsed, rfl⟩ := Option.map_eq_some_iff.1 hentry
  exact ⟨key, rfl, ⟨parsed, hparsed, hk⟩, Option.isSome_iff_exists.2 ⟨object, (mem_page.1 hpage).1⟩⟩

/-- A page without a first object of a hash has none. -/
theorem firstOf_eq_none (h : firstOf libs sha256 (b.page keyPrefix p) = none) (hkey : IsKeyOf sha256 key) :
    (key, object) ∉ b.page keyPrefix p := by
  intro hm
  obtain ⟨parsed, hparsed, rfl⟩ := hkey
  have hentry : (parsed.hash, objectMetadata libs key object parsed) ∈ pageEntries libs (b.page keyPrefix p) :=
    List.mem_filterMap.2 ⟨_, hm, Option.map_eq_some_iff.2 ⟨parsed, hparsed, rfl⟩⟩
  have hnone := List.find?_eq_none.1 (Option.map_eq_none_iff.1 h) _ hentry
  exact hnone (decide_eq_true rfl)

end

/-! ## The searches -/

section

variable {cfg : Config} {t : Tid} {s : AppState} {sha256 keyPrefix : Str} {E : Env → Prop}

/-- Some operation on the bucket fails. -/
def S3Faulty (E : Env → Prop) : Prop :=
  ∃ e, E e ∧ e.s3.fault ≠ none

/-- An operation on the bucket alone: it fails and changes nothing, or it is performed. -/
theorem yields_s3 {r : S3Req} {Q : r.Resp → AppState → Prop}
    (hfault : ∀ (e : Env) message, S3Faulty E → Q (Bucket.faulted e.s3 message r) s)
    (hQ : ∀ (e : Env) (s' : AppState), (s.bucket.perform e.s3 (asSecs s.clock.system) (fun ino => (s.disk.nodes ino).data) r).2 =
      s'.bucket → Q (s.bucket.perform e.s3 (asSecs s.clock.system) (fun ino => (s.disk.nodes ino).data) r).1 s') :
    (s3 r).Yields (exec cfg t) E Q s := by
  intro e he
  cases hf : e.s3.fault with
  | none =>
    have hx : ∀ c, Bucket.exec s.bucket e.s3 (asSecs s.clock.system) c r = s.bucket.perform e.s3 (asSecs s.clock.system) c r :=
      fun c => by rw [Bucket.exec, hf]
    simp only [exec, hx]
    exact hQ e _ rfl
  | some message =>
    have hx : ∀ c, Bucket.exec s.bucket e.s3 (asSecs s.clock.system) c r = (Bucket.faulted e.s3 message r, s.bucket) :=
      fun c => by rw [Bucket.exec, hf]
    simp only [exec, hx]
    exact hfault e message ⟨e, he, fun h => by cases hf.symm.trans h⟩

/-- Beginning a listing tells its pages. -/
theorem yields_paginate : (s3 .paginate).Yields (exec cfg t) E
    (fun pages s' => s'.bucket = s.bucket ∧ ∃ cuts, pages = Bucket.pages cuts) s :=
  yields_s3 (fun e _ _ => ⟨rfl, e.s3.cuts, rfl⟩) fun e _ hs => ⟨hs.symm, e.s3.cuts, rfl⟩

/-- Deleting keys leaves the other objects. -/
theorem deleteKeys_yields (keys : List Str) : (deleteKeys keys).run.Yields (exec cfg t) E (fun x s' => match x with
    | .ok () => ∀ key, s'.bucket.lookup key = if key ∈ keys then none else s.bucket.lookup key
    | .error _ => S3Faulty E) s := by
  induction keys generalizing s with
  | nil => exact fun _ => rfl
  | cons k keys ih =>
    refine yields_orErr_bind (yields_s3 (fun _ _ hf => hf) fun e s' hs => ?_)
    refine (ih (s := s')).mono fun x s'' h => ?_
    cases x with
    | error e => exact h
    | ok u =>
      intro key
      have herase : (s.bucket.perform e.s3 (asSecs s.clock.system) (fun ino => (s.disk.nodes ino).data) (.deleteObject k)).2 =
          s.bucket.erase k := rfl
      rw [h key, ← hs, herase]
      by_cases hk : key = k
      · rw [hk, AList.lookup_erase, ite_self, if_pos List.mem_cons_self]
      · rw [AList.lookup_erase_ne hk]
        simp only [List.mem_cons, hk, false_or]

/-- A bucket without the objects of a hash on some pages. -/
structure Cleared (sha256 keyPrefix : Str) (pages : List PageToken) (b b' : Bucket) : Prop where
  gone : ∀ key, keyPrefix <+: key → (∃ p ∈ pages, Bucket.pageOf p.cuts key = p.index) → IsKeyOf sha256 key → b'.lookup key = none
  others : ∀ key, ¬ IsKeyOf sha256 key → b'.lookup key = b.lookup key
  nothing : ∀ key, b.lookup key = none → b'.lookup key = none

/-- Deleting on some pages removes the objects of the hash there. -/
theorem deleteInPages_yields (sha256 keyPrefix : Str) (pages : List PageToken) : (deleteInPages sha256 keyPrefix pages).run.Yields (exec cfg t) E
    (fun x s' => match x with
      | .ok () => Cleared sha256 keyPrefix pages s.bucket s'.bucket
      | .error _ => S3Faulty E) s := by
  induction pages generalizing s with
  | nil => exact ⟨fun _ _ ⟨_, h, _⟩ => (nomatch h), fun _ _ => rfl, fun _ => id⟩
  | cons p pages ih =>
    refine yields_orErr_bind (yields_s3 (fun _ _ hf => hf) fun e s' hs => ?_)
    refine Task.Yields.run_bind (deleteKeys_yields _) (fun _ _ hf => hf) fun _ s₁ hdeleted => ?_
    refine (ih (s := s₁)).mono fun x s₂ h => ?_
    cases x with
    | error e => exact h
    | ok u =>
      rw [← hs] at hdeleted
      simp only [Bucket.perform] at hdeleted
      obtain ⟨hgone, hothers, hnothing⟩ := h
      refine ⟨fun key hunder hpage hkey => ?_, fun key hkey => ?_, fun key hnone => hnothing key ?_⟩
      · obtain ⟨p', hp', hon⟩ := hpage
        rcases List.mem_cons.1 hp' with rfl | hp'
        · refine hnothing key ?_
          rw [hdeleted]
          split
          · rfl
          · rename_i hmiss
            cases hl : s.bucket.lookup key with
            | none => rfl
            | some object => exact absurd (mem_matchingKeys.2 ⟨⟨object, hl⟩, hunder, hon, hkey⟩) hmiss
        · exact hgone key hunder ⟨p', hp', hon⟩ hkey
      · rw [hothers key hkey, hdeleted, if_neg fun h => hkey (mem_matchingKeys.1 h).2.2.2]
      · rw [hdeleted, hnone, ite_self]

/-- Deleting a valid hash removes its objects and no other one, unless an operation on the bucket fails. -/
theorem deleteMatching_yields (cfg : Config) (t : Tid) (sha256 : Str) : (deleteMatching sha256).run.Yields (exec cfg t) E (fun x s' => match x with
    | .ok () => ∀ key, (IsKeyOf sha256 key → s'.bucket.lookup key = none) ∧
        (¬ IsKeyOf sha256 key → s'.bucket.lookup key = s.bucket.lookup key)
    | .error _ => BlobName.isValidHash sha256 = true → S3Faulty E) s := by
  unfold deleteMatching
  cases hp : hashPrefix sha256 with
  | error e => exact fun hv => nomatch (hashPrefix_eq hv).symm.trans hp
  | ok keyPrefix =>
    refine Task.Yields.lift_bind (yields_paginate (s := s)) ?_
    rintro _ s₁ ⟨hb, cuts, rfl⟩
    refine (deleteInPages_yields (s := s₁) sha256 keyPrefix (Bucket.pages cuts)).mono fun x s₂ h => ?_
    cases x with
    | error e => exact fun _ => h
    | ok u =>
      exact fun key => ⟨fun hkey => h.gone key (keyPrefix_of_isKeyOf hkey hp) (exists_page cuts key) hkey, hb ▸ h.others key⟩

/-- What a search of some pages finds. -/
def Found (sha256 : Str) (b : Bucket) (among : Str → Prop) : Option FileMetadata → Prop
  | some m => ∃ key, m.location = .s3 key ∧ IsKeyOf sha256 key ∧ (b.lookup key).isSome = true
  | none => ∀ key, among key → IsKeyOf sha256 key → b.lookup key = none

/-- Searching some pages finds an object of the hash there, if there is one. -/
theorem findInPages_yields (libs : Libs) (sha256 keyPrefix : Str) (pages : List PageToken) :
    (findInPages libs sha256 keyPrefix pages).run.Yields (exec cfg t) E (fun x s' => s'.bucket = s.bucket ∧ match x with
      | .ok found => Found sha256 s.bucket
          (fun key => keyPrefix <+: key ∧ ∃ p ∈ pages, Bucket.pageOf p.cuts key = p.index) found
      | .error _ => S3Faulty E) s := by
  induction pages generalizing s with
  | nil => exact ⟨rfl, fun _ ⟨_, _, h, _⟩ => (nomatch h)⟩
  | cons p pages ih =>
    refine yields_orErr_bind (yields_s3 (fun _ _ hf => ⟨rfl, hf⟩) fun e s' hs => ?_)
    have hs' : s'.bucket = s.bucket := hs.symm
    simp only [Bucket.perform]
    cases hf : firstOf libs sha256 (s.bucket.page keyPrefix p) with
    | some m => exact ⟨hs', firstOf_eq_some hf⟩
    | none =>
      refine (ih (s := s')).mono fun x s'' h => ⟨h.1.trans hs', ?_⟩
      rw [hs'] at h
      rcases x with e | _ | m
      · exact h.2
      · rintro key ⟨hunder, p', hp', hon⟩ hkey
        rcases List.mem_cons.1 hp' with rfl | hp'
        · cases hl : s.bucket.lookup key with
          | none => rfl
          | some object => exact absurd (mem_page.2 ⟨hl, hunder, hon⟩) (firstOf_eq_none hf hkey)
        · exact h.2 key ⟨hunder, p', hp', hon⟩ hkey
      · exact h.2

/-- A search for a valid hash finds an object of it, if there is one, unless an operation on the bucket fails. -/
theorem find_yields (cfg : Config) (t : Tid) (libs : Libs) (sha256 : Str) : (find libs sha256).run.Yields (exec cfg t) E (fun x s' =>
    s'.bucket = s.bucket ∧ match x with
      | .ok found => Found sha256 s.bucket (fun _ => True) found
      | .error _ => BlobName.isValidHash sha256 = true → S3Faulty E) s := by
  unfold find
  cases hp : hashPrefix sha256 with
  | error e => exact ⟨rfl, fun hv => nomatch (hashPrefix_eq hv).symm.trans hp⟩
  | ok keyPrefix =>
    refine Task.Yields.lift_bind (yields_paginate (s := s)) ?_
    rintro _ s₁ ⟨hb, cuts, rfl⟩
    refine (findInPages_yields (s := s₁) libs sha256 keyPrefix (Bucket.pages cuts)).mono ?_
    rintro x s₂ ⟨hs, h⟩
    rw [hb] at hs h
    refine ⟨hs, ?_⟩
    rcases x with e | _ | m
    · exact fun _ => h
    · exact fun key _ hkey => h key ⟨keyPrefix_of_isKeyOf hkey hp, exists_page cuts key⟩ hkey
    · exact h

end

/-! ## The layout -/

/-- The keys of blobs read back as they were built; deleting a hash removes exactly the objects whose key reads as the hash; and a
search finds one of them exactly when there is one. Both finish unless an operation on the bucket fails. -/
theorem object_keys (cfg : Config) (t : Tid) :
    (∀ hash e x, BlobName.isValidHash hash = true → (∀ n, e = some n → n ≤ u64Max) → (∀ extension, x = some extension → '/' ∉ extension) →
      ∃ key, objectKey hash x e = .ok key ∧ parseObjectKey key = some ⟨hash, e, x⟩) ∧
    (∀ sha256 env (s : AppState) x s', (deleteMatching sha256).run.alone (exec cfg t) env 0 s = (x, s') →
      (x = .ok () → ∀ key, (IsKeyOf sha256 key → s'.2.bucket.lookup key = none) ∧
        (¬ IsKeyOf sha256 key → s'.2.bucket.lookup key = s.bucket.lookup key)) ∧
      (BlobName.isValidHash sha256 = true → (∀ n, (env n).s3.fault = none) → x = .ok ())) ∧
    ∀ sha256 env (s : AppState) x s', (find cfg.libs sha256).run.alone (exec cfg t) env 0 s = (x, s') →
      (∀ found, x = .ok found → (found.isSome = true ↔ ∃ key, IsKeyOf sha256 key ∧ (s.bucket.lookup key).isSome = true) ∧
        ∀ m, found = some m → ∃ key, m.location = .s3 key ∧ IsKeyOf sha256 key ∧ (s.bucket.lookup key).isSome = true) ∧
      (BlobName.isValidHash sha256 = true → (∀ n, (env n).s3.fault = none) → ∃ found, x = .ok found) := by
  refine ⟨fun hash e x hv he hx => ⟨_, objectKey_eq hv x e, ?_⟩, fun sha256 env s x s' hrun => ⟨?_, ?_⟩,
    fun sha256 env s x s' hrun => ⟨?_, ?_⟩⟩
  · have hslash : '/' ∉ hash ++ BlobName.suffix e x := by
      have hdigits : ∀ n, '/' ∉ decimal n := fun n => not_mem_decimal (by decide)
      have hhash := slash_not_mem hv
      cases e <;> cases x <;> simp_all [BlobName.suffix]
    exact parseObjectKey_keyUnder (BlobName.parse_append_suffix hv he x) hslash
  · rintro rfl
    have h := (deleteMatching_yields cfg t (E := fun e => ∃ n, e = env n) sha256 (s := s)).alone (fun n => ⟨n, rfl⟩) 0
    rw [hrun] at h
    exact h
  · intro hv henv
    have h := (deleteMatching_yields cfg t (E := fun e => e.s3.fault = none) sha256 (s := s)).alone henv 0
    rw [hrun] at h
    cases x with
    | ok u => rfl
    | error e =>
      obtain ⟨_, hnone, hsome⟩ := h hv
      exact absurd hnone hsome
  · rintro found rfl
    have h := (find_yields cfg t (E := fun e => ∃ n, e = env n) cfg.libs sha256 (s := s)).alone (fun n => ⟨n, rfl⟩) 0
    rw [hrun] at h
    cases found with
    | some m =>
      obtain ⟨key, hl, hkey, hobject⟩ := h.2
      refine ⟨iff_of_true rfl ⟨key, hkey, hobject⟩, fun m' hm => ?_⟩
      cases hm
      exact ⟨key, hl, hkey, hobject⟩
    | none =>
      refine ⟨iff_of_false (by simp) ?_, fun _ h => by cases h⟩
      rintro ⟨key, hkey, hobject⟩
      rw [h.2 key trivial hkey] at hobject
      cases hobject
  · intro hv henv
    have h := (find_yields cfg t (E := fun e => e.s3.fault = none) cfg.libs sha256 (s := s)).alone henv 0
    rw [hrun] at h
    cases x with
    | ok found => exact ⟨found, rfl⟩
    | error e =>
      obtain ⟨_, hnone, hsome⟩ := h.2 hv
      exact absurd hnone hsome

end Almond.NativeStorage
