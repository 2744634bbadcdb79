import Almond.Conc.Solo
import Almond.Theorems.BlobFilter

/-! # The filter is rendered once -/

namespace Almond.BlobFilter

open Conc

variable {libs : FilterLibs} {algorithm : String} {fp : Option F64} {rate : F64} {headers : Headers} {s : FilterState}
  {env : Nat → FilterEnv} {t : Tid}

/-! ## One request alone -/

/-- A request that finds its filter in the cache is answered with it, and renders nothing. -/
theorem getFilter_hit (libs : FilterLibs) (headers : Headers) (env : Nat → FilterEnv) (t : Tid) {filter : CachedFilter} (hrate : fpRate fp = some rate)
    (hhit : hit s.index.generation (fpRateBits algorithm rate) s.filterCache = some filter) :
    (getFilter libs algorithm fp headers).alone (exec t) env 0 s =
        (.responded (.ok (filterResponse headers filter.etag filter.body)), 2, s) ∧
      (getFilter libs algorithm fp headers).requests (exec t) env 0 s = [.generation, .cached] := by
  unfold getFilter
  rw [hrate]
  simp [await, Task.withLock, Task.perform, Task.alone, Task.requests, exec, hhit]

/-- A request that does not find its filter in the cache renders it. -/
theorem getFilter_miss_renders (hrate : fpRate fp = some rate)
    (hmiss : hit s.index.generation (fpRateBits algorithm rate) s.filterCache = none) :
    FilterReq.hashKeys ∈ (getFilter libs algorithm fp headers).requests (exec t) env 0 s := by
  unfold getFilter
  rw [hrate]
  simp [await, Task.withLock, Task.perform, Task.requests, exec, hmiss, renderLocked, renderFilter]

/-- A request that renders its filter is answered with it, and leaves it in the cache. -/
theorem getFilter_miss {response : FilterResponse} {n : Nat} {s' : FilterState} (hrate : fpRate fp = some rate)
    (hmiss : hit s.index.generation (fpRateBits algorithm rate) s.filterCache = none)
    (hrun : (getFilter libs algorithm fp headers).alone (exec t) env 0 s = (.responded (.ok response), n, s')) :
    ∃ keys timestamp seed filter, rendered libs algorithm keys s.index.generation timestamp rate seed = .ok filter ∧
      response = filterResponse headers filter.etag filter.body ∧ s' = { s with filterCache := some filter } := by
  unfold getFilter at hrun
  rw [hrate] at hrun
  simp [await, Task.withLock, Task.perform, Task.alone, exec, hmiss, renderLocked, renderFilter] at hrun
  cases hkeys : hashKeys s.index with
  | none => simp [hkeys, Task.alone] at hrun
  | some read =>
    obtain ⟨keys, generation⟩ := read
    have hgeneration : generation = s.index.generation := by
      simp [hashKeys, Option.bind_eq_some_iff] at hkeys
      obtain ⟨_, _, _, rfl⟩ := hkeys
      rfl
    subst hgeneration
    cases hrendered : rendered libs algorithm keys s.index.generation (env 4).timestamp rate (env 5).seed with
    | error e => simp [hkeys, Task.alone, exec, hrendered] at hrun
    | ok filter =>
      simp [hkeys, Task.alone, exec, hrendered] at hrun
      obtain ⟨rfl, -, rfl⟩ := hrun
      exact ⟨keys, _, _, filter, hrendered, rfl, rfl⟩

/-! ## Two requests -/

/-- A request is served the filter of an earlier response, from the cache and without another rendering. -/
def Reused (libs : FilterLibs) (algorithm : String) (fp : Option F64) (headers headers' : Headers) (response : FilterResponse)
    (t : Tid) (env : Nat → FilterEnv) (s : FilterState) : Prop :=
  ∃ filter, s.filterCache = some filter ∧ response = filterResponse headers filter.etag filter.body ∧
    ((getFilter libs algorithm fp headers').alone (exec t) env 0 s).1 =
      .responded (.ok (filterResponse headers' filter.etag filter.body)) ∧
    FilterReq.hashKeys ∉ (getFilter libs algorithm fp headers').requests (exec t) env 0 s

/-- The rate that a filter is kept under is the rate that is looked for. -/
def Findable (algorithm : String) (rate : F64) : Prop :=
  algorithm = "bloom" ∨ rate = 0x3F847AE147AE147B

/-- A filter is findable exactly when the key of the cache is its rate. -/
theorem findable_iff : Findable algorithm rate ↔ rate = fpRateBits algorithm rate := by
  unfold Findable fpRateBits
  split <;> simp [*]

/-- A cache that holds the filter of a response serves the next request. -/
theorem reused_of_hit {headers' : Headers} {filter : CachedFilter} (hrate : fpRate fp = some rate)
    (hhit : hit s.index.generation (fpRateBits algorithm rate) s.filterCache = some filter) :
    Reused libs algorithm fp headers headers' (filterResponse headers filter.etag filter.body) t env s := by
  obtain ⟨halone, hrequests⟩ := getFilter_hit libs headers' env t hrate hhit
  refine ⟨filter, ?_, rfl, by rw [halone], by simp [hrequests]⟩
  exact (Option.filter_eq_some_iff.1 hhit).1

/-- A filter that was just rendered is found again exactly when its rate is the key of the cache. -/
theorem hit_rendered {keys : List Str} {timestamp : Int} {seed generation : Nat} {filter : CachedFilter}
    (h : rendered libs algorithm keys generation timestamp rate seed = .ok filter) :
    hit generation (fpRateBits algorithm rate) (some filter) = if rate = fpRateBits algorithm rate then some filter else none := by
  obtain ⟨hgeneration, hbits, _⟩ := rendered_eq_ok h
  unfold hit
  rw [Option.filter_some]
  simp [hgeneration, hbits]

/-- The next request with the rate of a successful one is served its filter from the cache exactly when the filter is findable,
or was in the cache before. -/
theorem next_request_served (libs : FilterLibs) (algorithm : String) (fp : Option F64) (rate : F64) (headers headers' : Headers)
    (t t' : Tid) (env env' : Nat → FilterEnv) (s s' : FilterState) (response : FilterResponse) (n : Nat)
    (hrate : fpRate fp = some rate)
    (hrun : (getFilter libs algorithm fp headers).alone (exec t) env 0 s = (.responded (.ok response), n, s')) :
    Reused libs algorithm fp headers headers' response t' env' s' ↔
      Findable algorithm rate ∨ (hit s.index.generation (fpRateBits algorithm rate) s.filterCache).isSome := by
  cases hcached : hit s.index.generation (fpRateBits algorithm rate) s.filterCache with
  | some filter =>
    rw [(getFilter_hit _ _ _ _ hrate hcached).1] at hrun
    simp at hrun
    obtain ⟨rfl, -, rfl⟩ := hrun
    simp [reused_of_hit hrate hcached]
  | none =>
    obtain ⟨keys, timestamp, seed, filter, hrendered, rfl, rfl⟩ := getFilter_miss hrate hcached hrun
    rw [findable_iff]
    constructor
    · intro hreused
      obtain ⟨_, _, _, _, hunread⟩ := hreused
      by_contra hfindable
      refine hunread (getFilter_miss_renders hrate ?_)
      rw [hit_rendered hrendered, if_neg (by simpa using hfindable)]
    · intro hfindable
      apply reused_of_hit hrate
      rw [hit_rendered hrendered, if_pos (by simpa using hfindable)]

/-- The empty filter of an empty index, with the default rate, is served again from the cache a minute later. -/
theorem next_request_served_default :
    Reused Sample.filterLibs "binary-fuse-16" none [] [] ⟨200, some "application/json", ['"', '0', '0', '"'], "max-age=60", [0]⟩ 1
      (fun _ => ⟨1700000060, 0⟩) ⟨.empty, some ⟨0, 0x3F847AE147AE147B, [0], ['"', '0', '0', '"']⟩⟩ :=
  (next_request_served Sample.filterLibs "binary-fuse-16" none 0x3F847AE147AE147B [] [] 0 1 (fun _ => ⟨1700000000, 0⟩)
    (fun _ => ⟨1700000060, 0⟩) ⟨.empty, none⟩ ⟨.empty, some ⟨0, 0x3F847AE147AE147B, [0], ['"', '0', '0', '"']⟩⟩
    ⟨200, some "application/json", ['"', '0', '0', '"'], "max-age=60", [0]⟩ 7 rfl (by rfl)).2 (.inl (.inr rfl))

/-- A binary fuse filter that is asked for with a rate of 0.1 is kept under 0.1 and looked for under 0.01: the next request renders
it again. -/
theorem next_request_served_false :
    ¬ ∀ (libs : FilterLibs) (algorithm : String) (fp : Option F64) (rate : F64) (headers headers' : Headers) (t t' : Tid)
      (env env' : Nat → FilterEnv) (s s' : FilterState) (response : FilterResponse) (n : Nat), fpRate fp = some rate →
      (getFilter libs algorithm fp headers).alone (exec t) env 0 s = (.responded (.ok response), n, s') →
      Reused libs algorithm fp headers headers' response t' env' s' := by
  intro h
  obtain ⟨_, _, _, _, hunread⟩ := h Sample.filterLibs "binary-fuse-16" (some 0x3FB999999999999A) 0x3FB999999999999A [] [] 0 1
    (fun _ => ⟨1700000000, 0⟩) (fun _ => ⟨1700000060, 0⟩) ⟨.empty, none⟩
    ⟨.empty, some ⟨0, 0x3FB999999999999A, [0], ['"', '0', '0', '"']⟩⟩
    ⟨200, some "application/json", ['"', '0', '0', '"'], "max-age=60", [0]⟩ 7 (by decide) (by rfl)
  have hrate : fpRate (some 0x3FB999999999999A) = some 0x3FB999999999999A := by decide
  exact hunread (getFilter_miss_renders hrate (by decide))

end Almond.BlobFilter
