import Almond.Lemmas.ConfigValidationAux
import Mathlib.Data.List.Nodup

/-! # Variables of the form and arguments of the server

A form that has no errors, and the environment that it is saved as. Each argument of the server reads the variable of its name, or the
same default. -/

namespace Almond.ConfigEditor

open ServerConfig

variable {isUrl : JsString → Bool} {states : FieldStates} {f : SchemaField} {name default : String} {s : JsString} {n : Nat}

/-! ## The schema -/

/-- A number that tells the variables of the schema apart. -/
def checksum (name : JsString) : Nat :=
  name.foldl (fun n c => (257 * n + c.toNat) % 65537) 0

/-- No two variables have the same name. -/
theorem nodup_names : (almondSchema.map SchemaField.name).Nodup := by
  have hnodup : ((almondSchema.map SchemaField.name).map checksum).Nodup := by decide
  exact hnodup.of_map checksum

/-- The first of some variables with distinct names that has a name is the one that has it. -/
theorem find?_name {fields : List SchemaField} (h : (fields.map SchemaField.name).Nodup) (hf : f ∈ fields) :
    fields.find? (fun g => g.name = f.name) = some f := by
  induction fields with
  | nil => nomatch hf
  | cons g fields ih =>
    obtain ⟨hnot, hnodup⟩ := List.nodup_cons.1 h
    rcases List.mem_cons.1 hf with rfl | hf
    · simp
    · have hne : g.name ≠ f.name := fun heq => hnot (heq ▸ List.mem_map_of_mem hf)
      rw [List.find?_cons_of_neg (by simpa using hne), ih hnodup hf]

/-- A variable of the schema is found by its name. -/
theorem schemaByName_of_mem (hf : f ∈ almondSchema) : schemaByName f.name = some f :=
  find?_name nodup_names hf

/-! ## A form without errors -/

/-- The environment that a form is saved as. A variable that is switched off is not set. -/
def environment (states : FieldStates) : ServerConfig.Env :=
  fun name => if (states (js name)).enabled then saved (states (js name)).value else []

/-- A variable that is switched on and not empty. -/
def Filled (states : FieldStates) (name : JsString) : Prop :=
  (states name).enabled = true ∧ (states name).value ≠ []

/-- A form of literal values in which no error is found. -/
structure LetThrough (isUrl : JsString → Bool) (states : FieldStates) : Prop where
  literal : ∀ f ∈ almondSchema, (states f.name).hasReference = false
  fields : perFieldErrors isUrl states = []
  cross : crossFieldErrors isUrl states = []

/-- What is filled is in the environment. -/
theorem environment_of_filled (h : Filled states (js name)) : environment states name = saved (states (js name)).value :=
  if_pos h.1

/-- What is not filled is not set. -/
theorem environment_eq_nil_iff : environment states name = [] ↔ ¬ Filled states (js name) := by
  unfold environment Filled
  split
  · rename_i henabled
    simp [saved_eq_nil_iff, henabled]
  · rename_i henabled
    simp [henabled]

namespace LetThrough

/-- What is filled passes its check. -/
theorem valid (h : LetThrough isUrl states) (hf : f ∈ almondSchema) (hfilled : Filled states f.name) :
    validateFieldValue isUrl f (states f.name).value = none := by
  have hnone := List.filterMap_eq_nil_iff.1 h.fields f hf
  simp only [hfilled.1, h.literal f hf, resolveEffective, schemaByName_of_mem hf, hfilled.2] at hnone
  cases hvalid : validateFieldValue isUrl f (states f.name).value with
  | none => rfl
  | some err => simp [hvalid] at hnone

/-- What is filled is in effect. -/
theorem resolve_filled (h : LetThrough isUrl states) (hf : f ∈ almondSchema) (hfilled : Filled states f.name) :
    resolveEffective isUrl states f.name = .value (some (states f.name).value) := by
  simp [resolveEffective, schemaByName_of_mem hf, hfilled.1, hfilled.2, h.literal f hf, h.valid hf hfilled]

/-- Where nothing is filled, the default is in effect. -/
theorem resolve_unfilled (h : LetThrough isUrl states) (hf : f ∈ almondSchema) (hconditional : f.conditionalDefault = false)
    (hfilled : ¬ Filled states f.name) : resolveEffective isUrl states f.name = .value f.default := by
  have hdefault : effectiveDefault states f = f.default := by simp [effectiveDefault, hconditional]
  by_cases henabled : (states f.name).enabled = true
  · have hnil : (states f.name).value = [] := by
      by_contra hne
      exact hfilled ⟨henabled, hne⟩
    simp [resolveEffective, schemaByName_of_mem hf, henabled, h.literal f hf, hnil, hdefault]
  · simp [resolveEffective, schemaByName_of_mem hf, henabled, hdefault]

end LetThrough

/-! ## Arguments with a default -/

/-- An argument that is filled, or that has its default. -/
theorem one_cases {α : Type} (parse : Str → Except Str α) (states : FieldStates) (name default : String) :
    Filled states (js name) ∧ one parse (environment states) name default = parse (saved (states (js name)).value) ∨
      ¬ Filled states (js name) ∧ one parse (environment states) name default = parse default.toList := by
  by_cases h : Filled states (js name)
  · have hne : environment states name ≠ [] := fun hnil => environment_eq_nil_iff.1 hnil h
    exact .inl ⟨h, by rw [one, if_neg hne, environment_of_filled h]⟩
  · exact .inr ⟨h, by rw [one, if_pos (environment_eq_nil_iff.2 h)]⟩

/-- No byte order mark around what is filled. -/
def Markless (states : FieldStates) (name : JsString) : Prop :=
  Filled states name → byteOrderMark ∉ (states name).value

/-- A duration or a size is parsed exactly when there is no byte order mark around it, to the number that is in effect. -/
theorem LetThrough.measured (h : LetThrough isUrl states) (hf : f ∈ almondSchema) (hname : f.name = js name)
    (hdefault : f.default = some (js default)) (hconditional : f.conditionalDefault = false) {read : JsString → Option Nat}
    {parse : Str → Except Str Nat}
    (hvalid : ∀ v, validateFieldValue isUrl f v = none → ∃ n, read v = some n ∧ n ≤ u64Max ∧ (f.nonZero = true → n ≠ 0))
    (hagree : ∀ {raw n}, read raw = some n → n ≤ u64Max → (byteOrderMark ∉ raw → parse (saved raw) = .ok n) ∧
      ∀ m, parse (saved raw) = .ok m → byteOrderMark ∉ raw)
    (hread : read (js default) = some n) (hzero : f.nonZero = true → n ≠ 0) (hparse : parse default.toList = .ok n) :
    (Succeeds (one parse (environment states) name default) ↔ Markless states (js name)) ∧
      ∃ n, (resolveEffective isUrl states (js name)).value?.bind read = some n ∧ (f.nonZero = true → n ≠ 0) ∧
        ∀ m, one parse (environment states) name default = .ok m → m = n := by
  rcases one_cases parse states name default with ⟨hfilled, hone⟩ | ⟨hfilled, hone⟩
  · obtain ⟨n, hn, hle, hpos⟩ := hvalid _ (h.valid hf (hname ▸ hfilled))
    have hresolve := h.resolve_filled hf (hname ▸ hfilled)
    rw [hname] at hn hresolve
    obtain ⟨hparsed, hmark⟩ := hagree hn hle
    refine ⟨⟨fun ⟨m, hm⟩ _ => hmark m (hone ▸ hm), fun hmarkless => ⟨n, hone.trans (hparsed (hmarkless hfilled))⟩⟩, n, ?_, hpos, ?_⟩
    · rw [hresolve]
      exact hn
    · intro m hm
      rw [hone] at hm
      exact Except.ok.inj (hm.symm.trans (hparsed (hmark m hm)))
  · have hresolve := h.resolve_unfilled hf hconditional (hname ▸ hfilled)
    rw [hname, hdefault] at hresolve
    refine ⟨⟨fun _ hfill => absurd hfill hfilled, fun _ => ⟨n, hone.trans hparse⟩⟩, n, ?_, hzero, ?_⟩
    · rw [hresolve]
      exact hread
    · intro m hm
      exact Except.ok.inj (hm.symm.trans (hone.trans hparse))

/-- A duration that passes its check. -/
theorem valid_duration (hkind : f.kind = .duration) {v : JsString} (h : validateFieldValue isUrl f v = none) :
    ∃ n, ConfigEditor.parseDuration v = some n ∧ n ≤ u64Max ∧ (f.nonZero = true → n ≠ 0) := by
  simp only [validateFieldValue, hkind] at h
  split at h
  · nomatch h
  · rename_i n hn
    split at h
    · nomatch h
    · rename_i hle
      split at h
      · nomatch h
      · rename_i hzero
        exact ⟨n, hn, Nat.le_of_not_lt hle, fun hnz hn => hzero ⟨hnz, hn⟩⟩

/-- A size that passes its check. -/
theorem valid_size (hkind : f.kind = .size) (hzero : f.nonZero = false) {v : JsString} (h : validateFieldValue isUrl f v = none) :
    ∃ n, ConfigEditor.parseSize v = some n ∧ n ≤ u64Max ∧ (f.nonZero = true → n ≠ 0) := by
  simp only [validateFieldValue, hkind] at h
  split at h
  · nomatch h
  · rename_i n hn
    split at h
    · nomatch h
    · rename_i hle
      exact ⟨n, hn, Nat.le_of_not_lt hle, fun hnz => nomatch hzero.symm.trans hnz⟩

/-- No white space around what is filled. -/
def Spaceless (states : FieldStates) (name : JsString) : Prop :=
  Filled states name → NoSpace (states name).value

/-- A count is parsed exactly when there is no white space around it. -/
theorem LetThrough.counted (h : LetThrough isUrl states) (hf : f ∈ almondSchema) (hname : f.name = js name) (hkind : f.kind = .number)
    (hparse : Succeeds (parseUnsigned u64Max default.toList)) :
    Succeeds (one (parseUnsigned u64Max) (environment states) name default) ↔ Spaceless states (js name) := by
  rcases one_cases (parseUnsigned u64Max) states name default with ⟨hfilled, hone⟩ | ⟨hfilled, hone⟩
  · have hvalid := h.valid hf (hname ▸ hfilled)
    simp only [validateFieldValue, hkind, hname] at hvalid
    split at hvalid
    · nomatch hvalid
    · rename_i hdigits
      split at hvalid
      · nomatch hvalid
      · rename_i hle
        have hle := (Doubles.nearest_le_iff (by decide)).1 (Nat.le_of_not_lt hle)
        have hmax : maxSafeInteger ≤ u64Max := by decide
        rw [hone, parseUnsigned_saved (by simpa using hdigits) (hle.trans hmax)]
        exact ⟨fun hspace _ => hspace, fun hspace => hspace hfilled⟩
  · rw [hone]
    exact ⟨fun _ hfill => absurd hfill hfilled, fun _ => hparse⟩

/-- A switch is parsed exactly when there is no white space around it. -/
theorem LetThrough.switched (h : LetThrough isUrl states) (hf : f ∈ almondSchema) (hname : f.name = js name) (hkind : f.kind = .bool)
    (hparse : Succeeds (parseEnum boolishWords default.toList)) :
    Succeeds (one (parseEnum boolishWords) (environment states) name default) ↔ Spaceless states (js name) := by
  rcases one_cases (parseEnum boolishWords) states name default with ⟨hfilled, hone⟩ | ⟨hfilled, hone⟩
  · have hvalid := h.valid hf (hname ▸ hfilled)
    simp only [validateFieldValue, hkind, hname] at hvalid
    split at hvalid
    · rename_i hword
      rw [hone, parseEnum_boolish_saved hword]
      exact ⟨fun hspace _ => hspace, fun hspace => hspace hfilled⟩
    · nomatch hvalid
  · rw [hone]
    exact ⟨fun _ hfill => absurd hfill hfilled, fun _ => hparse⟩

/-- An access mode is parsed as the mode that is in effect. -/
theorem LetThrough.moded (h : LetThrough isUrl states) (hf : f ∈ almondSchema) (hname : f.name = js name) (hkind : f.kind = .enum)
    (hvalues : f.values = some modeNames) (hdefault : f.default = some (js default)) (hconditional : f.conditionalDefault = false)
    {mode : FeatureMode} (hparse : parseEnum featureModes default.toList = .ok mode) (hdvm : mode = .dvm ↔ js default = js "dvm") :
    ∃ mode, one (parseEnum featureModes) (environment states) name default = .ok mode ∧
      (mode = .dvm ↔ (resolveEffective isUrl states (js name)).value? = some (js "dvm")) := by
  rcases one_cases (parseEnum featureModes) states name default with ⟨hfilled, hone⟩ | ⟨hfilled, hone⟩
  · have hvalid := h.valid hf (hname ▸ hfilled)
    have hresolve := h.resolve_filled hf (hname ▸ hfilled)
    simp only [validateFieldValue, hkind, hname, hvalues, Option.getD_some] at hvalid
    split at hvalid
    · rename_i hmem
      obtain ⟨mode, hmode, hiff⟩ := parseEnum_mode_saved hmem
      refine ⟨mode, hone.trans hmode, ?_⟩
      rw [hname] at hresolve
      rw [hresolve, hiff]
      exact ⟨fun heq => congrArg some heq, Option.some.inj⟩
    · nomatch hvalid
  · have hresolve := h.resolve_unfilled hf hconditional (hname ▸ hfilled)
    rw [hname, hdefault] at hresolve
    refine ⟨mode, hone.trans hparse, ?_⟩
    rw [hresolve, hdvm]
    exact ⟨fun heq => congrArg some heq, Option.some.inj⟩

/-! ## Lists -/

/-- A list is parsed exactly when each of its elements is, and is empty exactly when it is not set. -/
theorem many_iff {α : Type} (parse : Str → Except Str α) (states : FieldStates) (name : String) :
    (Succeeds (many parse (environment states) name) ↔
      (Filled states (js name) → ∀ e ∈ elements (states (js name)).value, Succeeds (parse (saved e)))) ∧
      ∀ as, many parse (environment states) name = .ok as → (as = [] ↔ ¬ Filled states (js name)) := by
  by_cases h : Filled states (js name)
  · have hne : environment states name ≠ [] := fun hnil => environment_eq_nil_iff.1 hnil h
    rw [many, if_neg hne, environment_of_filled h]
    refine ⟨(mapM_saved_iff parse _).trans ⟨fun hall _ => hall, fun hall => hall h⟩, fun as has => ?_⟩
    have hlength := length_mapM has
    have hpos := List.length_pos_iff.2 (List.splitOn_ne_nil ',' (saved (states (js name)).value))
    refine ⟨fun hnil => ?_, fun hnot => absurd h hnot⟩
    rw [hnil, List.length_nil] at hlength
    omega
  · rw [many, if_pos (environment_eq_nil_iff.2 h)]
    exact ⟨⟨fun _ hfill => absurd hfill h, fun _ => ⟨_, rfl⟩⟩, fun as has => by cases has; simp [h]⟩

/-! ## Arguments by their place in the schema -/

/-- An argument that is parsed exactly when there is no byte order mark around it, to the number that is in effect. -/
def Measured (isUrl : JsString → Bool) (states : FieldStates) (read : JsString → Option Nat) (parse : Str → Except Str Nat)
    (nonZero : Bool) (name default : String) : Prop :=
  (Succeeds (one parse (environment states) name default) ↔ Markless states (js name)) ∧
    ∃ n, (resolveEffective isUrl states (js name)).value?.bind read = some n ∧ (nonZero = true → n ≠ 0) ∧
      ∀ m, one parse (environment states) name default = .ok m → m = n

namespace LetThrough

/-- The duration in a place of the schema. -/
theorem duration (h : LetThrough isUrl states) (name default : String) (i n : Nat) {nonZero : Bool}
    (hf : almondSchema[i]? = some ⟨js name, .duration, none, some (js default), nonZero, false⟩)
    (hread : ConfigEditor.parseDuration (js default) = some n) (hzero : nonZero = true → n ≠ 0)
    (hparse : ServerConfig.parseDuration default.toList = .ok n) :
    Measured isUrl states ConfigEditor.parseDuration ServerConfig.parseDuration nonZero name default :=
  h.measured (List.mem_of_getElem? hf) rfl rfl rfl (fun _ => valid_duration rfl) parseDuration_saved hread hzero hparse

/-- The size in a place of the schema. -/
theorem size (h : LetThrough isUrl states) (name default : String) (i n : Nat)
    (hf : almondSchema[i]? = some ⟨js name, .size, none, some (js default), false, false⟩)
    (hread : ConfigEditor.parseSize (js default) = some n) (hparse : ServerConfig.parseSize default.toList = .ok n) :
    Measured isUrl states ConfigEditor.parseSize ServerConfig.parseSize false name default :=
  h.measured (List.mem_of_getElem? hf) rfl rfl rfl (fun _ => valid_size rfl rfl) parseSize_saved hread nofun hparse

/-- The count in a place of the schema. -/
theorem count (h : LetThrough isUrl states) (name default : String) (i : Nat)
    (hf : almondSchema[i]? = some ⟨js name, .number, none, some (js default), false, false⟩)
    (hparse : Succeeds (parseUnsigned u64Max default.toList)) :
    Succeeds (one (parseUnsigned u64Max) (environment states) name default) ↔ Spaceless states (js name) :=
  h.counted (List.mem_of_getElem? hf) rfl rfl hparse

/-- The access mode in a place of the schema. -/
theorem access (h : LetThrough isUrl states) (name default : String) (i : Nat) {mode : FeatureMode}
    (hf : almondSchema[i]? = some ⟨js name, .enum, some modeNames, some (js default), false, false⟩)
    (hparse : parseEnum featureModes default.toList = .ok mode) (hdvm : mode = .dvm ↔ js default = js "dvm") :
    ∃ mode, one (parseEnum featureModes) (environment states) name default = .ok mode ∧
      (mode = .dvm ↔ (resolveEffective isUrl states (js name)).value? = some (js "dvm")) :=
  h.moded (List.mem_of_getElem? hf) rfl rfl rfl rfl rfl hparse hdvm

/-- The kinds that are let through are numbers, where there is anything. -/
theorem kind (h : LetThrough isUrl states) (hfilled : Filled states (js "ALMOND_DVM_KINDS")) :
    ∀ e ∈ elements (states (js "ALMOND_DVM_KINDS")).value, trim e ≠ [] → isDigits (trim e) = true ∧ bigInt (trim e) ≤ u16Max := by
  intro e he hne
  have hf : (⟨js "ALMOND_DVM_KINDS", .listU16, none, none, false, false⟩ : SchemaField) ∈ almondSchema :=
    List.mem_of_getElem? (i := 46) rfl
  have hvalid := h.valid hf hfilled
  simp only [validateFieldValue] at hvalid
  split at hvalid
  · nomatch hvalid
  · have hnone := List.find?_eq_none.1 (Option.map_eq_none_iff.1 hvalid) (trim e) (mem_splitList.2 ⟨hne, e, he, rfl⟩)
    simp only [Bool.or_eq_true, Bool.not_eq_true', decide_eq_true_eq, not_or, Bool.not_eq_false, Nat.not_lt] at hnone
    exact ⟨hnone.1, (Doubles.nearest_le_iff (by decide)).1 hnone.2⟩

/-- The operations that are let through are operations, where there is anything. -/
theorem paid (h : LetThrough isUrl states) (hfilled : Filled states (js "ALMOND_CASHU_PAID")) :
    ∀ e ∈ elements (states (js "ALMOND_CASHU_PAID")).value, trim e ≠ [] → trim e ∈ paidNames := by
  intro e he hne
  have hf : (⟨js "ALMOND_CASHU_PAID", .list, some paidNames, none, false, false⟩ : SchemaField) ∈ almondSchema :=
    List.mem_of_getElem? (i := 40) rfl
  have hvalid := h.valid hf hfilled
  simp only [validateFieldValue] at hvalid
  split at hvalid
  · nomatch hvalid
  · have hnone := List.find?_eq_none.1 (Option.map_eq_none_iff.1 hvalid) (trim e) (mem_splitList.2 ⟨hne, e, he, rfl⟩)
    simpa using hnone

end LetThrough

end Almond.ConfigEditor
