import Almond.Lemmas.ConfigDocumentAux

/-! # Importing and exporting documents -/

namespace Almond.ConfigEditor

open Tiling

/-! ## An import loses nothing -/

/-- A text that the editor takes in and gives back: its entries tile it in order, it is accepted, and the form that it fills is
written as the same text. -/
structure Lossless (text : JsString) : Prop where
  tiled : Contiguous Entry.start Entry.length 0 (splitLogicalLines text) text.length
  nonempty : ∀ e ∈ splitLogicalLines text, e.start < e.end
  unchanged : ∃ doc, buildDocument (some text) = some doc ∧ buildExport doc (loadFromDocument doc).1 = text

/-- A text is imported without loss exactly when none of its assignments is to a name that every object of the page has. -/
theorem import_lossless_iff (text : JsString) :
    Lossless text ↔ ∀ e ∈ splitLogicalLines text, ∀ key, e.key? = some key → key ∉ objectPrototype := by
  constructor
  · intro h
    obtain ⟨doc, hdoc, _⟩ := h.unchanged
    exact exists_buildDocument_iff.1 ⟨doc, hdoc⟩
  · intro h
    obtain ⟨doc, hdoc⟩ := exists_buildDocument_iff.2 h
    obtain ⟨hbuilt, hsource⟩ := built_of_buildDocument hdoc
    obtain ⟨htiled, hnonempty⟩ := splitLogicalLines_contiguous text
    refine ⟨htiled, hnonempty, doc, hdoc, ?_⟩
    rw [buildExport_of_not_edited hbuilt fun name hname => hbuilt.isEdited_loadFromDocument hname, hsource]

/-- A variable with the name of a method of every object: the import fails. -/
theorem import_lossless_false : ¬ Lossless (js "toString=1\n") := by
  intro h
  obtain ⟨doc, hdoc, _⟩ := h.unchanged
  have hnone : buildDocument (some (js "toString=1\n")) = none := by decide
  rw [hnone] at hdoc
  nomatch hdoc

end Almond.ConfigEditor
