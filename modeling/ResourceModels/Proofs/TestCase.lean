import ResourceModels.Proofs.Outcome
import ResourceModels.TestCase.Document

/-!
# Strict and lenient decoding

Which items a document lists does not depend on the mode. An item that is no test, no well-formed
one or no valid one has a fault; strict decoding is lenient decoding unless an item stands in its
way, and then it fails with the fault of an item.
-/

namespace ResourceModels

/-- Why an item is no valid test, if it is none. -/
def RenderedItem.fault? : RenderedItem → Option TestCaseError
  | .test t =>
    match t.validate with
    | .ok () => none
    | .error cause => some cause
  | .unrecognized kind => some (.unrecognized kind)
  | .malformed kind reason => some (.malformed kind reason)

namespace TestCase

/-- The items that a rendered document lists. -/
def items? (contents : ByteArray) : Option (List Json) :=
  (readDocument contents Yaml.Walk.json).toOption.bind fun j =>
    (j.get? "items").bind Json.items?

variable {contents : ByteArray} {items : List Json} {cases : List TestCase} {mode : DecodeMode}

theorem decode_of_items? (h : items? contents = some items) (mode : DecodeMode) :
    decode contents mode = ofItems mode items := by
  unfold items? at h
  unfold decode
  cases hread : readDocument contents Yaml.Walk.json with
  | error cause =>
    rw [hread] at h
    cases h
  | ok j =>
    rw [hread] at h
    have hitems : (j.get? "items").bind Json.items? = some items := h
    simp only [hitems]

/-- Without a list of items no mode gives test cases. -/
theorem decode_of_noItems (h : items? contents = none) :
    ∃ cause, ∀ mode, decode contents mode = .error cause := by
  unfold items? at h
  unfold decode
  cases hread : readDocument contents Yaml.Walk.json with
  | error cause => exact ⟨.malformedText, fun _ => rfl⟩
  | ok j =>
    rw [hread] at h
    have hitems : (j.get? "items").bind Json.items? = none := h
    exact ⟨.missingItems, fun _ => by simp only [hitems]⟩

/-- Strict decoding passes over nothing, so what it gives is what lenient decoding gives. -/
theorem ofItems_lenient_of_strict (h : ofItems .strict items = .ok cases) :
    ofItems .lenient items = .ok cases := by
  induction items generalizing cases with
  | nil => exact h
  | cons j rest ih =>
    cases hj : RenderedItem.ofJson j with
    | test t =>
      simp only [ofItems, hj, Outcome.bind_eq_ok, Outcome.pure_eq_ok] at h ⊢
      obtain ⟨more, hmore, rfl⟩ := h
      exact ⟨more, ih hmore, rfl⟩
    | unrecognized kind => simp [ofItems, hj] at h
    | malformed kind reason => simp [ofItems, hj] at h

theorem exists_of_ofItems_strict_error {cause : TestCaseError}
    (h : ofItems .strict items = .error cause) :
    ∃ item ∈ items, (RenderedItem.ofJson item).fault? = some cause := by
  induction items with
  | nil => cases h
  | cons j rest ih =>
    cases hj : RenderedItem.ofJson j with
    | test t =>
      cases hrest : ofItems .strict rest with
      | ok more =>
        simp only [ofItems, hj, hrest] at h
        cases h
      | error cause' =>
        simp only [ofItems, hj, hrest] at h
        cases h
        obtain ⟨item, hitem, hfault⟩ := ih hrest
        exact ⟨item, List.mem_cons_of_mem _ hitem, hfault⟩
    | unrecognized kind =>
      simp only [ofItems, hj] at h
      cases h
      exact ⟨j, List.mem_cons_self, by rw [hj]; rfl⟩
    | malformed kind reason =>
      simp only [ofItems, hj] at h
      cases h
      exact ⟨j, List.mem_cons_self, by rw [hj]; rfl⟩

/-- Every test case is an item, in either mode. -/
theorem exists_item_of_mem (h : ofItems mode items = .ok cases) {t : TestCase} (ht : t ∈ cases) :
    ∃ item ∈ items, RenderedItem.ofJson item = .test t := by
  induction items generalizing cases with
  | nil =>
    cases h
    cases ht
  | cons j rest ih =>
    have hskip : ofItems mode rest = .ok cases →
        ∃ item ∈ j :: rest, RenderedItem.ofJson item = .test t := by
      intro hrest
      obtain ⟨item, hitem, hown⟩ := ih hrest ht
      exact ⟨item, List.mem_cons_of_mem _ hitem, hown⟩
    cases hj : RenderedItem.ofJson j with
    | test own =>
      simp only [ofItems, hj, Outcome.bind_eq_ok, Outcome.pure_eq_ok] at h
      obtain ⟨more, hmore, rfl⟩ := h
      rcases List.mem_cons.mp ht with rfl | ht
      · exact ⟨j, List.mem_cons_self, hj⟩
      · obtain ⟨item, hitem, hown⟩ := ih hmore ht
        exact ⟨item, List.mem_cons_of_mem _ hitem, hown⟩
    | unrecognized kind =>
      cases mode with
      | strict => simp [ofItems, hj] at h
      | lenient => exact hskip (by simpa only [ofItems, hj] using h)
    | malformed kind reason =>
      cases mode with
      | strict => simp [ofItems, hj] at h
      | lenient => exact hskip (by simpa only [ofItems, hj] using h)

end TestCase

theorem EndToEndTest.validate_of_parse {contents : ByteArray} {t : EndToEndTest}
    (h : EndToEndTest.parse contents = .ok t) : (TestCase.endToEnd t).validate = .ok () := by
  unfold parse at h
  split at h
  · cases h
  · next own hread =>
    split at h
    · cases h
    · obtain ⟨⟨⟩, hvalid, hown⟩ := Outcome.bind_eq_ok.mp h
      cases Outcome.pure_eq_ok.mp hown
      exact hvalid

end ResourceModels
