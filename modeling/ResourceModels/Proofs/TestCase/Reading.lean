import ResourceModels.Proofs.Decode.Document
import ResourceModels.Proofs.TestCase
import ResourceModels.Proofs.TestCase.Rereading

/-!
# Tests that are read

Every test among the items of a document is in order, and so is the end-to-end test of a manifest
file. As both have the kind by which they are told, they are read again once they are written.
-/

namespace ResourceModels

open Yaml (Event Value)
open Yaml.Walk (Gives)

variable {d : Dialect} {j : Json}

namespace Decode

theorem isPresent_of_optional {x : Option Json} (h : optional (json d) (.ofJson j) = .ok x) :
    Json.IsPresent x := by
  by_cases hnull : j = .null
  · subst hnull
    cases h
    exact fun _ hj => absurd hj (Option.not_mem_none _)
  · rw [Schema.optional_of_ne_null _ hnull, json_ofJson] at h
    cases h
    rintro _ ⟨⟩
    refine ⟨Json.sorted_sorted j, ?_⟩
    cases j <;> simp_all [Json.sorted]

theorem lt_of_word {bits n : Nat} {v : Value} (h : word d bits v = .ok n) :
    n < Nat.pow 2 bits := by
  unfold word at h
  split at h
  · split at h
    · next hrange =>
      cases h
      omega
    · cases h
  · cases h

theorem lt_of_optional_word {bits : Nat} {v : Value} {x : Option Nat}
    (h : optional (word d bits) v = .ok x) : ∀ n ∈ x, n < Nat.pow 2 bits :=
  optional_preserves (fun _ _ => lt_of_word) h

end Decode

namespace CompositionTest

variable {t t' : CompositionTest} {key : String}

theorem takeSpec_keeps (h : takeSpec d t key (.ofJson j) = .ok t') :
    (t.InOrder → t'.InOrder) ∧ t'.kind = t.kind := by
  unfold takeSpec at h
  dsimp only at h
  split at h
  · obtain ⟨_, hread, rfl⟩ := Outcome.bind_pure_eq_ok.mp h
    exact ⟨fun ht => { ht with timeoutSeconds := Decode.lt_of_optional_word hread }, rfl⟩
  · obtain ⟨_, -, rfl⟩ := Outcome.bind_pure_eq_ok.mp h
    exact ⟨fun ht => { ht with }, rfl⟩
  · obtain ⟨_, hread, rfl⟩ := Outcome.bind_pure_eq_ok.mp h
    exact ⟨fun ht => { ht with xr := Decode.isPresent_of_optional hread }, rfl⟩
  · obtain ⟨_, -, rfl⟩ := Outcome.bind_pure_eq_ok.mp h
    exact ⟨fun ht => { ht with }, rfl⟩
  · obtain ⟨_, hread, rfl⟩ := Outcome.bind_pure_eq_ok.mp h
    exact ⟨fun ht => { ht with xrd := Decode.isPresent_of_optional hread }, rfl⟩
  · obtain ⟨_, -, rfl⟩ := Outcome.bind_pure_eq_ok.mp h
    exact ⟨fun ht => { ht with }, rfl⟩
  · obtain ⟨_, hread, rfl⟩ := Outcome.bind_pure_eq_ok.mp h
    exact ⟨fun ht => { ht with composition := Decode.isPresent_of_optional hread }, rfl⟩
  · obtain ⟨_, -, rfl⟩ := Outcome.bind_pure_eq_ok.mp h
    exact ⟨fun ht => { ht with }, rfl⟩
  · obtain ⟨_, hread, rfl⟩ := Outcome.bind_pure_eq_ok.mp h
    exact ⟨fun ht => { ht with observedResources := Decode.inOrder_of_list hread }, rfl⟩
  · obtain ⟨_, hread, rfl⟩ := Outcome.bind_pure_eq_ok.mp h
    exact ⟨fun ht => { ht with extraResources := Decode.inOrder_of_list hread }, rfl⟩
  · obtain ⟨_, hread, rfl⟩ := Outcome.bind_pure_eq_ok.mp h
    exact ⟨fun ht => { ht with context := Decode.inOrder_of_list hread }, rfl⟩
  · obtain ⟨_, hread, rfl⟩ := Outcome.bind_pure_eq_ok.mp h
    exact ⟨fun ht => { ht with assert := Decode.inOrder_of_list hread }, rfl⟩
  · cases h
    exact ⟨id, rfl⟩

theorem take_keeps (h : take d t key (.ofJson j) = .ok t') :
    (t.InOrder → t'.InOrder) ∧ (key ≠ "kind" → t'.kind = t.kind) := by
  unfold take at h
  split at h
  · obtain ⟨_, -, rfl⟩ := Outcome.bind_pure_eq_ok.mp h
    exact ⟨fun ht => { ht with }, fun _ => rfl⟩
  · obtain ⟨_, -, rfl⟩ := Outcome.bind_pure_eq_ok.mp h
    exact ⟨fun ht => { ht with }, fun hkey => absurd rfl hkey⟩
  · obtain ⟨_, hread, rfl⟩ := Outcome.bind_pure_eq_ok.mp h
    obtain ⟨hlabels, hannotations⟩ := Metadata.sorted_of_ofValue hread
    exact ⟨fun ht => { ht with labels := hlabels, annotations := hannotations }, fun _ => rfl⟩
  · obtain ⟨⟨own, shape⟩, hread, rfl⟩ := Outcome.bind_pure_eq_ok.mp h
    obtain ⟨horder, hkind⟩ := Decode.record_ofJson_preserves
      (P := fun s : CompositionTest => (t.InOrder → s.InOrder) ∧ s.kind = t.kind)
      (fun s _ _ _ hs hstep =>
        ⟨(takeSpec_keeps hstep).1 ∘ hs.1, (takeSpec_keeps hstep).2.trans hs.2⟩)
      ⟨id, rfl⟩ hread
    exact ⟨horder, fun _ => hkind⟩
  · cases h
    exact ⟨id, fun _ => rfl⟩

theorem inOrder_blank : InOrder {} where
  labels := .nil
  annotations := .nil
  timeoutSeconds := nofun
  xr := nofun
  xrd := nofun
  composition := nofun
  observedResources := nofun
  extraResources := nofun
  context := nofun
  assert := nofun

theorem inOrder_of_ofValue (h : CompositionTest.ofValue d (.ofJson j) = .ok t) : t.InOrder := by
  obtain ⟨⟨_, shape⟩, hread, rfl⟩ := Outcome.bind_pure_eq_ok.mp h
  exact Decode.record_ofJson_preserves (fun _ _ _ _ hs hstep => (take_keeps hstep).1 hs)
    inOrder_blank hread

theorem kind_of_ofValue (h : CompositionTest.ofValue d (.ofJson j) = .ok t) {kind : String}
    (hkind : j.get? "kind" = some (.str kind)) : t.kind = kind := by
  obtain ⟨⟨_, shape⟩, hread, rfl⟩ := Outcome.bind_pure_eq_ok.mp h
  refine Decode.record_given (f := CompositionTest.kind) (by decide)
    (fun _ _ _ _ hkey hstep => (take_keeps hstep).2 hkey) (fun s s' hown => ?_) hkind hread
  cases hown
  rfl

end CompositionTest

namespace EndToEndTest

variable {t t' : EndToEndTest} {key : String}

theorem takeSpec_keeps (h : takeSpec d t key (.ofJson j) = .ok t') :
    (t.InOrder → t'.InOrder) ∧ t'.kind = t.kind := by
  unfold takeSpec at h
  dsimp only at h
  split at h
  · obtain ⟨_, -, rfl⟩ := Outcome.bind_pure_eq_ok.mp h
    exact ⟨fun ht => { ht with }, rfl⟩
  · obtain ⟨_, hread, rfl⟩ := Outcome.bind_pure_eq_ok.mp h
    exact ⟨fun ht => { ht with timeoutSeconds := Decode.lt_of_optional_word hread }, rfl⟩
  · obtain ⟨_, -, rfl⟩ := Outcome.bind_pure_eq_ok.mp h
    exact ⟨fun ht => { ht with }, rfl⟩
  · obtain ⟨_, -, rfl⟩ := Outcome.bind_pure_eq_ok.mp h
    exact ⟨fun ht => { ht with }, rfl⟩
  · obtain ⟨_, hread, rfl⟩ := Outcome.bind_pure_eq_ok.mp h
    exact ⟨fun ht => { ht with manifests := Decode.inOrder_of_list hread }, rfl⟩
  · obtain ⟨_, hread, rfl⟩ := Outcome.bind_pure_eq_ok.mp h
    exact ⟨fun ht => { ht with extraResources := Decode.inOrder_of_list hread }, rfl⟩
  · cases h
    exact ⟨id, rfl⟩

theorem take_keeps (h : take d t key (.ofJson j) = .ok t') :
    (t.InOrder → t'.InOrder) ∧ (key ≠ "kind" → t'.kind = t.kind) := by
  unfold take at h
  split at h
  · obtain ⟨_, -, rfl⟩ := Outcome.bind_pure_eq_ok.mp h
    exact ⟨fun ht => { ht with }, fun _ => rfl⟩
  · obtain ⟨_, -, rfl⟩ := Outcome.bind_pure_eq_ok.mp h
    exact ⟨fun ht => { ht with }, fun hkey => absurd rfl hkey⟩
  · obtain ⟨_, hread, rfl⟩ := Outcome.bind_pure_eq_ok.mp h
    obtain ⟨hlabels, hannotations⟩ := Metadata.sorted_of_ofValue hread
    exact ⟨fun ht => { ht with labels := hlabels, annotations := hannotations }, fun _ => rfl⟩
  · obtain ⟨⟨own, shape⟩, hread, rfl⟩ := Outcome.bind_pure_eq_ok.mp h
    obtain ⟨horder, hkind⟩ := Decode.record_ofJson_preserves
      (P := fun s : EndToEndTest => (t.InOrder → s.InOrder) ∧ s.kind = t.kind)
      (fun s _ _ _ hs hstep =>
        ⟨(takeSpec_keeps hstep).1 ∘ hs.1, (takeSpec_keeps hstep).2.trans hs.2⟩)
      ⟨id, rfl⟩ hread
    exact ⟨horder, fun _ => hkind⟩
  · cases h
    exact ⟨id, fun _ => rfl⟩

theorem inOrder_blank : InOrder {} where
  labels := .nil
  annotations := .nil
  timeoutSeconds := nofun
  manifests := nofun
  extraResources := nofun

theorem inOrder_of_ofValue (h : EndToEndTest.ofValue d (.ofJson j) = .ok t) : t.InOrder := by
  obtain ⟨⟨_, shape⟩, hread, rfl⟩ := Outcome.bind_pure_eq_ok.mp h
  exact Decode.record_ofJson_preserves (fun _ _ _ _ hs hstep => (take_keeps hstep).1 hs)
    inOrder_blank hread

theorem kind_of_ofValue (h : EndToEndTest.ofValue d (.ofJson j) = .ok t) {kind : String}
    (hkind : j.get? "kind" = some (.str kind)) : t.kind = kind := by
  obtain ⟨⟨_, shape⟩, hread, rfl⟩ := Outcome.bind_pure_eq_ok.mp h
  refine Decode.record_given (f := EndToEndTest.kind) (by decide)
    (fun _ _ _ _ hkey hstep => (take_keeps hstep).2 hkey) (fun s s' hown => ?_) hkind hread
  cases hown
  rfl

end EndToEndTest

namespace RenderedItem

theorem ofReading_eq_test {kind : String} {x : Except Mismatch TestCase} {t : TestCase}
    (h : ofReading kind x = .test t) : x = .ok t := by
  cases x with
  | error cause => cases h
  | ok own =>
    cases h
    rfl

theorem get?_of_text? {kind : String} (h : (j.get? "kind").bind Json.text? = some kind) :
    j.get? "kind" = some (.str kind) := by
  obtain ⟨value, hvalue, htext⟩ := Option.bind_eq_some_iff.mp h
  cases value with
  | str s =>
    cases htext
    exact hvalue
  | _ => cases htext

/-- An item that is a test is read again once the test is written. -/
theorem ofJson_sorted_of_test {t : TestCase} (h : RenderedItem.ofJson j = .test t) :
    RenderedItem.ofJson t.toJson.sorted = .test t := by
  unfold RenderedItem.ofJson at h
  dsimp only at h
  split at h
  · next hkind =>
    obtain ⟨own, hown, rfl⟩ := Outcome.map_eq_ok.mp (ofReading_eq_test h)
    exact CompositionTest.ofJson_sorted (CompositionTest.inOrder_of_ofValue hown)
      (CompositionTest.kind_of_ofValue hown (get?_of_text? hkind))
  split at h
  · next hkind =>
    obtain ⟨own, hown, rfl⟩ := Outcome.map_eq_ok.mp (ofReading_eq_test h)
    exact EndToEndTest.ofJson_sorted (EndToEndTest.inOrder_of_ofValue hown)
      (EndToEndTest.kind_of_ofValue hown (get?_of_text? hkind))
  · cases h

end RenderedItem

theorem Metadata.gives_ofEvent (e : Event) : Gives (Metadata.ofEvent e) fun m =>
    Dict.Sorted m.labels ∧ Dict.Sorted m.annotations := by
  unfold Metadata.ofEvent
  refine Gives.record (fun m key e hm => ?_) ⟨.nil, .nil⟩ e
  split
  · exact Gives.then_ fun _ => Gives.pure hm
  · exact (Gives.dict _ _).map fun _ hlabels => ⟨hlabels, hm.2⟩
  · exact (Gives.dict _ _).map fun _ hannotations => ⟨hm.1, hannotations⟩

namespace EndToEndTest

theorem gives_takeNextSpec {t : EndToEndTest} (ht : t.InOrder) (key : String) (e : Event) :
    Gives (takeNextSpec t key e) InOrder := by
  unfold takeNextSpec
  split
  · exact Gives.then_ fun _ => Gives.pure { ht with }
  · exact (Gives.optional Gives.word e).map fun _ hword => { ht with timeoutSeconds := hword }
  · exact Gives.then_ fun _ => Gives.pure { ht with }
  · exact Gives.then_ fun _ => Gives.pure { ht with }
  · exact (Gives.list Gives.json e).map fun _ hvalues => { ht with manifests := hvalues }
  · exact (Gives.list Gives.json e).map fun _ hvalues => { ht with extraResources := hvalues }

theorem gives_ofEvent (e : Event) : Gives (EndToEndTest.ofEvent e) InOrder := by
  unfold ofEvent
  refine Gives.record (fun t key e ht => ?_) inOrder_blank e
  split
  · exact Gives.then_ fun _ => Gives.pure { ht with }
  · exact Gives.then_ fun _ => Gives.pure { ht with }
  · exact (Metadata.gives_ofEvent e).map fun _ hm =>
      { ht with labels := hm.1, annotations := hm.2 }
  · exact Gives.record (fun t key e ht => gives_takeNextSpec ht key e) ht e

/-- A test that is parsed is in order and of the kind of end-to-end tests. -/
theorem inOrder_of_parse {contents : ByteArray} {t : EndToEndTest} (h : parse contents = .ok t) :
    t.InOrder ∧ t.kind = kindName := by
  unfold parse at h
  split at h
  · cases h
  · next own hread =>
    have horder : own.InOrder := by
      unfold readDocument at hread
      split at hread
      · exact Gives.readOnly gives_ofEvent hread
      · cases hread
    split at h
    · cases h
    · next hkind =>
      obtain ⟨⟨⟩, -, h⟩ := Outcome.bind_eq_ok.mp h
      cases h
      exact ⟨horder, not_not.mp hkind⟩

end EndToEndTest

/-- Every test of a rendered document, and the end-to-end test of a manifest file, is read again as
it is, once it is written with its fields in order of key. -/
theorem TestCase.decoded_reread :
    (∀ contents mode cases, TestCase.decode contents mode = .ok cases →
      ∀ t ∈ cases, RenderedItem.ofJson t.toJson.sorted = .test t) ∧
    ∀ contents t, EndToEndTest.parse contents = .ok t →
      RenderedItem.ofJson (TestCase.endToEnd t).toJson.sorted = .test (.endToEnd t) := by
  refine ⟨fun contents mode cases h t ht => ?_, fun contents t h => ?_⟩
  · cases hitems : TestCase.items? contents with
    | none =>
      obtain ⟨cause, hcause⟩ := TestCase.decode_of_noItems hitems
      rw [hcause] at h
      cases h
    | some items =>
      rw [TestCase.decode_of_items? hitems] at h
      obtain ⟨item, -, hitem⟩ := TestCase.exists_item_of_mem h ht
      exact RenderedItem.ofJson_sorted_of_test hitem
  · obtain ⟨horder, hkind⟩ := EndToEndTest.inOrder_of_parse h
    exact EndToEndTest.ofJson_sorted horder hkind

/-- A rendered document with a test of each sort. -/
def renderedTests : ByteArray :=
  Text.encode "items: [\x7bkind: CompositionTest, spec: \x7bxr: ~\x7d\x7d, \x7bkind: E2ETest\x7d]"

def endToEndManifest : ByteArray :=
  Text.encode ("\x7bkind: E2ETest, metadata: \x7bname: c\x7d, " ++
    "spec: \x7bmanifests: [\x7bkind: K, count: .inf\x7d]\x7d\x7d")

theorem renderedTests_evaluated :
    (TestCase.decode renderedTests .lenient).toOption.map List.length = some 2 := by
  decide +kernel

theorem endToEndManifest_evaluated :
    (EndToEndTest.parse endToEndManifest).toOption.map (·.metadata.name) = some "c" := by
  decide +kernel

theorem renderedTests_reread :
    (∃ cases, TestCase.decode renderedTests .lenient = .ok cases ∧ cases.length = 2 ∧
      ∀ t ∈ cases, RenderedItem.ofJson t.toJson.sorted = .test t) ∧
    ∃ t, EndToEndTest.parse endToEndManifest = .ok t ∧
      RenderedItem.ofJson (TestCase.endToEnd t).toJson.sorted = .test (.endToEnd t) := by
  obtain ⟨cases, hcases, hlength⟩ := Option.map_eq_some_iff.mp renderedTests_evaluated
  obtain ⟨t, ht, -⟩ := Option.map_eq_some_iff.mp endToEndManifest_evaluated
  have hdecode := Outcome.toOption_eq_some.mp hcases
  have hparse := Outcome.toOption_eq_some.mp ht
  exact ⟨⟨cases, hdecode, hlength, TestCase.decoded_reread.1 _ _ cases hdecode⟩,
    t, hparse, TestCase.decoded_reread.2 _ t hparse⟩

end ResourceModels
