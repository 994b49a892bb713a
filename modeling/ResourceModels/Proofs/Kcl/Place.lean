import Mathlib.Data.List.TakeDrop
import Mathlib.Data.List.TakeWhile
import ResourceModels.ApiVersion
import ResourceModels.Kcl.Layout
import ResourceModels.Proofs.ApiVersion
import ResourceModels.Proofs.Path.Climbing
import ResourceModels.Proofs.Path.Directory
import ResourceModels.Proofs.Text
import ResourceModels.Proofs.Text.Cut

/-!
# Where the schemas of kinds go

The importer joins the labels of a group, a version and the words of a kind to the name of a file.
The version is found again as the first known one, so each file has the place of its group, version
and kind, and two files have one place exactly if they have the same group and version and their
kinds are the same without the marks between words.
-/

namespace ResourceModels.Kcl

open ResourceModels.Path (IsNormal IsPlain)

/-- What the importer makes the name of a file from. -/
structure ImporterName where
  labels : List String
  version : String
  words : List String
deriving DecidableEq

namespace ImporterName

/-- The name of the file. -/
def text (n : ImporterName) : String :=
  Text.join "_" n.labels ++ "_" ++ n.version ++ "_" ++ Text.join "_" n.words ++ ".k"

/-- The kind, its words without a mark between them. -/
def kind (n : ImporterName) : String := String.join n.words

def place (n : ImporterName) : String :=
  Text.join "/" n.labels.reverse ++ "/" ++ n.version ++ "/" ++ n.kind ++ ".k"

/-- A text that is one piece of a name and one segment of a path. -/
def IsPiece (s : String) : Prop := '_' ∉ s.toList ∧ '/' ∉ s.toList

instance : DecidablePred IsPiece := fun s =>
  inferInstanceAs (Decidable ('_' ∉ s.toList ∧ '/' ∉ s.toList))

structure WellNamed (n : ImporterName) : Prop where
  labels_ne_nil : n.labels ≠ []
  words_ne_nil : n.words ≠ []
  label : ∀ label ∈ n.labels, IsPiece label ∧ ApiVersion.isKnown label = false
  version : ApiVersion.isKnown n.version = true
  word : ∀ word ∈ n.words, IsPiece word
  unmarked : Text.contains "swagger" n.kind = false

variable {n n' : ImporterName}

theorem WellNamed.version_isPiece (h : n.WellNamed) : IsPiece n.version := by
  constructor
  · intro hmem
    exact absurd (ApiVersion.isAlphanum_of_isKnown h.version hmem) (by decide)
  · intro hmem
    exact absurd (ApiVersion.isAlphanum_of_isKnown h.version hmem) (by decide)

/-- The pieces of the name, but for its ending. -/
theorem WellNamed.split_front (h : n.WellNamed) :
    Text.split (· = '_') (Text.join "_" n.labels ++ "_" ++ n.version ++ "_" ++
      Text.join "_" n.words) = n.labels ++ n.version :: n.words := by
  have hjoin : Text.join "_" n.labels ++ "_" ++ n.version ++ "_" ++ Text.join "_" n.words =
      Text.join "_" (n.labels ++ n.version :: n.words) := by
    have hrest : n.labels ++ [n.version] ≠ [] := by simp
    rw [← Text.join_concat "_" h.labels_ne_nil, ← Text.join_append "_" hrest h.words_ne_nil,
      List.append_assoc, List.singleton_append]
  rw [hjoin]
  refine Text.split_of_join (by simp) fun piece hpiece => ?_
  rcases List.mem_append.mp hpiece with hlabel | hrest
  · exact (h.label piece hlabel).1.1
  rcases List.mem_cons.mp hrest with rfl | hword
  · exact h.version_isPiece.1
  · exact (h.word piece hword).1

/-- The ending of the name prolongs its last word. -/
theorem WellNamed.exists_split (h : n.WellNamed) : ∃ files,
    Text.split (· = '_') n.text = n.labels ++ n.version :: files ∧
      String.join files = n.kind ++ ".k" := by
  have hending : ∀ c ∈ ".k".toList, decide (c = '_') = false := by simp
  obtain ⟨front, last, hfront, hsplit⟩ := Text.split_append hending (Text.join "_" n.labels ++ "_" ++
    n.version ++ "_" ++ Text.join "_" n.words)
  obtain ⟨init, word, hwords⟩ := (List.eq_nil_or_concat' n.words).resolve_left h.words_ne_nil
  rw [h.split_front, hwords, ← List.cons_append, ← List.append_assoc] at hfront
  obtain ⟨rfl, hlast⟩ := List.append_inj' hfront rfl
  obtain rfl := List.singleton_inj.mp hlast
  refine ⟨init ++ [word ++ ".k"], ?_, ?_⟩
  · rw [text, hsplit, List.append_assoc, List.cons_append]
  · rw [kind, hwords, ← String.toList_inj]
    simp

/-- The first known version is the one that the name was made with. -/
theorem WellNamed.span_pieces (h : n.WellNamed) (files : List String) :
    (n.labels ++ n.version :: files).span (fun part => !ApiVersion.isKnown part) =
      (n.labels, n.version :: files) := by
  have hlabels : ∀ label ∈ n.labels, (!ApiVersion.isKnown label) = true := fun label hlabel => by
    rw [(h.label label hlabel).2, Bool.not_false]
  rw [List.span_eq_takeWhile_dropWhile, List.takeWhile_append_of_pos hlabels,
    List.dropWhile_append_of_pos hlabels]
  simp [h.version]

theorem WellNamed.relocated?_eq (h : n.WellNamed) : relocated? n.text = some n.place := by
  obtain ⟨files, hsplit, hfiles⟩ := h.exists_split
  obtain ⟨label, labels, hlabels⟩ := List.exists_cons_of_ne_nil h.labels_ne_nil
  have hspan := h.span_pieces files
  have hclean : Text.replace "swagger" "" (n.kind ++ ".k") = n.kind ++ ".k" :=
    Text.replace_append_of_not_contains "" (by decide) (by simp) h.unmarked
  have hne : n.kind ++ ".k" ≠ "" := by simp [String.append_eq_empty_iff]
  rw [hlabels] at hspan
  rw [relocated?, hsplit, hlabels, hspan]
  dsimp only
  rw [hfiles, hclean, if_neg hne, ← hlabels, Text.join_concat "/" (by simpa using h.labels_ne_nil)]
  simp only [place, String.append_assoc]

theorem place_eq_join (hne : n.labels ≠ []) :
    n.place = Text.join "/" (n.labels.reverse ++ [n.version, n.kind ++ ".k"]) := by
  have hreverse : n.labels.reverse ≠ [] := List.reverse_eq_nil_iff.not.mpr hne
  rw [Text.join_append "/" hreverse (List.cons_ne_nil _ _), place]
  simp only [Text.join, String.append_assoc]

/-- The segments of a place hold no slash. -/
theorem WellNamed.split_place (h : n.WellNamed) :
    Text.split (· = '/') n.place = n.labels.reverse ++ [n.version, n.kind ++ ".k"] := by
  rw [place_eq_join h.labels_ne_nil]
  refine Text.split_of_join (by simp) fun segment hsegment => ?_
  rcases List.mem_append.mp hsegment with hlabel | hrest
  · exact (h.label segment (List.mem_reverse.mp hlabel)).1.2
  rcases List.mem_cons.mp hrest with rfl | hfile
  · exact h.version_isPiece.2
  · rw [List.mem_singleton.mp hfile, String.toList_append, List.mem_append, not_or]
    refine ⟨fun hmem => ?_, by decide⟩
    rw [kind, String.toList_join, List.mem_flatMap] at hmem
    obtain ⟨word, hword, hslash⟩ := hmem
    exact (h.word word hword).2 hslash

theorem WellNamed.place_inj (h : n.WellNamed) (h' : n'.WellNamed) : n.place = n'.place ↔
    n.labels = n'.labels ∧ n.version = n'.version ∧ n.kind = n'.kind := by
  constructor
  · intro heq
    have hsegments := congrArg (Text.split (· = '/')) heq
    rw [h.split_place, h'.split_place] at hsegments
    obtain ⟨hlabels, hrest⟩ := List.append_inj' hsegments rfl
    obtain ⟨hversion, hfile⟩ := List.cons_eq_cons.mp hrest
    rw [List.singleton_inj, String.append_left_inj] at hfile
    exact ⟨List.reverse_inj.mp hlabels, hversion, hfile⟩
  · rintro ⟨hlabels, hversion, hkind⟩
    rw [place, place, hlabels, hversion, hkind]

/-- A name whose place is made of segments that a normal form keeps. -/
structure IsKept (n : ImporterName) : Prop where
  label : ∀ label ∈ n.labels, IsPlain label ∧ '\\' ∉ label.toList
  kind : '\\' ∉ n.kind.toList

theorem isPlain_ending (kind : String) : IsPlain (kind ++ ".k") := by
  have hending := Text.endsWith_append kind ".k"
  refine ⟨?_, ?_, ?_⟩ <;>
    · intro heq
      rw [heq] at hending
      revert hending
      decide

theorem WellNamed.isPlain_version (h : n.WellNamed) : IsPlain n.version := by
  have hversion := h.version
  refine ⟨?_, ?_, ?_⟩ <;>
    · intro heq
      rw [heq] at hversion
      revert hversion
      decide

theorem IsKept.segment (h : n.IsKept) (hnamed : n.WellNamed) {segment : String}
    (hsegment : segment ∈ n.labels.reverse ++ [n.version, n.kind ++ ".k"]) :
    IsPlain segment ∧ '\\' ∉ segment.toList := by
  rcases List.mem_append.mp hsegment with hlabel | hrest
  · exact h.label segment (List.mem_reverse.mp hlabel)
  rcases List.mem_cons.mp hrest with rfl | hfile
  · refine ⟨hnamed.isPlain_version, fun hmem => ?_⟩
    exact absurd (ApiVersion.isAlphanum_of_isKnown hnamed.version hmem) (by decide)
  · rw [List.mem_singleton.mp hfile, String.toList_append, List.mem_append, not_or]
    exact ⟨isPlain_ending n.kind, h.kind, by decide⟩

theorem IsKept.isFilePath_place (h : n.IsKept) (hnamed : n.WellNamed) :
    Path.IsFilePath n.place := by
  have hslash := hnamed.split_place
  have hclean : ∀ segment ∈ n.labels.reverse ++ [n.version, n.kind ++ ".k"],
      ∀ c ∈ segment.toList, Path.isSeparator c = false := by
    intro segment hsegment
    have hnone : '/' ∉ segment.toList := fun hmem => by
      rw [← hslash] at hsegment
      simpa using Text.noMark_of_mem_split hsegment '/' hmem
    exact Path.noSeparator_iff.mpr ⟨hnone, (h.segment hnamed hsegment).2⟩
  rw [Path.isFilePath_iff, place_eq_join hnamed.labels_ne_nil,
    Path.segments_join (by simp) hclean]
  refine ⟨fun segment hsegment => (h.segment hnamed hsegment).1, fun hmem => ?_⟩
  rcases Text.mem_of_mem_join hmem with hmem | ⟨segment, hsegment, hmem⟩
  · exact absurd hmem (by decide)
  · exact (h.segment hnamed hsegment).2 hmem

/-- A file has the place of its group, version and kind, and no other group, version or kind has
that place. Below the target it goes there as it is, where normal forms keep its labels. -/
theorem relocated?_iff (h : n.WellNamed) (h' : n'.WellNamed) :
    relocated? n.text = some n.place ∧
      (relocated? n.text = relocated? n'.text ↔
        n.labels = n'.labels ∧ n.version = n'.version ∧ n.kind = n'.kind) ∧
      (n.IsKept → ∀ target, IsNormal target →
        Path.normalizeFile (Path.join target n.place) = .ok (Path.join target n.place)) := by
  refine ⟨h.relocated?_eq, ?_, fun hkept target htarget => ?_⟩
  · rw [h.relocated?_eq, h'.relocated?_eq, Option.some.injEq, h.place_inj h']
  · exact Path.normalizeFile_of_isFilePath
      (Path.isFilePath_join htarget (hkept.isFilePath_place h))

/-- One kind spelled with and without a mark, where a word looks like a version. -/
def bucket : ImporterName := ⟨["platform", "acme", "co"], "v1alpha1", ["x", "v1", "bucket"]⟩

def joinedBucket : ImporterName := ⟨["platform", "acme", "co"], "v1alpha1", ["xv1bucket"]⟩

instance : DecidablePred WellNamed := fun n =>
  decidable_of_iff (n.labels ≠ [] ∧ n.words ≠ [] ∧
      (∀ label ∈ n.labels, IsPiece label ∧ ApiVersion.isKnown label = false) ∧
      ApiVersion.isKnown n.version = true ∧ (∀ word ∈ n.words, IsPiece word) ∧
      Text.contains "swagger" n.kind = false)
    ⟨fun ⟨hlabels, hwords, hlabel, hversion, hword, hunmarked⟩ =>
        ⟨hlabels, hwords, hlabel, hversion, hword, hunmarked⟩,
      fun h => ⟨h.labels_ne_nil, h.words_ne_nil, h.label, h.version, h.word, h.unmarked⟩⟩

theorem relocated?_bucket :
    bucket.WellNamed ∧ joinedBucket.WellNamed ∧ bucket.IsKept ∧ IsNormal "sorted" ∧
      bucket.text = "platform_acme_co_v1alpha1_x_v1_bucket.k" ∧
      relocated? bucket.text = some "co/acme/platform/v1alpha1/xv1bucket.k" ∧
      relocated? bucket.text = relocated? joinedBucket.text ∧
      Path.normalizeFile (Path.join "sorted" bucket.place) =
        .ok "sorted/co/acme/platform/v1alpha1/xv1bucket.k" := by
  have hbucket : bucket.WellNamed := by decide
  have hjoined : joinedBucket.WellNamed := by decide
  have hkept : bucket.IsKept := ⟨by decide, by decide⟩
  have hsorted : IsNormal "sorted" := by decide
  obtain ⟨hplace, hiff, hnormal⟩ := relocated?_iff hbucket hjoined
  refine ⟨hbucket, hjoined, hkept, hsorted, by decide, ?_, ?_, ?_⟩
  · rw [hplace]
    decide
  · exact hiff.mpr (by decide)
  · rw [hnormal hkept "sorted" hsorted]
    decide

end ImporterName

end ResourceModels.Kcl
