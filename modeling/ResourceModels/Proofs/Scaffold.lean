import ResourceModels.Proofs.FileTree
import ResourceModels.Proofs.Text.Cut
import ResourceModels.Scaffold

/-!
# Filled templates

A template is a sequence of characters and placeholders. The name of a test is filled in before the
imports are, and yet each placeholder of the template gets its own value and nothing else does: the
name has no braces and the placeholder for the imports no hyphen, so no occurrence of that begins in
the name, ends in it or holds the whole of it.
-/

namespace ResourceModels.Scaffold

open Text (StartsIn startsIn_singleton not_startsIn_of_notMem not_startsIn_of_tails exists_later
  replaceList replaceList_append replaceList_self_append)

/-- A piece of a template. -/
inductive Segment
  | char (c : Char)
  | name
  | imports
deriving DecidableEq

/-- The text of a segment, given those of the two placeholders. -/
def Segment.value (name imports : List Char) : Segment → List Char
  | .char c => [c]
  | .name => name
  | .imports => imports

/-- The text of a segment in a template. -/
def Segment.mark : Segment → List Char :=
  Segment.value namePlaceholder.toList importsPlaceholder.toList

/-- What stands for a segment once the name is filled in and the imports are not. -/
def Segment.named (dir : List Char) : Segment → List Char :=
  Segment.value dir importsPlaceholder.toList

def spell (value : Segment → List Char) (segments : List Segment) : List Char :=
  segments.flatMap value

/-- The segments of a template. The counter says how many characters of a placeholder are still to
be passed over. -/
def segmentsOf : Nat → List Char → List Segment
  | _, [] => []
  | skip + 1, _ :: rest => segmentsOf skip rest
  | 0, c :: rest =>
    if Segment.name.mark <+: c :: rest then
      .name :: segmentsOf (Segment.name.mark.length - 1) rest
    else if Segment.imports.mark <+: c :: rest then
      .imports :: segmentsOf (Segment.imports.mark.length - 1) rest
    else .char c :: segmentsOf 0 rest

/-- The mark of a segment occurs just where the segment stands. -/
def StandsFor (value : Segment → List Char) (segments : List Segment) (s : Segment) : Prop :=
  ∀ before after, spell value segments = before ++ s.mark ++ after ↔
    ∃ front back, segments = front ++ s :: back ∧
      before = spell value front ∧ after = spell value back

/-- A template taken apart at all occurrences of its placeholders. -/
structure Divides (segments : List Segment) (template : List Char) : Prop where
  spelled : spell Segment.mark segments = template
  names : StandsFor Segment.mark segments .name
  imports : StandsFor Segment.mark segments .imports

variable {value value' : Segment → List Char} {segments : List Segment} {s : Segment}

@[simp] theorem Segment.mark_char (c : Char) : (Segment.char c).mark = [c] := rfl

@[simp] theorem Segment.named_char (dir : List Char) (c : Char) :
    Segment.named dir (.char c) = [c] := rfl

@[simp] theorem spell_nil : spell value [] = [] := rfl

@[simp] theorem spell_cons : spell value (s :: segments) = value s ++ spell value segments := rfl

@[simp] theorem spell_append (front back : List Segment) :
    spell value (front ++ back) = spell value front ++ spell value back :=
  List.flatMap_append

/-! ### Marks that stand for segments -/

/-- No occurrence of the mark of `s` begins elsewhere than with a segment `s`. -/
def Apart (value : Segment → List Char) (s : Segment) : List Segment → Prop
  | [] => True
  | other :: more =>
    ¬StartsIn s.mark (if other = s then (value other).tail else value other) (spell value more) ∧
      Apart value s more

/-- Marks that stand for their segments only are replaced as if all at once. -/
theorem replaceList_spell (hmark : value s = s.mark) (hne : s.mark ≠ [])
    (hkeep : ∀ other ≠ s, value' other = value other) (h : Apart value s segments) :
    replaceList s.mark (value' s) 0 (spell value segments) = spell value' segments := by
  induction segments with
  | nil => rfl
  | cons other more ih =>
    obtain ⟨hstart, hmore⟩ := h
    by_cases hother : other = s
    · rw [spell_cons, hother, hmark, replaceList_self_append hne, ih hmore, spell_cons]
    · rw [if_neg hother] at hstart
      rw [spell_cons, replaceList_append hstart, ih hmore, spell_cons, hkeep other hother]

theorem standsFor_of_apart (hmark : value s = s.mark) (hne : s.mark ≠ [])
    (h : Apart value s segments) : StandsFor value segments s := by
  intro before after
  constructor
  · intro htext
    induction segments generalizing before with
    | nil =>
      rw [spell_nil, eq_comm, List.append_eq_nil_iff, List.append_eq_nil_iff] at htext
      exact absurd htext.1.2 hne
    | cons other more ih =>
      obtain ⟨hstart, hmore⟩ := h
      have hlater : ∀ later, before = value other ++ later →
          spell value more = later ++ s.mark ++ after → ∃ front back,
            other :: more = front ++ s :: back ∧
              before = spell value front ∧ after = spell value back := by
        rintro later rfl hrest
        obtain ⟨front, back, rfl, rfl, rfl⟩ := ih hmore later hrest
        exact ⟨other :: front, back, rfl, rfl, rfl⟩
      by_cases hother : other = s
      · subst hother
        obtain ⟨first, chars, hfirst⟩ := List.exists_cons_of_ne_nil (hmark.symm ▸ hne)
        rw [if_pos rfl, hfirst, List.tail_cons] at hstart
        cases before with
        | nil =>
          rw [spell_cons, hmark, List.nil_append] at htext
          exact ⟨[], more, rfl, rfl, (List.append_cancel_left htext).symm⟩
        | cons c before =>
          rw [spell_cons, hfirst] at htext
          obtain ⟨rfl, htail⟩ := List.cons_eq_cons.mp htext
          obtain ⟨later, rfl, hrest⟩ := exists_later hstart htail
          exact hlater later (by rw [hfirst, List.cons_append]) hrest
      · rw [if_neg hother] at hstart
        obtain ⟨later, hbefore, hrest⟩ := exists_later hstart htext
        exact hlater later hbefore hrest
  · rintro ⟨front, back, rfl, rfl, rfl⟩
    rw [spell_append, spell_cons, hmark, List.append_assoc]

/-! ### Taking a template apart -/

theorem mark_append_drop {c : Char} {rest : List Char} (hne : s.mark ≠ [])
    (hstart : s.mark <+: c :: rest) : s.mark ++ rest.drop (s.mark.length - 1) = c :: rest := by
  rw [← List.drop_cons (List.length_pos_iff.mpr hne)]
  exact List.prefix_iff_eq_append.mp hstart

theorem spell_segmentsOf (skip : Nat) (text : List Char) :
    spell Segment.mark (segmentsOf skip text) = text.drop skip := by
  induction text generalizing skip with
  | nil => cases skip <;> rfl
  | cons c rest ih =>
    cases skip with
    | succ skip => rw [segmentsOf, ih, List.drop_succ_cons]
    | zero =>
      rw [segmentsOf, List.drop_zero]
      split_ifs with hname himports
      · rw [spell_cons, ih, mark_append_drop (by decide) hname]
      · rw [spell_cons, ih, mark_append_drop (by decide) himports]
      · rw [spell_cons, ih, List.drop_zero, Segment.mark_char, List.singleton_append]

theorem apart_segmentsOf (hs : s = .name ∨ s = .imports) (skip : Nat) (text : List Char) :
    Apart Segment.mark s (segmentsOf skip text) := by
  induction text generalizing skip with
  | nil => cases skip <;> exact trivial
  | cons c rest ih =>
    cases skip with
    | succ skip => exact ih skip
    | zero =>
      rw [segmentsOf]
      split_ifs with hname himports
      · refine ⟨not_startsIn_of_tails ?_, ih _⟩
        rcases hs with rfl | rfl <;> decide
      · refine ⟨not_startsIn_of_tails ?_, ih _⟩
        rcases hs with rfl | rfl <;> decide
      · refine ⟨?_, ih 0⟩
        rw [if_neg (by rcases hs with rfl | rfl <;> simp), spell_segmentsOf, List.drop_zero,
          Segment.mark_char, startsIn_singleton]
        rcases hs with rfl | rfl
        · exact hname
        · exact himports

theorem divides_segmentsOf (template : List Char) : Divides (segmentsOf 0 template) template where
  spelled := spell_segmentsOf 0 template
  names := standsFor_of_apart rfl (by decide) (apart_segmentsOf (.inl rfl) 0 template)
  imports := standsFor_of_apart rfl (by decide) (apart_segmentsOf (.inr rfl) 0 template)

/-! ### Filling in the name first -/

/-- A text that no occurrence of the placeholder for the imports can overlap: it has no braces, and
it has a hyphen, which the placeholder has not. -/
structure Foreign (dir : List Char) : Prop where
  opening : '\x7b' ∉ dir
  closing : '\x7d' ∉ dir
  hyphen : '-' ∈ dir

variable {dir : List Char}

/-- An end of the placeholder for the imports that is found after the name was filled in was there
before. -/
theorem Foreign.prefix_of_named (hdir : Foreign dir) {tail : List Char}
    (htail : tail <:+ Segment.imports.mark) (h : tail <+: spell (Segment.named dir) segments) :
    tail <+: spell Segment.mark segments := by
  have hends : ∀ tail ∈ Segment.imports.mark.tails, tail ≠ [] → '\x7d' ∈ tail := by decide
  induction segments generalizing tail with
  | nil => exact h
  | cons other more ih =>
    rw [spell_cons] at h ⊢
    cases other with
    | char c =>
      cases tail with
      | nil => exact List.nil_prefix
      | cons d tail =>
        obtain ⟨rfl, hmore⟩ := List.cons_prefix_cons.mp h
        exact List.cons_prefix_cons.mpr ⟨rfl, ih ((List.suffix_cons d tail).trans htail) hmore⟩
    | name =>
      by_cases hne : tail = []
      · rw [hne]
        exact List.nil_prefix
      · -- the end would have to reach beyond the name, and so hold all of it
        have hbrace := hends tail ((List.mem_tails _ _).mpr htail) hne
        rcases List.prefix_or_prefix_of_prefix h (List.prefix_append dir _) with hin | hover
        · exact absurd (hin.subset hbrace) hdir.closing
        · have hhyphen := htail.subset (hover.subset hdir.hyphen)
          exact absurd hhyphen (by decide)
    | imports =>
      have hmark : tail <+: Segment.imports.mark :=
        List.prefix_of_prefix_length_le h (List.prefix_append _ _) htail.length_le
      exact hmark.trans (List.prefix_append _ _)

theorem Foreign.apart_named (hdir : Foreign dir) (h : Apart Segment.mark .imports segments) :
    Apart (Segment.named dir) .imports segments := by
  induction segments with
  | nil => trivial
  | cons other more ih =>
    obtain ⟨hstart, hmore⟩ := h
    refine ⟨?_, ih hmore⟩
    cases other with
    | char c =>
      rw [if_neg (by simp)] at hstart ⊢
      rw [Segment.mark_char, startsIn_singleton] at hstart
      rw [Segment.named_char, startsIn_singleton]
      have hspelled : c :: spell (Segment.named dir) more =
          spell (Segment.named dir) (.char c :: more) := rfl
      rw [hspelled]
      exact fun hin => hstart (hdir.prefix_of_named (List.suffix_refl _) hin)
    | name => exact not_startsIn_of_notMem hdir.opening
    | imports =>
      have htails : ¬StartsIn Segment.imports.mark Segment.imports.mark.tail
          (spell (Segment.named dir) more) := not_startsIn_of_tails (by decide)
      exact htails

/-- The template with the name and the imports in the places of their placeholders. -/
def filled (template name block : String) : String :=
  String.ofList (spell (Segment.value name.toList block.toList) (segmentsOf 0 template.toList))

/-- Filling in the name and then the imports fills in both at once. -/
theorem fill_eq {template name block : String} (hname : Foreign name.toList) :
    fill template name block = filled template name block := by
  have hnames : ∀ other ≠ Segment.name, Segment.named name.toList other = other.mark := by
    rintro (c | _ | _) hother
    · rfl
    · exact absurd rfl hother
    · rfl
  have himports : ∀ other ≠ Segment.imports, Segment.value name.toList block.toList other =
      Segment.named name.toList other := by
    rintro (c | _ | _) hother
    · rfl
    · rfl
    · exact absurd rfl hother
  have hfirst := replaceList_spell rfl (by decide) hnames
    (apart_segmentsOf (.inl rfl) 0 template.toList)
  have hmark : Segment.named name.toList .imports = Segment.imports.mark := rfl
  have hsecond := replaceList_spell hmark (by decide) himports
    (hname.apart_named (apart_segmentsOf (.inr rfl) 0 template.toList))
  rw [spell_segmentsOf, List.drop_zero] at hfirst
  rw [fill, filled, Text.replace, Text.replace, String.toList_ofList, ← hsecond, ← hfirst]
  rfl

/-! ### Names -/

def IsLetter (c : Char) : Prop := 'a' ≤ c ∧ c ≤ 'z'

def IsDigit (c : Char) : Prop := '0' ≤ c ∧ c ≤ '9'

/-- Small letters, digits and hyphens, a letter first and no hyphen last. -/
structure IsLabel (s : List Char) : Prop where
  chars : ∀ c ∈ s, IsLetter c ∨ IsDigit c ∨ c = '-'
  first : ∃ c ∈ s.head?, IsLetter c
  last : ∃ c ∈ s.getLast?, IsLetter c ∨ IsDigit c

theorem isSmallLetter_iff {c : Char} : isSmallLetter c = true ↔ IsLetter c := by
  simp [isSmallLetter, IsLetter]

theorem isSmallOrDigit_iff {c : Char} : isSmallOrDigit c = true ↔ IsLetter c ∨ IsDigit c := by
  simp only [isSmallOrDigit, Bool.or_eq_true, isSmallLetter_iff, IsDigit, Char.isDigit,
    Bool.and_eq_true, decide_eq_true_eq, Char.le_def, ge_iff_le]

theorem isLabelList_iff {s : List Char} : isLabelList s = true ↔ IsLabel s := by
  cases s with
  | nil =>
    have hempty : ¬IsLabel [] := by
      intro h
      obtain ⟨c, hc, _⟩ := h.first
      cases hc
    exact iff_of_false Bool.false_ne_true hempty
  | cons c rest =>
    simp only [isLabelList, Bool.and_eq_true, List.all_eq_true, Bool.or_eq_true,
      decide_eq_true_eq, isSmallLetter_iff, isSmallOrDigit_iff, Option.all_eq_true]
    constructor
    · rintro ⟨⟨hc, hrest⟩, hlast⟩
      have hchars := List.forall_mem_cons.mpr ⟨.inl hc, fun d hd => or_assoc.mp (hrest d hd)⟩
      refine ⟨hchars, ⟨c, rfl, hc⟩, ?_⟩
      rw [List.getLast?_cons]
      cases hend : rest.getLast? with
      | none => exact ⟨c, rfl, .inl hc⟩
      | some d => exact ⟨d, rfl, hlast d hend⟩
    · intro h
      obtain ⟨_, ⟨⟩, hc⟩ := h.first
      refine ⟨⟨hc, fun d hd => or_assoc.mpr (h.chars d (List.mem_cons_of_mem _ hd))⟩, ?_⟩
      intro d hd
      obtain ⟨last, hlast, hok⟩ := h.last
      rw [List.getLast?_cons, hd] at hlast
      cases hlast
      exact hok

theorem problems_eq_nil {name : String} :
    problems name = [] ↔ name.utf8ByteSize ≤ 63 ∧ IsLabel name.toList := by
  rw [problems, List.append_eq_nil_iff, ← isLabelList_iff, ← not_lt]
  exact and_congr (by split_ifs <;> simp_all [maxLength]) (by simp)

/-- A label with a hyphen in it is foreign to the placeholders. -/
theorem IsLabel.foreign {s : List Char} (h : IsLabel s) (hhyphen : '-' ∈ s) : Foreign s where
  opening hmem := absurd (h.chars _ hmem) (by simp [IsLetter, IsDigit])
  closing hmem := absurd (h.chars _ hmem) (by simp [IsLetter, IsDigit])
  hyphen := hhyphen

theorem hyphen_mem_dirName (r : Request) : '-' ∈ r.dirName.toList := by
  rw [Request.dirName, dirName, String.toList_append]
  apply List.mem_append_left
  cases r.endToEnd <;> decide

/-! ### Rendered tests -/

section

variable {templates : Templates} {t t' : FileTree} {dir block : String}

/-- What is written for a file of a test. -/
def IsFilled (templates : Templates) (dir block : String) (file text : String × String) : Prop :=
  ∃ template, templates file.1 = some template ∧ text = (file.2, fill template dir block)

theorem renderFile_eq_ok {file : String × String} :
    renderFile templates dir block t file = .ok t' ↔ ∃ text,
      IsFilled templates dir block file text ∧ FileStore.writeText t text.1 text.2 = .ok t' := by
  rw [renderFile]
  cases h : templates file.1 with
  | none => simp [IsFilled, h]
  | some template => simp [IsFilled, h, Outcome.mapError_eq_ok]

theorem foldlM_renderFile_eq_ok {files : List (String × String)} :
    files.foldlM (renderFile templates dir block) t = .ok t' ↔ ∃ texts,
      List.Forall₂ (IsFilled templates dir block) files texts ∧ t.writeTexts texts = .ok t' := by
  induction files generalizing t with
  | nil => simp [FileTree.writeTexts, Outcome.pure_eq_ok]
  | cons file rest ih =>
    simp only [List.foldlM_cons, Outcome.bind_eq_ok, renderFile_eq_ok, ih,
      List.forall₂_cons_left_iff]
    constructor
    · rintro ⟨t₁, ⟨text, htext, hw⟩, texts, htexts, hrest⟩
      refine ⟨text :: texts, ⟨text, texts, htext, htexts, rfl⟩, ?_⟩
      exact Outcome.bind_eq_ok.mpr ⟨t₁, hw, hrest⟩
    · rintro ⟨_, ⟨text, texts, htext, htexts, rfl⟩, hw⟩
      obtain ⟨t₁, hfirst, hrest⟩ := Outcome.bind_eq_ok.mp hw
      exact ⟨t₁, ⟨text, htext, hfirst⟩, texts, htexts, hrest⟩

theorem renderFile_ne_invalidName (file : String × String) (name : String)
    (found : List NameProblem) :
    renderFile templates dir block t file ≠ .error (.invalidName name found) := by
  rw [renderFile]
  split
  · simp
  · next template _ =>
    cases FileStore.writeText t file.2 (fill template dir block) <;> simp [Except.mapError]

theorem foldlM_renderFile_ne_invalidName (files : List (String × String)) (t : FileTree)
    (name : String) (found : List NameProblem) :
    files.foldlM (renderFile templates dir block) t ≠ .error (.invalidName name found) := by
  induction files generalizing t with
  | nil => simp [pure, Except.pure]
  | cons file rest ih =>
    rw [List.foldlM_cons]
    cases h : renderFile templates dir block t file with
    | error e => exact fun he => renderFile_ne_invalidName file name found (h.trans he)
    | ok t₁ => exact ih t₁

end

variable {templates : Templates} {r : Request} {imports : List Import}

/-- The paths of the files of a test. -/
def outputs : TestLanguage → List String
  | .kcl => ["main.k", "kcl.mod"]
  | .python => ["main.py", "requirements.txt"]

theorem map_files (r : Request) : r.files.map (·.2) = outputs r.language := by
  rw [Request.files]
  cases r.language <;> rfl

theorem isFilePath_of_mem_outputs {language : TestLanguage} :
    ∀ path ∈ outputs language, Path.IsFilePath path := by
  cases language <;> decide

theorem nodup_outputs (language : TestLanguage) : (outputs language).Nodup := by
  cases language <;> decide

/-- A test is rendered from the texts that are written for its files. -/
theorem render_eq_ok {t : FileTree} : render templates r imports = .ok t ↔
    (r.dirName.utf8ByteSize ≤ 63 ∧ IsLabel r.dirName.toList) ∧ ∃ texts,
      List.Forall₂ (IsFilled templates r.dirName (importBlock imports)) r.files texts ∧
        (∅ : FileTree).writeTexts texts = .ok t := by
  rw [render, ← problems_eq_nil, ← foldlM_renderFile_eq_ok]
  cases problems r.dirName with
  | nil => simp
  | cons problem more => simp

theorem render_invalidName_iff :
    (∃ name found, render templates r imports = .error (.invalidName name found)) ↔
      63 < r.dirName.utf8ByteSize ∨ ¬IsLabel r.dirName.toList := by
  rw [← not_le, ← not_and_or, ← problems_eq_nil, render]
  cases problems r.dirName with
  | nil =>
    refine iff_of_false ?_ (by simp)
    rintro ⟨name, found, h⟩
    exact foldlM_renderFile_ne_invalidName _ _ _ _ h
  | cons problem more => exact iff_of_true ⟨_, _, rfl⟩ (by simp)

/-- A test is rendered if its name is valid and its templates are there. -/
theorem exists_render_iff : (∃ t, render templates r imports = .ok t) ↔
    (r.dirName.utf8ByteSize ≤ 63 ∧ IsLabel r.dirName.toList) ∧
      ∀ file ∈ r.files, (templates file.1).isSome := by
  simp only [render_eq_ok, exists_and_left]
  refine and_congr_right fun _ => ⟨?_, fun htemplates => ?_⟩
  · rintro ⟨t, texts, htexts, -⟩ file hfile
    obtain ⟨_, _, template, htemplate, _⟩ := Outcome.exists_of_mem_forall₂ htexts.flip hfile
    rw [htemplate]
    rfl
  · let write (file : String × String) : String × String :=
      (file.2, fill ((templates file.1).getD "") r.dirName (importBlock imports))
    have htexts : List.Forall₂ (IsFilled templates r.dirName (importBlock imports)) r.files
        (r.files.map write) := by
      rw [List.forall₂_map_right_iff, List.forall₂_same]
      intro file hfile
      obtain ⟨template, htemplate⟩ := Option.isSome_iff_exists.mp (htemplates file hfile)
      exact ⟨template, htemplate, by simp only [write, htemplate, Option.getD_some]⟩
    have hpaths : ∀ text ∈ r.files.map write, ∃ key, Path.normalizeFile text.1 = .ok key := by
      intro text htext
      obtain ⟨file, hfile, rfl⟩ := List.mem_map.mp htext
      have houtput : file.2 ∈ outputs r.language := map_files r ▸ List.mem_map_of_mem hfile
      exact ⟨file.2, Path.normalizeFile_of_isFilePath (isFilePath_of_mem_outputs _ houtput)⟩
    obtain ⟨t, ht⟩ := FileTree.exists_writeTexts hpaths ∅
    exact ⟨t, _, htexts, ht⟩

/-- A test is refused for its name just if that is no label or too long. A rendered test has the
files of its kind, each with the text of its template in which the name and the imports stand for
their placeholders. The template is taken apart at all of them, and the placeholders for the imports
are where they were once the name is filled in. -/
theorem render_filled (templates : Templates) (r : Request) (imports : List Import) :
    ((∃ name found, render templates r imports = .error (.invalidName name found)) ↔
      63 < r.dirName.utf8ByteSize ∨ ¬IsLabel r.dirName.toList) ∧
    ∀ t, render templates r imports = .ok t →
      (∀ path, path ∈ FileStore.paths t ↔ path ∈ r.files.map (·.2)) ∧
      ∀ file ∈ r.files, ∃ template, templates file.1 = some template ∧
        FileStore.readText t file.2 = .ok (filled template r.dirName (importBlock imports)) ∧
        Divides (segmentsOf 0 template.toList) template.toList ∧
        StandsFor (Segment.named r.dirName.toList) (segmentsOf 0 template.toList) .imports := by
  refine ⟨render_invalidName_iff, fun t ht => ?_⟩
  obtain ⟨⟨-, hlabel⟩, texts, htexts, hw⟩ := render_eq_ok.mp ht
  have hpaths : texts.map (·.1) = r.files.map (·.2) :=
    (Outcome.map_eq_of_forall₂ htexts fun file text ⟨_, _, h⟩ => by rw [h]).symm
  have hnormal : ∀ text ∈ texts, Path.IsFilePath text.1 := fun text htext =>
    isFilePath_of_mem_outputs _ (map_files r ▸ hpaths ▸ List.mem_map_of_mem htext)
  have hread := FileTree.readText_writeTexts hw hnormal
    (hpaths ▸ map_files r ▸ nodup_outputs r.language)
  refine ⟨fun path => ?_, fun file hfile => ?_⟩
  · rw [FileTree.mem_paths_writeTexts hw, ← hpaths, List.mem_map]
    constructor
    · rintro (hnone | ⟨text, htext, hkey⟩)
      · exact absurd hnone List.not_mem_nil
      · rw [Path.normalizeFile_of_isFilePath (hnormal text htext)] at hkey
        exact ⟨text, htext, Except.ok.inj hkey⟩
    · rintro ⟨text, htext, rfl⟩
      exact .inr ⟨text, htext, Path.normalizeFile_of_isFilePath (hnormal text htext)⟩
  · obtain ⟨_, htext, template, htemplate, rfl⟩ := Outcome.exists_of_mem_forall₂ htexts.flip hfile
    have hforeign := hlabel.foreign (hyphen_mem_dirName r)
    have hwritten := hread _ htext
    refine ⟨template, htemplate, ?_, divides_segmentsOf _, ?_⟩
    · rwa [fill_eq hforeign] at hwritten
    · exact standsFor_of_apart rfl (by decide)
        (hforeign.apart_named (apart_segmentsOf (.inr rfl) 0 template.toList))

/-- A template in which placeholders stand within and beside other braces. -/
def nested : String :=
  "\x7b\x7bim" ++ namePlaceholder ++ "ports\x7d\x7d" ++ importsPlaceholder ++
    "\x7b" ++ namePlaceholder ++ "\x7d"

theorem render_filled_nested : ∃ t,
    render (fun _ => some nested) ⟨"api", .kcl, false⟩ [⟨"models." ++ namePlaceholder, "web"⟩] =
        .ok t ∧
      FileStore.readText t "main.k" = .ok
        ("\x7b\x7bimtest-apiports\x7d\x7dimport models." ++ namePlaceholder ++ " as web\n" ++
          "\x7btest-api\x7d") := by
  have hlabel : IsLabel (Request.dirName ⟨"api", .kcl, false⟩).toList :=
    isLabelList_iff.mp (by decide)
  have hthere : ∀ file ∈ Request.files ⟨"api", .kcl, false⟩, (some nested).isSome := by
    intros
    rfl
  have hrendered : ∃ t, render (fun _ => some nested) ⟨"api", .kcl, false⟩
      [⟨"models." ++ namePlaceholder, "web"⟩] = .ok t :=
    exists_render_iff.mpr ⟨⟨by decide, hlabel⟩, hthere⟩
  obtain ⟨t, ht⟩ := hrendered
  obtain ⟨template, htemplate, hread, _⟩ := ((render_filled _ _ _).2 t ht).2
    ("kcl/compositiontest.k", "main.k") (by decide)
  cases htemplate
  exact ⟨t, ht, hread⟩

end ResourceModels.Scaffold
