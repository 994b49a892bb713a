import ResourceModels.Path
import ResourceModels.Proofs.Go.Hoisting

/-!
# The named types of a Go file

A type is named in a file because a schema spells it out, because a schema is a point in time, or
because the file declares it; all else is built in. The imports are those that the schemas ask for
along with such a type. Both are read off the document by the forms of its schemas.
-/

namespace ResourceModels.Go

/-- The name of a type with the package it is qualified by. -/
structure TypeName where
  package : Option String
  name : String
deriving DecidableEq, Repr

def TypeName.ofText (text : String) : TypeName :=
  match Text.splitFirst? '.' text with
  | some (package, name) => ⟨some package, name⟩
  | none => ⟨none, text⟩

/-- The types of the language that have a name. -/
def builtinNames : List String :=
  ["any", "bool", "byte", "comparable", "complex64", "complex128", "error", "float32", "float64",
    "int", "int8", "int16", "int32", "int64", "rune", "string", "uint", "uint8", "uint16", "uint32",
    "uint64", "uintptr"]

/-- The named types in a type. The keys of a map are texts. -/
def TypeExpr.names : TypeExpr → List TypeName
  | .any => []
  | .slice element => element.names
  | .map value => ⟨none, "string"⟩ :: value.names
  | .pointer target => target.names
  | .builtin name => [⟨none, name⟩]
  | .declared name => [⟨none, name⟩]
  | .written text => [.ofText text]
  | .time => [⟨some "time", "Time"⟩]

def TypeBody.names (typeName : String) : TypeBody → List TypeName
  | .struct fields => fields.flatMap (·.type.names)
  | .enumeration constants => ⟨none, "string"⟩ :: constants.map fun _ => ⟨none, typeName⟩
  | .alias target => target.names

def Declaration.names (d : Declaration) : List TypeName := d.body.names d.name

def SourceFile.names (f : SourceFile) : List TypeName := f.types.flatMap Declaration.names

theorem TypeExpr.names_optional (t : TypeExpr) : t.optional.names = t.names := by
  unfold TypeExpr.optional
  split <;> rfl

namespace Emission

abbrev Import := String × Option String

/-- The type that a form takes from elsewhere, and the import it needs. -/
def Form.taken? : Form → Option (TypeName × Option Import)
  | .spelledOut text source => some (.ofText text, source)
  | .scalar .time => some (⟨some "time", "Time"⟩, some ("time", none))
  | _ => none

/-- A schema takes a type if it does so itself or a part does that its form looks into. -/
inductive Takes : Schema → TypeName → Option Import → Prop
  | here {s : Schema} {n : TypeName} {source : Option Import}
      (h : (form s).taken? = some (n, source)) : Takes s n source
  | within {s part : Schema} {n : TypeName} {source : Option Import}
      (hp : part ∈ (form s).parts s) (h : Takes part n source) : Takes s n source

/-- What is taken by one of some schemas. -/
def AnyTakes (schemas : List Schema) (n : TypeName) (source : Option Import) : Prop :=
  ∃ s ∈ schemas, Takes s n source

theorem not_anyTakes_nil (n : TypeName) (source : Option Import) : ¬AnyTakes [] n source := by
  rintro ⟨_, h, _⟩
  cases h

theorem takes_iff {s : Schema} {n : TypeName} {source : Option Import} :
    Takes s n source ↔
      (form s).taken? = some (n, source) ∨ AnyTakes ((form s).parts s) n source := by
  constructor
  · intro h
    cases h with
    | here h => exact .inl h
    | within hp h => exact .inr ⟨_, hp, h⟩
  · rintro (h | ⟨part, hp, h⟩)
    · exact .here h
    · exact .within hp h

def uses (e : Emission) : List TypeName := e.declarations.flatMap (·.2.names)

variable {components : Dict String}

/-- A name that is built in, or that of a component or of a type that is begun. -/
def Own (components : Dict String) (e : Emission) (n : TypeName) : Prop :=
  n.package = none ∧
    (n.name ∈ builtinNames ∨ n.name ∈ e.begun ∨ n.name ∈ Dict.values components)

theorem Own.mono {e e' : Emission} {n : TypeName} (h : Own components e n)
    (hb : e.begun ⊆ e'.begun) : Own components e' n :=
  h.imp_right fun h => h.imp_right fun h => h.imp_left fun h => hb h

/-- A run from `e` to `e'` that leads to types with the given names: it names and imports what the
schemas take, it drops nothing, and all other names are its own. -/
structure Accounts (components : Dict String) (takes : TypeName → Option Import → Prop)
    (names : List TypeName) (e e' : Emission) : Prop where
  begun : e.begun ⊆ e'.begun
  found : ∀ n, n ∈ names ∨ n ∈ e'.uses →
    n ∈ e.uses ∨ (∃ source, takes n source) ∨ Own components e' n
  held : ∀ n, n ∈ e.uses ∨ (∃ source, takes n source) → n ∈ names ∨ n ∈ e'.uses
  imports : ∀ i ∈ e'.imports, i ∈ e.imports ∨ ∃ n, takes n (some i)
  paths : ∀ path, path ∈ Dict.keys e.imports ∨ (∃ n name, takes n (some (path, name))) →
    path ∈ Dict.keys e'.imports

namespace Accounts

variable {takes more : TypeName → Option Import → Prop} {names others : List TypeName}
  {e e₁ e' : Emission}

theorem unchanged (e : Emission) (hnames : ∀ n ∈ names, Own components e n)
    (htakes : ∀ n source, ¬takes n source) : Accounts components takes names e e where
  begun _ h := h
  found n h := h.symm.imp_right fun h => .inr (hnames n h)
  held n h := .inr (h.resolve_right fun ⟨source, h⟩ => htakes n source h)
  imports _ h := .inl h
  paths path h := h.resolve_right fun ⟨n, name, h⟩ => htakes n (some (path, name)) h

theorem imported (e : Emission) (n : TypeName) (source : Option Import) :
    Accounts components (fun m i => m = n ∧ i = source) [n] e (e.imported source) := by
  have huses : (e.imported source).uses = e.uses := by
    rcases source with _ | ⟨path, name⟩ <;> rfl
  refine ⟨?_, ?_, ?_, ?_, ?_⟩
  · rcases source with _ | ⟨path, name⟩ <;> exact fun _ h => h
  · rintro m (hm | hm)
    · exact .inr (.inl ⟨source, List.mem_singleton.mp hm, rfl⟩)
    · exact .inl (huses ▸ hm)
  · rintro m (hm | ⟨_, rfl, _⟩)
    · exact .inr (huses ▸ hm)
    · exact .inl List.mem_cons_self
  · intro i hi
    rcases source with _ | ⟨path, name⟩
    · exact .inl hi
    · rcases Dict.mem_insert hi with rfl | hi
      · exact .inr ⟨n, rfl, rfl⟩
      · exact .inl hi
  · intro path hpath
    rcases source with _ | ⟨own, name⟩
    · exact hpath.resolve_right nofun
    · apply Dict.mem_keys_insert.mpr
      rcases hpath with hpath | ⟨_, _, _, heq⟩
      · exact .inr hpath
      · cases heq
        exact .inl rfl

theorem trans (h : Accounts components takes names e e₁)
    (h' : Accounts components more others e₁ e') :
    Accounts components (fun n i => takes n i ∨ more n i) (names ++ others) e e' where
  begun _ hb := h'.begun (h.begun hb)
  found n hn := by
    have hcases : (n ∈ names ∨ n ∈ e₁.uses) ∨ (∃ i, more n i) ∨ Own components e' n := by
      rcases hn with hn | hn
      · rcases List.mem_append.mp hn with hn | hn
        · exact .inl (.inl hn)
        · exact (h'.found n (.inl hn)).imp_left .inr
      · exact (h'.found n (.inr hn)).imp_left .inr
    rcases hcases with hn | ⟨i, hm⟩ | ho
    · rcases h.found n hn with hu | ⟨i, ht⟩ | ho
      · exact .inl hu
      · exact .inr (.inl ⟨i, .inl ht⟩)
      · exact .inr (.inr (ho.mono h'.begun))
    · exact .inr (.inl ⟨i, .inr hm⟩)
    · exact .inr (.inr ho)
  held n hn := by
    have hcases : (n ∈ e.uses ∨ ∃ i, takes n i) ∨ ∃ i, more n i := by
      rcases hn with hu | ⟨i, ht | hm⟩
      · exact .inl (.inl hu)
      · exact .inl (.inr ⟨i, ht⟩)
      · exact .inr ⟨i, hm⟩
    rw [List.mem_append]
    rcases hcases with hn | hm
    · rcases h.held n hn with hn | hu
      · exact .inl (.inl hn)
      · exact (h'.held n (.inl hu)).imp_left .inr
    · exact (h'.held n (.inr hm)).imp_left .inr
  imports i hi := by
    rcases h'.imports i hi with hi | ⟨n, hm⟩
    · exact (h.imports i hi).imp_right fun ⟨n, ht⟩ => ⟨n, .inl ht⟩
    · exact .inr ⟨n, .inr hm⟩
  paths path hp := by
    rcases hp with hp | ⟨n, name, ht | hm⟩
    · exact h'.paths path (.inl (h.paths path (.inl hp)))
    · exact h'.paths path (.inl (h.paths path (.inr ⟨n, name, ht⟩)))
    · exact h'.paths path (.inr ⟨n, name, hm⟩)

theorem congr (h : Accounts components takes names e e')
    (htakes : ∀ n source, takes n source ↔ more n source)
    (hnames : ∀ n, n ∈ names ↔ n ∈ others) : Accounts components more others e e' where
  begun := h.begun
  found n := by simpa only [htakes, hnames] using h.found n
  held n := by simpa only [htakes, hnames] using h.held n
  imports i := by simpa only [htakes] using h.imports i
  paths path := by simpa only [htakes] using h.paths path

theorem withTakes (h : Accounts components takes names e e')
    (htakes : ∀ n source, takes n source ↔ more n source) :
    Accounts components more names e e' := h.congr htakes fun _ => Iff.rfl

theorem withOwn (h : Accounts components takes names e e') {n : TypeName}
    (hn : Own components e' n) : Accounts components takes (n :: names) e e' := by
  have hown : Accounts components (fun _ _ => False) [n] e' e' :=
    .unchanged e' (fun m hm => List.mem_singleton.mp hm ▸ hn) fun _ _ => id
  exact (h.trans hown).congr (fun _ _ => or_iff_left id) fun m => by simp [or_comm]

theorem of_form {s : Schema} {f : Form} (hf : form s = f) (htaken : f.taken? = none)
    (h : Accounts components (AnyTakes (f.parts s)) names e e') :
    Accounts components (Takes s) names e e' := by
  refine h.withTakes fun n source => ?_
  rw [takes_iff, hf, htaken]
  simp

theorem single {s : Schema} (h : Accounts components (Takes s) names e e') :
    Accounts components (AnyTakes [s]) names e e' :=
  h.withTakes fun n source => by simp [AnyTakes]

/-- The names of a type go into its declaration. -/
theorem declaring {d : Declaration} (h : Accounts components takes names (e.beginning d.name) e₁)
    (hd : d.name ∉ Dict.keys e₁.declarations) (hnames : ∀ n ∈ names, n ∈ d.names)
    (hown : ∀ n ∈ d.names, n ∈ names ∨ Own components e₁ n) :
    Accounts components takes [] e (e₁.declaring d) := by
  have huses : ∀ n, n ∈ (e₁.declaring d).uses ↔ n ∈ d.names ∨ n ∈ e₁.uses := by
    intro n
    have hperm := (Dict.insert_perm hd d).flatMap_right fun p => p.2.names
    rw [uses, Emission.declaring, hperm.mem_iff, List.flatMap_cons, List.mem_append]
    rfl
  refine ⟨fun _ hb => h.begun (List.mem_cons_of_mem _ hb), ?_, ?_, h.imports, h.paths⟩
  · intro n hn
    rcases (huses n).mp (hn.resolve_left List.not_mem_nil) with hn | hn
    · rcases hown n hn with hn | ho
      · exact h.found n (.inl hn)
      · exact .inr (.inr ho)
    · exact h.found n (.inr hn)
  · intro n hn
    right
    rw [huses]
    exact (h.held n hn).imp_left (hnames n)

/-- A declared type goes by its own name. -/
theorem declared {d : Declaration} (h : Accounts components takes [] e (e₁.declaring d))
    (hb : d.name ∈ e₁.begun) : Accounts components takes [⟨none, d.name⟩] e (e₁.declaring d) :=
  h.withOwn ⟨rfl, .inr (.inl hb)⟩

end Accounts

theorem names_of_scalar {s : Schema} {type : TypeExpr} (hf : form s = .scalar type)
    (htime : type ≠ .time) : ∀ n ∈ type.names, n.package = none ∧ n.name ∈ builtinNames := by
  have hscalar := scalar?_of_form hf
  unfold scalar? at hscalar
  repeat' split at hscalar
  all_goals cases hscalar
  · exact absurd rfl htime
  all_goals simp [TypeExpr.names, builtinNames]

theorem accounts_fieldsOf {properties : List (String × Schema)}
    (hparts : ∀ part ∈ properties.map (·.2), ∀ hint t e e',
      e.AllBegun → (typeOf components part hint).run e = .ok (t, e') →
        Accounts components (Takes part) t.names e e')
    {typeName : String} {required taken : List String} {fields : List Field} {e e' : Emission}
    (he : e.AllBegun)
    (h : (fieldsOf components typeName required taken properties).run e = .ok (fields, e')) :
    Accounts components (AnyTakes (properties.map (·.2))) (fields.flatMap (·.type.names)) e e' := by
  induction properties generalizing taken fields e with
  | nil =>
    obtain ⟨rfl, rfl⟩ := run_fieldsOf_nil.mp h
    exact .unchanged e' (List.forall_mem_nil _) not_anyTakes_nil
  | cons property rest ih =>
    obtain ⟨type, e₁, more, ht, hrest, rfl⟩ := run_fieldsOf_cons.mp h
    have hfirst := hparts property.2 List.mem_cons_self _ _ _ _ he ht
    have he₁ := (kept_declaresBegun.typeOf ht).within he
    have hmore := ih (fun part hp => hparts part (List.mem_cons_of_mem _ hp)) he₁ hrest
    have hnames : (fieldFor required (fieldName taken property.1) property.1 property.2
        type).type.names = type.names := by
      unfold fieldFor
      split
      · rfl
      · exact type.names_optional
    refine (hfirst.trans hmore).congr (fun n source => ?_) fun n => ?_
    · simp [AnyTakes]
    · rw [List.flatMap_cons, hnames]

theorem accounts_partType {part : Option Schema}
    (hparts : ∀ s ∈ part.toList, ∀ hint t e e',
      e.AllBegun → (typeOf components s hint).run e = .ok (t, e') →
        Accounts components (Takes s) t.names e e')
    {hint : String} {t : TypeExpr} {e e' : Emission} (he : e.AllBegun)
    (h : (partType components part hint).run e = .ok (t, e')) :
    Accounts components (AnyTakes part.toList) t.names e e' := by
  cases part with
  | none =>
    obtain ⟨rfl, rfl⟩ := run_pure.mp h
    exact .unchanged e' (List.forall_mem_nil _) not_anyTakes_nil
  | some s => exact (hparts s (by simp) hint t e e' he h).single

theorem accounts_struct {takes : TypeName → Option Import → Prop} {name : String}
    {fields : List Field} {e e₁ : Emission}
    (h : Accounts components takes (fields.flatMap (·.type.names)) (e.beginning name) e₁)
    (hname : name ∉ Dict.keys e₁.declarations) (comment : String) :
    Accounts components takes [] e (e₁.declaring ⟨name, comment, .struct fields⟩) :=
  h.declaring hname (fun _ hn => hn) fun _ hn => .inl hn

theorem accounts_enumeration {name : String} {e : Emission} (he : e.AllBegun)
    (hfree : name ∉ e.begun) (comment : String) (k : Keywords) :
    Accounts components (AnyTakes []) [] e
      ((e.beginning name).declaring ⟨name, comment, enumeration name k⟩) := by
  have hbegun : Accounts components (AnyTakes []) [] (e.beginning name) (e.beginning name) :=
    .unchanged _ (List.forall_mem_nil _) not_anyTakes_nil
  refine hbegun.declaring (d := ⟨name, comment, _⟩) (fun hk => hfree (he hk)) nofun fun n hn => ?_
  rcases List.mem_cons.mp hn with rfl | hn
  · exact .inr ⟨rfl, .inl (by simp [builtinNames])⟩
  · obtain ⟨_, _, rfl⟩ := List.mem_map.mp hn
    exact .inr ⟨rfl, .inr (.inl List.mem_cons_self)⟩

theorem accounts_typeOf {s : Schema} {hint : String} {t : TypeExpr} {e e' : Emission}
    (he : e.AllBegun) (h : (typeOf components s hint).run e = .ok (t, e')) :
    Accounts components (Takes s) t.names e e' := by
  induction s using form_induction generalizing hint t e e' with
  | step s ih =>
    cases typeRun_of_run h with
    | spelledOut hf =>
      refine (Accounts.imported e _ _).withTakes fun n source => ?_
      rw [takes_iff, hf]
      simp [Form.taken?, Form.parts, AnyTakes, eq_comm]
    | reference hf ht hn =>
      refine .of_form hf rfl (.unchanged e (fun n hmem => ?_) not_anyTakes_nil)
      rw [List.mem_singleton.mp hmem]
      have hvalue := List.mem_map_of_mem (f := fun c : String × String => c.2) (Dict.mem_of_get? hn)
      exact ⟨rfl, .inr (.inr hvalue)⟩
    | sole hf hm => exact .of_form hf rfl (ih _ (by simp [hf, Form.parts]) he hm).single
    | any hf => exact .of_form hf rfl (.unchanged e (List.forall_mem_nil _) not_anyTakes_nil)
    | struct hf hn hr =>
      have hfree := hn ▸ hoistedName_not_mem_begun e s hint
      have hfields := accounts_fieldsOf
        (fun part hp hint t e e' he h => ih part (by simpa [hf, Form.parts] using hp) he h)
        (he.beginning _) hr
      have hname := (kept_declaresBegun.fieldsOf hr).not_mem_keys hfree he
      have hdeclared := accounts_struct hfields hname (s.keywords.description.getD "")
      exact .of_form hf rfl (hdeclared.declared (hfields.begun List.mem_cons_self))
    | enumeration hf hn =>
      have hfree := hn ▸ hoistedName_not_mem_begun e s hint
      have hdeclared : Accounts components (AnyTakes []) [] e _ :=
        accounts_enumeration he hfree (s.keywords.description.getD "") s.keywords
      exact .of_form hf rfl (hdeclared.declared List.mem_cons_self)
    | scalar hf =>
      by_cases htime : t = .time
      · subst htime
        rw [if_pos rfl]
        refine (Accounts.imported e _ _).withTakes fun n source => ?_
        rw [takes_iff, hf]
        simp [Form.taken?, Form.parts, AnyTakes, eq_comm]
      · rw [if_neg htime]
        have htaken : (Form.scalar t).taken? = none := by
          unfold Form.taken?
          split <;> simp_all
        exact .of_form hf htaken (.unchanged e
          (fun n hn => (names_of_scalar hf htime n hn).imp_right .inl) not_anyTakes_nil)
    | array hf hi =>
      have hitems := accounts_partType
        (fun part hp hint t e e' he h => ih part (by simpa [hf, Form.parts] using hp) he h) he hi
      exact .of_form hf rfl hitems
    | map hf hv =>
      have hvalues := accounts_partType
        (fun part hp hint t e e' he h => ih part (by simpa [hf, Form.parts] using hp) he h) he hv
      exact .of_form hf rfl (hvalues.withOwn ⟨rfl, .inl (by simp [builtinNames])⟩)

/-- The schemas that the type of a component is found by. -/
def componentParts (s : Schema) : List Schema :=
  if isStruct s then s.properties.map (·.2) else if isEnumeration s.keywords then [] else [s]

theorem accounts_declareComponent {component name : String} {s : Schema} {u : Unit}
    {e e' : Emission} (he : e.AllBegun)
    (h : (declareComponent components component name s).run e = .ok (u, e')) :
    Accounts components (AnyTakes (componentParts s)) [] e e' := by
  obtain ⟨hfree, body, e₁, hbody, rfl⟩ := run_declareComponent h
  unfold componentParts
  cases hbody with
  | struct hs hr =>
    rw [if_pos hs]
    have hname := (kept_declaresBegun.fieldsOf hr).not_mem_keys hfree he
    have hfields := accounts_fieldsOf (fun _ _ _ _ _ _ => accounts_typeOf) (he.beginning name) hr
    exact accounts_struct hfields hname _
  | enumeration hs hv =>
    rw [if_neg (by simp [hs]), if_pos hv]
    exact accounts_enumeration he hfree _ _
  | synonym hs hv ht =>
    rw [if_neg (by simp [hs]), if_neg (by simp [hv])]
    have hname := (kept_declaresBegun.typeOf ht).not_mem_keys hfree he
    have htype := (accounts_typeOf (he.beginning name) ht).single
    exact htype.declaring hname (fun _ hn => hn) fun _ hn => .inl hn

theorem accounts_declareAll {schemas : List (String × Schema)} {e e' : Emission}
    (he : e.AllBegun) (h : declareAll components e schemas = .ok e') :
    Accounts components (AnyTakes (schemas.flatMap fun c => componentParts c.2)) [] e e' := by
  induction schemas generalizing e with
  | nil =>
    cases h
    exact .unchanged _ (List.forall_mem_nil _) not_anyTakes_nil
  | cons c rest ih =>
    obtain ⟨e₁, hc, hrest⟩ := declareAll_cons_ok h
    have hmore := ih ((kept_declaresBegun.declareComponent hc).within he) hrest
    refine ((accounts_declareComponent he hc).trans hmore).withTakes fun n source => ?_
    simp [AnyTakes, or_and_right, exists_or]

end Emission

/-- What the types of the components are taken from. -/
def DocumentTakes (doc : OpenApi) (n : TypeName) (source : Option Emission.Import) : Prop :=
  Emission.AnyTakes (doc.schemas.flatMap fun c => Emission.componentParts c.2) n source

/-- The names and the imports of a file, accounted for by its document. -/
structure AccountedFor (f : SourceFile) (doc : OpenApi) : Prop where
  found : ∀ n ∈ f.names, (∃ source, DocumentTakes doc n source) ∨
    n.package = none ∧ (n.name ∈ builtinNames ∨ n.name ∈ f.typeNames)
  taken : ∀ n source, DocumentTakes doc n source → n ∈ f.names
  imports : ∀ i ∈ f.imports, ∃ n, DocumentTakes doc n (some i)
  paths : ∀ n path name, DocumentTakes doc n (some (path, name)) → path ∈ Dict.keys f.imports

theorem accountedFor {doc : OpenApi} {package : String} {f : SourceFile}
    (h : emit doc package = .ok f) : AccountedFor f doc := by
  have hnames : ∀ name, name ∈ f.typeNames ↔ name ∈ (documentTypes doc).map (·.name) :=
    fun name => (typeNames_perm_documentTypes h).mem_iff
  obtain ⟨e, he, rfl⟩ := Emission.emit_ok h
  have hnone : Emission.AllBegun {} := fun _ hk => absurd hk (by simp [Dict.keys])
  have ha := Emission.accounts_declareAll hnone he
  have hbegun : e.begun = (documentTypes doc).map (·.name) := by
    rw [(Emission.declares_declareAll hnone he).begun, List.append_nil]
    rfl
  have huses : SourceFile.names ⟨package, doc.title, e.imports, e.declarations⟩ = e.uses := by
    rw [SourceFile.names, SourceFile.types, List.flatMap_map]
    rfl
  refine ⟨fun n hn => ?_, fun n source ht => ?_, fun i hi => ?_, fun n path name ht => ?_⟩
  · rw [huses] at hn
    rcases ha.found n (.inr hn) with hu | ht | ⟨hpackage, hname⟩
    · cases hu
    · exact .inl ht
    · refine .inr ⟨hpackage, hname.imp_right fun hname => (hnames n.name).mpr ?_⟩
      rcases hname with hb | hv
      · exact hbegun ▸ hb
      · exact Emission.mem_documentTypes_of_mem_values hv
  · rw [huses]
    exact (ha.held n (.inr ⟨source, ht⟩)).resolve_left List.not_mem_nil
  · exact (ha.imports i hi).resolve_left List.not_mem_nil
  · exact ha.paths path (.inr ⟨n, name, ht⟩)

end ResourceModels.Go
