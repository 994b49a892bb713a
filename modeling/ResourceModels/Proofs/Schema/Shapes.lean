import ResourceModels.Proofs.Schema.Nodes

/-!
# Schemas by their nodes

The shape of a schema is what is left when its parts are blank: its own keywords, and where it has
parts. A schema is known from the shapes of its nodes in order, since each shape tells how many of
the nodes that follow belong to it. So a relation between the nodes of two schemas, one by one, says
all there is to say about how one is made from the other.
-/

namespace ResourceModels.Schema

/-- The schema with all of its parts blank. -/
def shape (s : Schema) : Schema := s.withParts fun _ => {}

theorem length_parts_shape (s : Schema) : s.shape.parts.length = s.parts.length := by
  rw [shape, parts_withParts, List.length_map]

theorem shape_withParts (φ : Schema → Schema) (s : Schema) : (s.withParts φ).shape = s.shape :=
  withParts_withParts φ _ s

theorem properties_eq_of_shape {properties properties' : List (String × Schema)}
    (hshape : Dict.mapValues (fun _ => ({} : Schema)) properties =
      Dict.mapValues (fun _ => {}) properties')
    (hparts : properties.map (·.2) = properties'.map (·.2)) : properties = properties' := by
  have hnames : properties.map (·.1) = properties'.map (·.1) := by
    have hnames := congrArg (List.map (·.1)) hshape
    simpa only [Dict.mapValues, List.map_map, Function.comp_def] using hnames
  calc properties = (properties.map (·.1)).zip (properties.map (·.2)) := List.zip_of_prod rfl rfl
    _ = (properties'.map (·.1)).zip (properties'.map (·.2)) := by rw [hnames, hparts]
    _ = properties' := (List.zip_of_prod rfl rfl).symm

theorem additional_eq_of_shape {additional additional' : Option (Extra Schema)}
    (hshape : additional.map (Extra.map fun _ => ({} : Schema)) =
      additional'.map (Extra.map fun _ => {}))
    (hparts : extraPart? additional = extraPart? additional') : additional = additional' := by
  rcases additional with _ | (_ | _) <;> rcases additional' with _ | (_ | _) <;>
    simp_all [extraPart?, Extra.map]

/-- A schema is known from its shape and its parts. -/
theorem eq_of_shape {s t : Schema} (hshape : s.shape = t.shape) (hparts : s.parts = t.parts) :
    s = t := by
  obtain ⟨k, properties, items, additional, allOf, anyOf, oneOf, not⟩ := s
  obtain ⟨k', properties', items', additional', allOf', anyOf', oneOf', not'⟩ := t
  simp only [shape, withParts, mk.injEq] at hshape
  obtain ⟨rfl, hproperties, hitems, hadditional, hallOf, hanyOf, honeOf, hnot⟩ := hshape
  have hlist : ∀ {l l' : List Schema}, l.map (fun _ => ({} : Schema)) = l'.map (fun _ => {}) →
      l.length = l'.length := fun h => by simpa using congrArg List.length h
  have hoption : ∀ {o o' : Option Schema}, o.map (fun _ => ({} : Schema)) = o'.map (fun _ => {}) →
      o.toList.length = o'.toList.length := by
    intro o o' h
    cases o <;> cases o' <;> simp_all
  have hsome : ∀ {o o' : Option Schema}, o.toList = o'.toList → o = o' :=
    fun h => by simpa using congrArg List.head? h
  have hextra : (extraPart? additional).toList.length = (extraPart? additional').toList.length := by
    apply hoption
    rw [← extraPart?_map, hadditional, extraPart?_map]
  simp only [parts] at hparts
  -- the lists of parts have equal lengths, so they can be told apart from the last on
  obtain ⟨hsix, hnotParts⟩ := List.append_inj' hparts (hoption hnot)
  obtain ⟨hfive, hone⟩ := List.append_inj' hsix (hlist honeOf)
  obtain ⟨hfour, hany⟩ := List.append_inj' hfive (hlist hanyOf)
  obtain ⟨hthree, hall⟩ := List.append_inj' hfour (hlist hallOf)
  obtain ⟨htwo, hextraParts⟩ := List.append_inj' hthree hextra
  obtain ⟨hnamed, hitemParts⟩ := List.append_inj' htwo (hoption hitems)
  rw [properties_eq_of_shape hproperties hnamed, hsome hitemParts,
    additional_eq_of_shape hadditional (hsome hextraParts),
    hall, hany, hone, hsome hnotParts]

section

variable {rest rest' : List Schema}

theorem forests_eq_of_shapes {ss ts : List Schema} (hlength : ss.length = ts.length)
    (heq : ∀ s ∈ ss, ∀ (t : Schema) (rest rest' : List Schema),
      (s.nodes ++ rest).map shape = (t.nodes ++ rest').map shape →
        s = t ∧ rest.map shape = rest'.map shape)
    (h : (ss.flatMap nodes ++ rest).map shape = (ts.flatMap nodes ++ rest').map shape) :
    ss = ts ∧ rest.map shape = rest'.map shape := by
  induction ss generalizing ts with
  | nil =>
    obtain rfl := List.length_eq_zero_iff.mp hlength.symm
    exact ⟨rfl, h⟩
  | cons s ss ih =>
    cases ts with
    | nil => cases hlength
    | cons t ts =>
      simp only [List.flatMap_cons, List.append_assoc] at h
      obtain ⟨rfl, hothers⟩ := heq s List.mem_cons_self t _ _ h
      obtain ⟨rfl, hrest⟩ := ih (Nat.succ.inj hlength)
        (fun s hs => heq s (List.mem_cons_of_mem _ hs)) hothers
      exact ⟨rfl, hrest⟩

theorem eq_of_shapes_append (s t : Schema) (rest rest' : List Schema)
    (h : (s.nodes ++ rest).map shape = (t.nodes ++ rest').map shape) :
    s = t ∧ rest.map shape = rest'.map shape := by
  induction s using parts_induction generalizing t rest rest' with
  | step s ih =>
    rw [nodes_eq s, nodes_eq t, List.cons_append, List.cons_append, List.map_cons, List.map_cons,
      List.cons.injEq] at h
    obtain ⟨hshape, h⟩ := h
    have hlength : s.parts.length = t.parts.length := by
      rw [← length_parts_shape, hshape, length_parts_shape]
    obtain ⟨hparts, hrest⟩ := forests_eq_of_shapes hlength ih h
    exact ⟨eq_of_shape hshape hparts, hrest⟩

/-- A schema is known from the shapes of its nodes. -/
theorem eq_of_shapes {s t : Schema} (h : s.nodes.map shape = t.nodes.map shape) : s = t := by
  refine (eq_of_shapes_append s t [] [] ?_).1
  rw [List.append_nil, List.append_nil, h]

end

section

variable {f : Schema → Schema}

/-- A change that keeps the parts changes each node where it stands. -/
theorem nodes_mapNodes (hf : ∀ s, (f s).parts = s.parts) (s : Schema) :
    (mapNodes f s).nodes = s.nodes.map (mapNodes f) := by
  induction s using parts_induction with
  | step s ih =>
    have hparts : (mapNodes f s).parts = s.parts.map (mapNodes f) := by
      rw [mapNodes_eq_withParts, hf, parts_withParts]
    rw [nodes_eq, hparts, nodes_eq s, List.map_cons, List.flatMap_map, List.map_flatMap]
    congr 1
    exact List.flatMap_congr ih

theorem mapNodes_eq_self (s : Schema) (h : ∀ n ∈ s.nodes, f n = n) : mapNodes f s = s := by
  induction s using parts_induction with
  | step s ih =>
    rw [nodes_eq, List.forall_mem_cons, List.forall_mem_flatMap] at h
    have hkeep : s.withParts (mapNodes f) = s :=
      (withParts_congr fun part hp => ih part hp (h.2 part hp)).trans (withParts_id s)
    rw [mapNodes_eq_withParts, hkeep, h.1]

theorem mem_nodes_of_mem_parts {s n part : Schema} (hn : n ∈ s.nodes) (hp : part ∈ n.parts) :
    part ∈ s.nodes := by
  induction s using parts_induction with
  | step s ih =>
    rw [nodes_eq] at hn
    rcases List.mem_cons.mp hn with rfl | hn
    · exact nodes_subset_of_mem_parts hp part.self_mem_nodes
    · obtain ⟨own, hown, hn⟩ := List.mem_flatMap.mp hn
      exact nodes_subset_of_mem_parts hown (ih own hown hn)

/-- A change that keeps the parts keeps a schema exactly if it keeps each node. -/
theorem mapNodes_eq_self_iff (hf : ∀ s, (f s).parts = s.parts) {s : Schema} :
    mapNodes f s = s ↔ ∀ n ∈ s.nodes, f n = n := by
  refine ⟨fun h n hn => ?_, mapNodes_eq_self s⟩
  have hnodes : s.nodes.map (mapNodes f) = s.nodes.map fun n => n := by
    rw [List.map_id', ← nodes_mapNodes hf, h]
  have hkept : ∀ n ∈ s.nodes, mapNodes f n = n := List.map_inj_left.mp hnodes
  have hparts : n.withParts (mapNodes f) = n := by
    rw [withParts_congr fun part hp => hkept part (mem_nodes_of_mem_parts hn hp)]
    exact withParts_id n
  have hown := hkept n hn
  rwa [mapNodes_eq_withParts, hparts] at hown

end

end ResourceModels.Schema
