import ResourceModels.Host.Walk
import ResourceModels.Proofs.Dict
import ResourceModels.Proofs.Host.Leads
import ResourceModels.Proofs.Path.Directory

/-!
# Trees of directories, files and links

Every node of a machine's file system has a name and stands in a directory. So a place is known by
the text that it is stored under, what is listed in a directory is what stands in it, and a path
without links leads to the place that it spells.
-/

namespace ResourceModels.Host

open ResourceModels.Path (IsFilePath IsPlain isSeparator)

/-- A name of a node. None holds a backslash, which stored paths take for a separator. -/
structure IsName (name : String) : Prop where
  plain : IsPlain name
  size : name.utf8ByteSize ≤ maxName
  noSeparator : ∀ c ∈ name.toList, isSeparator c = false
  noZero : '\x00' ∉ name.toList

/-- The nodes are made of names, each in a directory. -/
structure IsTree (h : Host) : Prop where
  normal : ∀ k ∈ Dict.keys h.nodes, IsFilePath k ∧ '\x00' ∉ k.toList
  size : ∀ k ∈ Dict.keys h.nodes, ∀ s ∈ Path.segments k, s.utf8ByteSize ≤ maxName
  parent : ∀ k ∈ Dict.keys h.nodes, Path.parent k = "" ∨ h.nodes.get? (Path.parent k) = some .dir

instance : DecidablePred IsName := fun name =>
  decidable_of_iff (IsPlain name ∧ name.utf8ByteSize ≤ maxName ∧
      (name.toList.all fun c => !isSeparator c) = true ∧ '\x00' ∉ name.toList)
    ⟨fun ⟨hplain, hsize, hclean, hzero⟩ => ⟨hplain, hsize, by simpa using hclean, hzero⟩,
      fun h => ⟨h.plain, h.size, by simpa using h.noSeparator, h.noZero⟩⟩

def IsPlace (place : List String) : Prop := ∀ name ∈ place, IsName name

variable {h : Host} {place place' segments found : List String} {name : String} {n : Node} {cost : Nat}

theorem IsName.slash_notMem (hname : IsName name) : '/' ∉ name.toList := fun hmem =>
  absurd (hname.noSeparator '/' hmem) (by decide)

theorem IsName.isStep (hname : IsName name) : IsStep name :=
  ⟨hname.plain, hname.size, hname.slash_notMem⟩

theorem key_singleton (name : String) : key [name] = name := rfl

theorem key_cons (hplace : place ≠ []) (name : String) :
    key (name :: place) = key place ++ "/" ++ name := by
  rw [key, List.reverse_cons, Text.join_concat "/" (List.reverse_eq_nil_iff.not.mpr hplace), key]

theorem IsPlace.segments_key (hplace : IsPlace place) (hne : place ≠ []) :
    Path.segments (key place) = place.reverse :=
  Path.segments_join (List.reverse_eq_nil_iff.not.mpr hne) fun s hs =>
    (hplace s (List.mem_reverse.mp hs)).noSeparator

theorem IsPlace.isFilePath_key (hplace : IsPlace place) (hne : place ≠ []) :
    IsFilePath (key place) := by
  rw [Path.isFilePath_iff, hplace.segments_key hne]
  refine ⟨fun s hs => (hplace s (List.mem_reverse.mp hs)).plain, fun hmem => ?_⟩
  rcases Text.mem_of_mem_join hmem with hmem | ⟨s, hs, hmem⟩
  · exact absurd hmem (by decide)
  · exact absurd ((hplace s (List.mem_reverse.mp hs)).noSeparator _ hmem) (by decide)

theorem IsPlace.key_inj (hplace : IsPlace place) (hplace' : IsPlace place') (hne : place ≠ [])
    (hne' : place' ≠ []) (hkey : key place = key place') : place = place' := by
  have hsegments := congrArg Path.segments hkey
  rw [hplace.segments_key hne, hplace'.segments_key hne'] at hsegments
  exact List.reverse_inj.mp hsegments

theorem node?_of_ne (hne : place ≠ []) : h.node? place = h.nodes.get? (key place) := by
  rw [node?, if_neg hne]

theorem mem_keys_of_node? (hne : place ≠ []) (hnode : h.node? place = some n) :
    key place ∈ Dict.keys h.nodes := by
  rw [node?_of_ne hne] at hnode
  exact Dict.isSome_get?_iff.mp (by rw [hnode]; rfl)

/-- What is listed in a directory are the names of what stands in it. -/
theorem mem_names (hplace : IsPlace place) : name ∈ names h place ↔
    '/' ∉ name.toList ∧ ∃ n, h.node? (name :: place) = some n := by
  have hbelow : ∀ k, Path.below? k (key place) = some name ↔ k = key (name :: place) := by
    intro k
    by_cases hne : place = []
    · rw [hne, key_singleton]
      exact Option.some_inj
    · rw [key_cons hne, Path.below?, if_neg (IsPlace.isFilePath_key hplace hne).2,
        Text.after?_eq_some]
  have hnode : (∃ n, h.node? (name :: place) = some n) ↔ key (name :: place) ∈ Dict.keys h.nodes := by
    rw [← Option.isSome_iff_exists, node?_of_ne (List.cons_ne_nil _ _), Dict.isSome_get?_iff]
  rw [hnode, names, List.mem_filterMap]
  simp only [Option.filter_eq_some_iff, hbelow, Bool.not_eq_true', List.contains_eq_mem,
    decide_eq_false_iff_not]
  constructor
  · rintro ⟨⟨k, n⟩, hmem, rfl, hslash⟩
    exact ⟨hslash, Dict.mem_keys_of_mem hmem⟩
  · rintro ⟨hslash, hmem⟩
    obtain ⟨⟨k, n⟩, hmem, hkey⟩ := List.mem_map.mp hmem
    exact ⟨(k, n), hmem, hkey, hslash⟩

namespace IsTree

variable (htree : IsTree h)

include htree

/-- Where a node stands, all segments are names. -/
theorem isPlace (hslash : ∀ s ∈ place, '/' ∉ s.toList) (hnode : h.node? place = some n) :
    IsPlace place := by
  by_cases hne : place = []
  · rw [hne]
    exact fun _ hname => absurd hname List.not_mem_nil
  have hkey := mem_keys_of_node? hne hnode
  obtain ⟨hnormal, hzero⟩ := htree.normal _ hkey
  obtain ⟨hplain, hbackslash⟩ := Path.isFilePath_iff.mp hnormal
  have hmem : ∀ s ∈ place, ∀ c ∈ s.toList, c ∈ (key place).toList := fun s hs c hc =>
    Text.mem_join_of_mem (List.mem_reverse.mpr hs) hc
  have hclean : ∀ s ∈ place, ∀ c ∈ s.toList, isSeparator c = false := fun s hs =>
    Path.noSeparator_iff.mpr ⟨hslash s hs, fun hown => hbackslash (hmem s hs _ hown)⟩
  have hsegments : Path.segments (key place) = place.reverse :=
    Path.segments_join (List.reverse_eq_nil_iff.not.mpr hne) fun s hs =>
      hclean s (List.mem_reverse.mp hs)
  intro s hs
  have hown : s ∈ Path.segments (key place) := hsegments ▸ List.mem_reverse.mpr hs
  exact ⟨hplain s hown, htree.size _ hkey s hown, hclean s hs, fun hmem' => hzero (hmem s hs _ hmem')⟩

/-- A node stands in a directory. -/
theorem parent_eq (hplace : IsPlace (name :: place)) (hnode : h.node? (name :: place) = some n) :
    h.node? place = some .dir := by
  by_cases hne : place = []
  · rw [hne]
    rfl
  have hparent := htree.parent _ (mem_keys_of_node? (List.cons_ne_nil _ _) hnode)
  obtain ⟨hname, hplace⟩ := List.forall_mem_cons.mp hplace
  rw [key_cons hne, Path.parent_append_slash hname.slash_notMem] at hparent
  rw [node?_of_ne hne]
  exact hparent.resolve_left (IsPlace.isFilePath_key hplace hne).2

theorem parent_drop (hplace : IsPlace place) (hnode : h.node? place = some n) :
    h.node? (place.drop 1) = some .dir := by
  cases place with
  | nil => rfl
  | cons name place => exact htree.parent_eq hplace hnode

/-- The name of what is listed in a directory. -/
theorem isName_of_mem_names (hplace : IsPlace place) (hname : name ∈ names h place) :
    IsName name := by
  obtain ⟨hslash, n, hnode⟩ := (Host.mem_names hplace).mp hname
  exact htree.isPlace (List.forall_mem_cons.mpr
    ⟨hslash, fun s hs => (hplace s hs).slash_notMem⟩) hnode name List.mem_cons_self

/-- A path of names without links leads where it spells. -/
theorem leads_dir (hplace : IsPlace place) (hnode : h.node? place = some .dir) :
    Leads h 0 [] place.reverse place .dir := by
  induction place with
  | nil => exact .here []
  | cons name place ih =>
    obtain ⟨hname, hrest⟩ := List.forall_mem_cons.mp hplace
    rw [List.reverse_cons]
    exact (ih hrest (htree.parent_eq hplace hnode)).append
      (.dir hname.isStep hnode (.here _))

/-- What a path leads to from a directory stands there, and is no link. -/
theorem node?_of_leads (hleads : Leads h cost place segments found n)
    (hplace : IsPlace place) (hdir : h.node? place = some .dir) :
    IsPlace found ∧ h.node? found = some n ∧ ∀ target, n ≠ .link target := by
  induction hleads with
  | here => exact ⟨hplace, hdir, nofun⟩
  | idle _ _ ih => exact ih hplace hdir
  | up _ ih =>
    exact ih (fun name hname => hplace name (List.mem_of_mem_drop hname))
      (htree.parent_drop hplace hdir)
  | dir hstep hnode _ ih =>
    exact ih (htree.isPlace (List.forall_mem_cons.mpr
      ⟨hstep.noSlash, fun s hs => (hplace s hs).slash_notMem⟩) hnode) hnode
  | file hstep hnode =>
    exact ⟨htree.isPlace (List.forall_mem_cons.mpr
      ⟨hstep.noSlash, fun s hs => (hplace s hs).slash_notMem⟩) hnode, hnode, nofun⟩
  | link hstep hnode _ ih =>
    unfold linkStart at ih
    split at ih
    · exact ih (fun _ hname => absurd hname List.not_mem_nil) rfl
    · exact ih hplace hdir

end IsTree

end ResourceModels.Host
