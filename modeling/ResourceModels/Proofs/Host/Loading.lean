import ResourceModels.Host.Transfer
import ResourceModels.Proofs.Archive.Unpacking
import ResourceModels.Proofs.Host.Walk

/-!
# The list of all that lies below a path

A walk from a path that leads to a directory lists what names reach from there, whether or not the
path itself ends in a link. Without links every start will do; links can be followed from a path
where the machine can follow each path of names.
-/

namespace ResourceModels.Host

variable {h : Host} {follow : Bool} {base root path : String} {place start found segments : List String}
  {n : Node} {links : Nat}

/-- A path that ends in a link leads to it where the link is not followed. -/
theorem walk_unfollowed (hwalk : walk h true links place segments = .ok (.node found n)) :
    walk h false links place segments = .ok (.node found n) ∨
      ∃ own target, walk h false links place segments = .ok (.node own (.link target)) := by
  fun_induction walk h true links place segments with
  | case1 links place =>
    rw [walk]
    exact .inl hwalk
  | case2 links place segment rest hidle ih =>
    rw [walk, if_pos hidle]
    exact ih hwalk
  | case3 links place rest hidle ih =>
    rw [walk, if_neg hidle, if_pos rfl]
    exact ih hwalk
  | case4 => cases hwalk
  | case5 => cases hwalk
  | case6 => cases hwalk
  | case7 links place segment rest hidle hdots hsize here hnode ih =>
    rw [walk, if_neg hidle, if_neg hdots, if_neg hsize]
    simp only [here] at hnode
    simp only [hnode]
    exact ih hwalk
  | case8 links place segment hidle hdots hsize here contents mode hnode =>
    rw [walk, if_neg hidle, if_neg hdots, if_neg hsize]
    simp only [here] at hnode
    simp only [hnode]
    exact .inl hwalk
  | case9 => cases hwalk
  | case10 links place segment rest _ _ _ here target hnode hlast => cases hlast.2
  | case11 => cases hwalk
  | case12 place segment rest hidle hdots hsize here target hnode _ links start' ih =>
    rw [walk, if_neg hidle, if_neg hdots, if_neg hsize]
    simp only [here] at hnode
    simp only [hnode]
    by_cases hlast : rest = []
    · exact .inr ⟨_, _, if_pos ⟨hlast, rfl⟩⟩
    · rw [if_neg fun hrest => hlast hrest.1]
      exact ih hwalk

theorem stat_unfollowed (hstat : stat h true path = .ok (found, n)) :
    stat h false path = .ok (found, n) ∨
      ∃ own target, stat h false path = .ok (own, .link target) := by
  simp only [stat_eq_ok_iff_locate] at hstat ⊢
  unfold locate at hstat ⊢
  split at hstat
  · cases hstat
  split at hstat
  · cases hstat
  · rename_i hzero hlong
    rw [if_neg hzero, if_neg hlong]
    exact walk_unfollowed hstat

theorem IsTree.of_stat (htree : IsTree h) (hstat : stat h true path = .ok (found, n)) :
    IsPlace found ∧ h.node? found = some n ∧ ∀ target, n ≠ .link target := by
  obtain ⟨_, _, cost, _, hleads⟩ := stat_eq_ok_iff.mp hstat
  exact htree.node?_of_leads hleads (fun _ hname => absurd hname List.not_mem_nil) rfl

/-- Without links, no directory is reached from itself. -/
theorem walkable_unfollowed (htree : IsTree h) (hstat : stat h true root = .ok (start, .dir)) :
    Walkable h false root start where
  tree := htree
  place := (htree.of_stat hstat).1
  dir := (htree.of_stat hstat).2.1
  acyclic v mid w hv hw := by
    obtain ⟨hplace, hdir, _⟩ := htree.of_stat hstat
    obtain ⟨hmid, hnode⟩ := htree.node?_of_reaches hplace hdir hv
    obtain ⟨_, hsame, _⟩ := (htree.reaches_false_iff hmid hnode).mp hw
    have hlength := congrArg List.length hsame
    rw [List.length_append, List.length_reverse] at hlength
    exact List.length_eq_zero_iff.mp (by omega)
  stat hfollow := nomatch hfollow

theorem walkable_followed (htree : IsTree h) (hbase : base ≠ "")
    (hfollow : Followable h base start) : Walkable h true base start where
  tree := htree
  place := (htree.of_stat hfollow.stat_base).1
  dir := (htree.of_stat hfollow.stat_base).2.1
  acyclic v mid w hv hw := by
    obtain ⟨hnames, first, hfirst⟩ := reaches_true_iff.mp hv
    obtain ⟨hnames', cost, hleads⟩ := reaches_true_iff.mp hw
    by_contra hne
    exact hfollow.not_leads_self hbase hnames hfirst hnames' hne hleads
  stat _ v mid name found n hv hname := by
    obtain ⟨hnames, first, hfirst⟩ := reaches_true_iff.mp hv
    have hall : ∀ s ∈ v ++ [name], IsName s :=
      List.forall_mem_append.mpr ⟨hnames, List.forall_mem_singleton.mpr hname⟩
    rw [← pathTo_concat, hfollow.stat_iff hbase hall]
    constructor
    · rintro ⟨cost, _, hleads⟩
      obtain ⟨first', more, mid', _, hmid, hmore⟩ :=
        hleads.exists_of_append (List.cons_ne_nil _ _)
      obtain ⟨_, rfl, _⟩ := hfirst.unique hmid
      exact ⟨more, hmore⟩
    · rintro ⟨more, hmore⟩
      have hleads := hfirst.append hmore
      exact ⟨first + more, hfollow.cost_le hbase hall hleads, hleads⟩

theorem eq_cons_of_walkNode {fuel : Nat} {around : List Around} {m : Met} {all : List Met}
    (hall : walkNode h follow (fuel + 1) around m = .ok all) : all = m :: all.drop 1 := by
  rw [walkNode] at hall
  split at hall
  · obtain ⟨rest, _, rfl⟩ := Outcome.bind_pure_eq_ok.mp hall
    rfl
  · cases hall
    rfl

/-- A walk from a path to a directory lists what names reach from there, or it ends at a lost link.
What it says of the start is left open: that may be a link. -/
theorem Walkable.lists_from (hwalk : Walkable h follow root start)
    (hstat : Host.stat h true root = .ok (start, .dir)) :
    (Lost h follow start → ∃ f, walkFrom h follow root = .error f) ∧
    (¬Lost h follow start → ∃ all, walkFrom h follow root = .ok all ∧ ∀ met, met.segments ≠ [] →
      (met ∈ all ↔ Meets h follow ⟨root, [], start, .dir⟩ met)) := by
  have hstart : Walking h follow root start [] ⟨root, [], start, .dir⟩ :=
    ⟨rfl, ⟨[], .here start, rfl⟩, fun _ ha => absurd ha List.not_mem_nil, List.nodup_nil⟩
  have hfuel : h.nodes.length < walkFuel h + ([] : List Around).length := by
    rw [walkFuel]
    omega
  obtain ⟨hlost, hkept⟩ := hwalk.lists_node hstart hfuel
  unfold walkFrom
  rcases stat_unfollowed hstat with hsame | ⟨own, target, hlink⟩
  · simp only [hsame]
    refine ⟨hlost, fun hnone => ?_⟩
    obtain ⟨all, hall, hmem⟩ := hkept hnone
    exact ⟨all, hall, fun met _ => hmem met⟩
  · simp only [hlink, hstat]
    refine ⟨fun h => ?_, fun hnone => ?_⟩
    · obtain ⟨f, hf⟩ := hlost h
      exact ⟨f, by rw [hf]; rfl⟩
    obtain ⟨all, hall, hmem⟩ := hkept hnone
    refine ⟨_, by rw [hall]; rfl, fun met hsegments => ?_⟩
    have hother : ∀ n, met ≠ ⟨root, [], start, n⟩ := fun n heq => hsegments (heq ▸ rfl)
    rw [← hmem met, eq_cons_of_walkNode hall, List.mem_cons, List.mem_cons, List.drop_one,
      List.tail_cons]
    simp only [hother, false_or]

end ResourceModels.Host

/-!
## The tree of a directory

A directory is loaded as the files and links that names reach in it, each at the path of these names.
No path leads out of the tree, as no name does, so a directory that can be listed can be loaded.
-/

namespace ResourceModels.Host

open Archive (putFiles)
open FileStore (lookup? put)
open ResourceModels.Path (IsFilePath)

/-- What a tree holds of a node. -/
def stored? : Node → Option Entry
  | .dir => none
  | .file contents mode => some ⟨contents, mode % 0o1000, none⟩
  | .link target => some (.link target)

/-- What a tree takes up of a node that a walk meets. -/
def taken (m : Met) : Option (String × Entry) :=
  if m.segments = [] then none else (stored? m.node).map fun e => (relative m, e)

/-- A tree holds the files and links that names reach in a directory. -/
def TreeOf (h : Host) (place : List String) (t : FileTree) : Prop :=
  ∀ path e, lookup? t path = some e ↔ ∃ segments found n, Reaches h false place segments found n ∧
    Text.join "/" segments = path ∧ stored? n = some e

variable {h : Host} {follow : Bool} {root path : String}
  {place segments segments' found : List String} {n : Node} {m : Met} {t : FileTree} {e : Entry}

theorem join_eq_key (segments : List String) : Text.join "/" segments = key segments.reverse := by
  rw [key, List.reverse_reverse]

theorem isPlace_reverse (hnames : ∀ s ∈ segments, IsName s) : IsPlace segments.reverse :=
  fun s hs => hnames s (List.mem_reverse.mp hs)

theorem isFilePath_names (hnames : ∀ s ∈ segments, IsName s) (hne : segments ≠ []) :
    IsFilePath (Text.join "/" segments) := by
  rw [join_eq_key]
  exact (isPlace_reverse hnames).isFilePath_key (List.reverse_eq_nil_iff.not.mpr hne)

/-- Names are known from their path. -/
theorem names_eq_of_join (hnames : ∀ s ∈ segments, IsName s) (hnames' : ∀ s ∈ segments', IsName s)
    (hne : segments ≠ []) (hne' : segments' ≠ [])
    (hjoin : Text.join "/" segments = Text.join "/" segments') : segments = segments' := by
  rw [join_eq_key, join_eq_key segments'] at hjoin
  exact List.reverse_inj.mp ((isPlace_reverse hnames).key_inj (isPlace_reverse hnames')
    (List.reverse_eq_nil_iff.not.mpr hne) (List.reverse_eq_nil_iff.not.mpr hne') hjoin)

/-- What names reach is known from their path. -/
theorem Reaches.eq_of_join {found' : List String} {n' : Node}
    (hreaches : Reaches h follow place segments found n)
    (hreaches' : Reaches h follow place segments' found' n') (hne : segments ≠ [])
    (hne' : segments' ≠ []) (hjoin : Text.join "/" segments = Text.join "/" segments') :
    segments = segments' ∧ found = found' ∧ n = n' := by
  obtain rfl := names_eq_of_join hreaches.names hreaches'.names hne hne' hjoin
  exact ⟨rfl, hreaches.unique hreaches'⟩

theorem relative_eq (hnames : ∀ s ∈ m.segments, IsName s) (hne : m.segments ≠ []) :
    relative m = Text.join "/" m.segments := by
  have hslash := (Path.isFilePath_iff.mp (isFilePath_names hnames hne)).2
  rw [relative, Text.map_replace_of_notMem hslash, String.ofList_toList]

theorem ne_dir_of_stored (hentry : stored? n = some e) : n ≠ .dir := by
  rintro rfl
  cases hentry

theorem takeUp_eq (hnames : ∀ s ∈ m.segments, IsName s) :
    takeUp t m = .ok (putFiles t (taken m).toList) := by
  unfold takeUp taken
  by_cases hne : m.segments = []
  · rw [if_pos hne, if_pos hne]
    rfl
  rw [if_neg hne, if_neg hne, relative_eq hnames hne]
  have hkey := Path.normalizeFile_of_isFilePath (isFilePath_names hnames hne)
  cases m.node with
  | dir => rfl
  | file contents mode =>
    simp only [FileStore.writeEntry, hkey]
    rfl
  | link target =>
    simp only [FileTree.writeLink, FileStore.writeEntry, hkey]
    rfl

theorem foldlM_takeUp {all : List Met} (hnames : ∀ m ∈ all, ∀ s ∈ m.segments, IsName s) :
    all.foldlM takeUp t = .ok (putFiles t (all.filterMap taken)) := by
  induction all generalizing t with
  | nil => rfl
  | cons m rest ih =>
    obtain ⟨hm, hrest⟩ := List.forall_mem_cons.mp hnames
    rw [List.foldlM_cons, takeUp_eq hm]
    refine (ih hrest).trans ?_
    rw [List.filterMap_cons, putFiles, putFiles, putFiles, ← List.foldl_append]
    cases taken m <;> rfl

theorem mem_taken {all : List Met}
    (hmem : ∀ met, met.segments ≠ [] → (met ∈ all ↔ Meets h false ⟨root, [], place, .dir⟩ met)) :
    (path, e) ∈ all.filterMap taken ↔ ∃ segments found n, Reaches h false place segments found n ∧
      Text.join "/" segments = path ∧ stored? n = some e := by
  rw [List.mem_filterMap]
  constructor
  · rintro ⟨m, hm, htaken⟩
    unfold taken at htaken
    split at htaken
    · cases htaken
    next hne =>
    obtain ⟨e', he', hpair⟩ := Option.map_eq_some_iff.mp htaken
    obtain ⟨hpath, rfl⟩ := Prod.mk.inj hpair
    obtain ⟨segments, hreaches, _, hsegments⟩ := (hmem m hne).mp hm
    obtain rfl : m.segments = segments := hsegments
    rw [relative_eq hreaches.names hne] at hpath
    exact ⟨m.segments, m.place, m.node, hreaches, hpath, he'⟩
  · rintro ⟨segments, found, n, hreaches, rfl, hentry⟩
    have hne := hreaches.ne_nil (ne_dir_of_stored hentry)
    refine ⟨⟨pathTo root segments, segments, found, n⟩,
      (hmem _ hne).mpr ⟨segments, hreaches, rfl, rfl⟩, ?_⟩
    rw [taken, if_neg hne, relative_eq hreaches.names hne, hentry]
    rfl

/-- Loading a directory gives the files and links in it. -/
theorem IsTree.load_spec (htree : IsTree h) (hstat : stat h true root = .ok (place, .dir)) :
    ∃ t, load h root = .ok t ∧ TreeOf h place t := by
  have hlost : ¬Lost h false place := fun hlost => nomatch hlost.1
  obtain ⟨all, hall, hmem⟩ := ((walkable_unfollowed htree hstat).lists_from hstat).2 hlost
  have hnames : ∀ m ∈ all, ∀ s ∈ m.segments, IsName s := by
    intro m hm s hs
    obtain ⟨segments, hreaches, _, hsegments⟩ := (hmem m (List.ne_nil_of_mem hs)).mp hm
    rw [hsegments, List.nil_append] at hs
    exact hreaches.names s hs
  refine ⟨putFiles ∅ (all.filterMap taken), ?_, fun path e => ?_⟩
  · rw [load, hall]
    exact foldlM_takeUp hnames
  constructor
  · exact fun hlookup => (mem_taken hmem).mp (Archive.mem_of_lookup?_putFiles rfl hlookup)
  · rintro ⟨segments, found, n, hreaches, hpath, hentry⟩
    obtain ⟨e', hlookup, hown⟩ := Archive.exists_lookup?_putFiles (s := (∅ : FileTree))
      ((mem_taken hmem).mpr ⟨segments, found, n, hreaches, hpath, hentry⟩)
    obtain ⟨segments', found', n', hreaches', hpath', hentry'⟩ := (mem_taken hmem).mp hown
    obtain ⟨_, _, rfl⟩ := hreaches.eq_of_join hreaches'
      (hreaches.ne_nil (ne_dir_of_stored hentry)) (hreaches'.ne_nil (ne_dir_of_stored hentry'))
      (hpath.trans hpath'.symm)
    rw [hlookup, ← hentry', hentry]

end ResourceModels.Host
