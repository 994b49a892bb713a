import ResourceModels.Proofs.Archive.Members
import ResourceModels.Proofs.Host.Loading
import ResourceModels.Proofs.Text.Cut

/-!
# Directories that the machine can read

All that names lead to from a directory can be read, if the machine can follow each path of names,
from that directory and from each directory that it leads to, and if each file has a size that can be
told. Then no directory is reached from itself, and no path is longer than a member of an archive may
be named.
-/

namespace ResourceModels.Host

open ResourceModels.Path (IsFilePath)

/-- The machine can read all that names lead to from a directory with the given path. -/
structure Readable (h : Host) (root : String) (place : List String) : Prop where
  tree : IsTree h
  named : root ≠ ""
  follow : Followable h root place
  below : ∀ segments found, Reaches h true place segments found .dir →
    Followable h ("/" ++ key found) found
  file : ∀ segments found contents mode, Reaches h true place segments found (.file contents mode) →
    stat h true ("/" ++ key found) = .ok (found, .file contents mode) ∧
      Archive.IsCounted contents.size

section

variable {h : Host} {follow : Bool} {base root name : String}
  {place mid found segments init : List String} {n : Node}

/-- Names lead on from what those before them reach. -/
theorem Reaches.exists_of_append (hreaches : Reaches h follow place (init ++ segments) found n)
    (hne : segments ≠ []) :
    ∃ mid, Reaches h follow place init mid .dir ∧ Reaches h follow mid segments found n := by
  induction init generalizing place with
  | nil => exact ⟨place, .here place, hreaches⟩
  | cons first init ih =>
    rcases reaches_cons_iff.mp hreaches with ⟨next, hstep, hrest⟩ | ⟨hnil, _, _⟩
    · obtain ⟨mid, hmid, hlast⟩ := ih hrest
      exact ⟨mid, .step hstep hmid, hlast⟩
    · exact absurd (List.append_eq_nil_iff.mp hnil).2 hne

theorem Steps.followed (hstep : Steps h false place name found n) (hlink : ∀ target, n ≠ .link target) :
    Steps h true place name found n := by
  obtain ⟨hname, hnode, rfl⟩ := hstep
  exact steps_of_node? hname hnode fun _ => hlink

/-- What names reach without links they reach, too, where links are followed. -/
theorem Reaches.followed (hreaches : Reaches h false place segments found n)
    (hlink : ∀ target, n ≠ .link target) : Reaches h true place segments found n := by
  induction hreaches with
  | here => exact .here _
  | last hstep hn => exact .last (hstep.followed hlink) hn
  | step hstep _ ih => exact .step (hstep.followed nofun) (ih hlink)

/-- What names reach through links they reach without any, or the first of them stands at the end of
the front ones. -/
theorem Reaches.exists_link (hreaches : Reaches h true place segments found n) :
    Reaches h false place segments found n ∨ ∃ front back own target, segments = front ++ back ∧
      Reaches h false place front own (.link target) := by
  induction hreaches with
  | here => exact .inl (.here _)
  | @last place found name n hstep hn =>
    obtain ⟨n', hnode⟩ := hstep.exists_node?
    by_cases hlink : ∃ target, n' = .link target
    · obtain ⟨target, rfl⟩ := hlink
      exact .inr ⟨[name], [], _, target, rfl, .last ⟨hstep.1, hnode, rfl⟩ nofun⟩
    · obtain ⟨rfl, rfl⟩ := hstep.unique
        (steps_of_node? hstep.1 hnode fun _ target hn => hlink ⟨target, hn⟩)
      exact .inl (.last ⟨hstep.1, hnode, rfl⟩ hn)
  | @step place mid rest found name n hstep _ ih =>
    obtain ⟨n', hnode⟩ := hstep.exists_node?
    by_cases hlink : ∃ target, n' = .link target
    · obtain ⟨target, rfl⟩ := hlink
      exact .inr ⟨[name], rest, _, target, rfl, .last ⟨hstep.1, hnode, rfl⟩ nofun⟩
    · obtain ⟨rfl, rfl⟩ := hstep.unique
        (steps_of_node? hstep.1 hnode fun _ target hn => hlink ⟨target, hn⟩)
      have hown : Steps h false place name (name :: place) .dir := ⟨hstep.1, hnode, rfl⟩
      rcases ih with hreaches | ⟨front, back, own, target, rfl, hfront⟩
      · exact .inl (.step hown hreaches)
      · exact .inr ⟨name :: front, back, own, target, rfl, .step hown hfront⟩

theorem zero_notMem_names (hnames : ∀ s ∈ segments, IsName s) :
    '\x00' ∉ (Text.join "/" segments).toList := by
  intro hmem
  rcases Text.mem_of_mem_join hmem with hmem | ⟨s, hs, hmem⟩
  · exact absurd hmem (by decide)
  · exact (hnames s hs).noZero hmem

theorem not_isAbsolute_names (hnames : ∀ s ∈ segments, IsName s) (hne : segments ≠ []) :
    HostPath.isAbsolute (Text.join "/" segments) = false := by
  obtain ⟨first, rest, rfl⟩ := List.exists_cons_of_ne_nil hne
  have hfirst := hnames first List.mem_cons_self
  have hchars : first.toList ≠ [] := fun hnil =>
    hfirst.plain.1 (String.toList_inj.mp hnil)
  obtain ⟨c, more, hc⟩ := List.exists_cons_of_ne_nil hchars
  have hjoin : ∃ tail, (Text.join "/" (first :: rest)).toList = c :: tail := by
    cases rest with
    | nil => exact ⟨more, hc⟩
    | cons second rest =>
      simp only [Text.join, String.toList_append, hc]
      exact ⟨_, rfl⟩
  obtain ⟨tail, htail⟩ := hjoin
  rw [Bool.eq_false_iff, HostPath.isAbsolute, Ne, Text.startsWith_iff, htail]
  rintro ⟨other, hother⟩
  obtain ⟨rfl, _⟩ := List.cons_eq_cons.mp hother
  exact hfirst.slash_notMem (hc ▸ List.mem_cons_self)

theorem not_endsWith_name (hname : IsName name) (front : String) :
    Text.endsWith "/" (front ++ name) = false := by
  rw [Bool.eq_false_iff, Ne, Text.endsWith_iff]
  rintro ⟨rest, hrest⟩
  have hchars : name.toList ≠ [] := fun hnil => hname.plain.1 (String.toList_inj.mp hnil)
  have hlast := congrArg (fun s : String => s.toList.getLast?) hrest
  simp only [String.toList_append, List.getLast?_append_of_ne_nil _ hchars] at hlast
  rw [List.getLast?_append_of_ne_nil _ (by decide)] at hlast
  exact hname.slash_notMem (List.mem_of_getLast? hlast)

theorem not_endsWith_names (hnames : ∀ s ∈ segments, IsName s) (hne : segments ≠ [])
    (front : String) : Text.endsWith "/" (front ++ Text.join "/" segments) = false := by
  obtain ⟨init, last, rfl⟩ := (List.eq_nil_or_concat' segments).resolve_left hne
  have hlast := hnames last List.mem_concat_self
  by_cases hinit : init = []
  · subst hinit
    exact not_endsWith_name hlast front
  · rw [Text.join_concat "/" hinit, ← String.append_assoc]
    exact not_endsWith_name hlast _

/-- Names that are joined one by one to a path are joined to it as a whole. -/
theorem pathTo_eq (hbase : base ≠ "") (hnames : ∀ s ∈ segments, IsName s) (hne : segments ≠ []) :
    pathTo base segments = HostPath.join base (Text.join "/" segments) := by
  induction segments using List.reverseRecOn with
  | nil => exact absurd rfl hne
  | append_singleton init name ih =>
    by_cases hnil : init = []
    · subst hnil
      rfl
    obtain ⟨hinit, hname⟩ := List.forall_mem_append.mp hnames
    have hname := hname name (List.mem_singleton.mpr rfl)
    have hjoin := Text.join_concat "/" hnil name
    have hfront := not_isAbsolute_names hinit hnil
    have hwhole := not_isAbsolute_names hnames hne
    have hsingle : HostPath.isAbsolute (Text.join "/" [name]) = false :=
      not_isAbsolute_names (List.forall_mem_singleton.mpr hname) (List.cons_ne_nil _ _)
    have hend := not_endsWith_names hinit hnil
    rw [pathTo_concat, ih hinit hnil]
    rw [hjoin] at hwhole ⊢
    unfold HostPath.join
    have hsingle : HostPath.isAbsolute name = false := hsingle
    simp only [hfront, hwhole, hsingle, hbase, Bool.false_eq_true, or_self, if_false, false_or]
    split
    · rw [if_neg (by simp [String.append_eq_empty_iff, hbase]), if_neg (by simp [hend])]
      simp only [String.append_assoc]
    · rw [if_neg (by simp [String.append_eq_empty_iff, hbase]), if_neg (by simp [hend])]
      simp only [String.append_assoc]

/-- What leads somewhere from a directory are names, if no segment is idle or leads upwards. -/
theorem IsTree.names_of_leads (htree : IsTree h) (hplace : IsPlace place)
    (hdir : h.node? place = some .dir) {cost : Nat} (hleads : Leads h cost place segments found n)
    (hplain : ∀ s ∈ segments, Path.IsPlain s) : ∀ s ∈ segments, IsName s := by
  have hone : ∀ {place found n cost name}, IsPlace place → Leads h cost place [name] found n →
      Path.IsPlain name → IsName name := by
    intro place found n cost name hplace hleads hplain
    have hname : ∀ {n}, IsStep name → h.node? (name :: place) = some n → IsName name :=
      fun hstep hnode => htree.isPlace (List.forall_mem_cons.mpr
        ⟨hstep.noSlash, fun s hs => (hplace s hs).slash_notMem⟩) hnode name List.mem_cons_self
    cases hleads with
    | idle hidle => exact absurd hidle (not_or.mpr ⟨hplain.1, hplain.2.1⟩)
    | up => exact absurd rfl hplain.2.2
    | dir hstep hnode => exact hname hstep hnode
    | file hstep hnode => exact hname hstep hnode
    | link hstep hnode => exact hname hstep hnode
  induction segments generalizing place cost with
  | nil => exact fun _ hs => absurd hs List.not_mem_nil
  | cons name rest ih =>
    obtain ⟨hfirst, hrest⟩ := List.forall_mem_cons.mp hplain
    by_cases hnil : rest = []
    · subst hnil
      exact List.forall_mem_singleton.mpr (hone hplace hleads hfirst)
    have hcut : Leads h cost place ([name] ++ rest) found n := hleads
    obtain ⟨_, _, mid, _, hmid, hmore⟩ := hcut.exists_of_append hnil
    obtain ⟨hplaceMid, hdirMid, _⟩ := htree.node?_of_leads hmid hplace hdir
    exact List.forall_mem_cons.mpr ⟨hone hplace hmid hfirst, ih hplaceMid hdirMid hmore hrest⟩

theorem not_isAbsolute_of_isFilePath {path : String} (hpath : IsFilePath path) :
    HostPath.isAbsolute path = false := by
  rw [Bool.eq_false_iff, HostPath.isAbsolute, Ne, Text.startsWith_iff]
  rintro ⟨rest, hrest⟩
  obtain rfl : "" ++ "/" ++ String.ofList rest = path := by
    rw [← String.toList_inj, ← hrest]
    simp
  have hempty : "" ∈ Path.segments ("" ++ "/" ++ String.ofList rest) := by
    rw [Path.segments_append_slash]
    exact List.mem_append_left _ (by decide)
  exact ((Path.isFilePath_iff.mp hpath).1 _ hempty).1 rfl

theorem size_le_join (base rest : String) :
    rest.utf8ByteSize ≤ (HostPath.join base rest).utf8ByteSize := by
  unfold HostPath.join
  split
  · exact Nat.le_refl _
  split
  · rw [String.utf8ByteSize_append]
    omega
  · rw [String.utf8ByteSize_append]
    omega

theorem size_join_le (base rest : String) :
    (HostPath.join base rest).utf8ByteSize ≤ base.utf8ByteSize + 1 + rest.utf8ByteSize := by
  have hslash : "/".utf8ByteSize = 1 := by decide
  unfold HostPath.join
  split
  · omega
  split
  · rw [String.utf8ByteSize_append]
    omega
  · rw [String.utf8ByteSize_append, String.utf8ByteSize_append]
    omega

namespace Readable

variable (hread : Readable h root place)

include hread

theorem isPlace : IsPlace place ∧ h.node? place = some .dir :=
  ⟨(hread.tree.of_stat hread.follow.stat_base).1, (hread.tree.of_stat hread.follow.stat_base).2.1⟩

/-- The path of what a name leads to from a directory that is reached can be written. -/
theorem size_le (hinit : Reaches h true place init mid .dir) (hname : IsName name) :
    (Text.join "/" (init ++ [name])).utf8ByteSize ≤ maxPath + 1 + maxName := by
  obtain ⟨hnames, cost, hleads⟩ := reaches_true_iff.mp hinit
  obtain ⟨_, hsize, _⟩ := stat_eq_ok_iff.mp (hread.follow init cost mid .dir hnames hleads)
  have hall : ∀ s ∈ init ++ [name], IsName s :=
    List.forall_mem_append.mpr ⟨hnames, List.forall_mem_singleton.mpr hname⟩
  have hwhole := pathTo_eq hread.named hall (List.concat_ne_nil _ _)
  rw [pathTo_concat] at hwhole
  have hupper := size_join_le (pathTo root init) name
  have hlower := size_le_join root (Text.join "/" (init ++ [name]))
  have hlast := hname.size
  rw [hwhole] at hupper
  omega

theorem stat_iff (hnames : ∀ s ∈ segments, IsName s) (hne : segments ≠ []) :
    stat h true (HostPath.join root (Text.join "/" segments)) = .ok (found, n) ↔
      Reaches h true place segments found n := by
  rw [← pathTo_eq hread.named hnames hne, hread.follow.stat_iff hread.named hnames,
    reaches_true_iff]
  constructor
  · rintro ⟨cost, _, hleads⟩
    exact ⟨hnames, cost, hleads⟩
  · rintro ⟨_, cost, hleads⟩
    exact ⟨cost, hread.follow.cost_le hread.named hnames hleads, hleads⟩

/-- A path of a file of a tree is made of names, if it leads anywhere. -/
theorem exists_names {path : String} (hpath : IsFilePath path)
    (hstat : stat h true (HostPath.join root path) = .ok (found, n)) :
    ∃ segments, Reaches h true place segments found n ∧ Text.join "/" segments = path := by
  obtain ⟨hplain, hslash⟩ := Path.isFilePath_iff.mp hpath
  have hjoin := Path.join_segments hslash
  have hne : Path.segments path ≠ [] := fun hnil => hpath.2 (by rw [← hjoin, hnil]; rfl)
  have hpieces : Text.split (· = '/') (Text.join (String.singleton '/') (Path.segments path)) =
      Path.segments path := Text.split_of_join hne fun s hs hmem =>
    absurd (Path.noSeparator_of_mem_segments hs '/' hmem) (by decide)
  have hsplit : Text.split (· = '/') path = Path.segments path := by
    rw [← hpieces]
    exact congrArg _ hjoin.symm
  obtain ⟨_, _, cost, _, hleads⟩ := stat_eq_ok_iff.mp hstat
  obtain ⟨start, hstart⟩ : ∃ start, Text.split (· = '/') (HostPath.join root path) =
      start ++ Path.segments path := by
    rw [HostPath.join, if_neg (by simp [not_isAbsolute_of_isFilePath hpath, hread.named]), ← hsplit]
    split
    · next hend =>
      obtain ⟨front, rfl⟩ := Text.endsWith_iff.mp hend
      exact ⟨_, split_append_slash _ _⟩
    · exact ⟨_, split_append_slash _ _⟩
  rw [hstart] at hleads
  obtain ⟨_, _, mid, _, hmid, hmore⟩ := hleads.exists_of_append hne
  obtain ⟨hplace, hdir, _⟩ :=
    hread.tree.node?_of_leads hmid (fun _ hs => absurd hs List.not_mem_nil) rfl
  have hnames := hread.tree.names_of_leads hplace hdir hmore hplain
  rw [← hjoin] at hstat
  exact ⟨_, (hread.stat_iff hnames hne).mp hstat, hjoin⟩

end Readable

end

end ResourceModels.Host
