import ResourceModels.Proofs.Archive
import ResourceModels.Proofs.Host.Readable

/-!
# What stands in the place of a link

In the place of a link stands the file that it leads to, or the directory and all that names reach
there through links. Nothing stands there if the link leads nowhere. But a link that leads nowhere
below a directory that the link leads to makes the walk there go wrong.
-/

namespace ResourceModels.Archive

open Host (IsName Lists Lost Readable Reaches)

/-- What is written of a node that a link leads to, or that stands below one. -/
def followedMember (path : String) : Host.Node → Option Member
  | .dir => some (directory path)
  | .file contents _ => some (file path Entry.defaultMode contents)
  | .link _ => none

variable {h : Host} {root path : String} {place segments more found : List String}
  {n : Host.Node} {m : Host.Met} {member : Member}

theorem join_names (hnames : ∀ s ∈ segments, IsName s) (hne : segments ≠ [])
    (hmore : ∀ s ∈ more, IsName s) (hmore' : more ≠ []) :
    Path.join (Text.join "/" segments) (Text.join "/" more) = Text.join "/" (segments ++ more) := by
  rw [Path.join_of_ne (Host.isFilePath_names hnames hne).2 (Host.isFilePath_names hmore hmore').2,
    Text.join_append "/" hne hmore']

theorem metMember_eq (hnames : ∀ s ∈ m.segments, IsName s) (hne : m.segments ≠ []) :
    metMember path m =
      (followedMember (Path.join path (Text.join "/" m.segments)) m.node).toList := by
  have hslash := (Path.isFilePath_iff.mp (Host.isFilePath_names hnames hne)).2
  rw [metMember, if_neg hne]
  dsimp only
  rw [Text.map_replace_of_notMem hslash, String.ofList_toList]
  cases m.node <;> rfl

theorem canonical_of_stat {link : String} (hstat : Host.stat h true link = .ok (found, n)) :
    Host.canonical h link = .ok ("/" ++ Host.key found) := by
  rw [Host.canonical, hstat]
  rfl

/-- What is to stand in the place of a link: a member for each node that names reach through it. -/
def ThroughLink (h : Host) (place segments : List String) (member : Member) : Prop :=
  ∃ more found n, Reaches h true place (segments ++ more) found n ∧
    followedMember (Text.join "/" (segments ++ more)) n = some member

/-- Below a directory that a link leads to, another link is lost. -/
def LostThrough (h : Host) (place segments : List String) : Prop :=
  ∃ dir, Reaches h true place segments dir .dir ∧ Lost h true dir

theorem throughLink_nil (hreach : Reaches h true place segments found n)
    (hmember : followedMember (Text.join "/" segments) n = some member) :
    ThroughLink h place segments member :=
  ⟨[], found, n, (List.append_nil segments).symm ▸ hreach, (List.append_nil segments).symm ▸ hmember⟩

/-- Through a link stands what stands for the node that it leads to, and what lies below that. -/
theorem throughLink_cases (hreach : Reaches h true place segments found n)
    (hthrough : ThroughLink h place segments member) :
    followedMember (Text.join "/" segments) n = some member ∨
      ∃ more found' n', more ≠ [] ∧ n = .dir ∧ Reaches h true found more found' n' ∧
        followedMember (Text.join "/" (segments ++ more)) n' = some member := by
  obtain ⟨more, found', n', hreaches, hmember⟩ := hthrough
  by_cases hmore : more = []
  · subst hmore
    rw [List.append_nil] at hreaches hmember
    obtain ⟨_, rfl⟩ := hreach.unique hreaches
    exact .inl hmember
  · obtain ⟨mid, hmid, hrest⟩ := hreaches.exists_of_append hmore
    obtain ⟨rfl, rfl⟩ := hreach.unique hmid
    exact .inr ⟨more, found', n', hmore, rfl, hrest, hmember⟩

section

variable (hread : Readable h root place) (hnames : ∀ s ∈ segments, IsName s) (hne : segments ≠ [])

include hread hnames hne

theorem linkMembers_gone {cause : HostFault}
    (hstat : Host.stat h true (HostPath.join root (Text.join "/" segments)) = .error cause) :
    Lists (linkMembers h root (Text.join "/" segments) (Text.join "/" segments))
      (LostThrough h place segments) (ThroughLink h place segments) := by
  have hnone : ∀ found n, ¬Reaches h true place segments found n := fun found n hreaches => by
    have hok := (hread.stat_iff hnames hne).mpr hreaches
    cases hstat.symm.trans hok
  have hcanonical : Host.canonical h (HostPath.join root (Text.join "/" segments)) =
      .error cause := by
    rw [Host.canonical, hstat]
    rfl
  unfold linkMembers
  simp only [hcanonical]
  refine Lists.congr Host.lists_ok (iff_of_false id fun ⟨dir, hdir, _⟩ => hnone _ _ hdir)
    fun member => iff_of_false List.not_mem_nil ?_
  rintro ⟨more, found, n, hreaches, _⟩
  by_cases hmore : more = []
  · subst hmore
    exact hnone found n (List.append_nil segments ▸ hreaches)
  · obtain ⟨mid, hmid, _⟩ := hreaches.exists_of_append hmore
    exact hnone mid .dir hmid

theorem linkMembers_file {contents : ByteArray} {mode : Nat}
    (hreach : Reaches h true place segments found (.file contents mode)) :
    Lists (linkMembers h root (Text.join "/" segments) (Text.join "/" segments))
      (LostThrough h place segments) (ThroughLink h place segments) := by
  unfold linkMembers
  simp only [canonical_of_stat ((hread.stat_iff hnames hne).mpr hreach),
    (hread.file segments found contents mode hreach).1]
  refine Lists.congr Host.lists_ok
    (iff_of_false id fun ⟨dir, hdir, _⟩ => nomatch (hreach.unique hdir).2) fun member => ?_
  rw [List.mem_singleton]
  constructor
  · rintro rfl
    exact throughLink_nil hreach rfl
  · intro hthrough
    rcases throughLink_cases hreach hthrough with hmember | ⟨_, _, _, _, hdir, _⟩
    · exact (Option.some.inj hmember).symm
    · cases hdir

theorem linkMembers_dir (hreach : Reaches h true place segments found .dir) :
    Lists (linkMembers h root (Text.join "/" segments) (Text.join "/" segments))
      (LostThrough h place segments) (ThroughLink h place segments) := by
  have hfollow := hread.below segments found hreach
  have hbase : "/" ++ Host.key found ≠ "" := by simp [String.append_eq_empty_iff]
  obtain ⟨hlost, hkept⟩ :=
    (Host.walkable_followed hread.tree hbase hfollow).lists_from hfollow.stat_base
  unfold linkMembers
  simp only [canonical_of_stat ((hread.stat_iff hnames hne).mpr hreach), hfollow.stat_base]
  constructor
  · rintro ⟨dir, hdir, hlostDir⟩
    obtain ⟨rfl, _⟩ := hreach.unique hdir
    obtain ⟨f, hf⟩ := hlost hlostDir
    exact ⟨_, by rw [hf]⟩
  intro hnone
  obtain ⟨all, hall, hmem⟩ := hkept fun hlostDir => hnone ⟨found, hreach, hlostDir⟩
  refine ⟨_, by rw [hall], fun member => ?_⟩
  rw [List.mem_cons, List.mem_flatMap]
  constructor
  · rintro (rfl | ⟨m, hm, hmember⟩)
    · exact throughLink_nil hreach rfl
    have hsegments : m.segments ≠ [] := fun hnil => by
      rw [metMember, if_pos hnil] at hmember
      exact absurd hmember List.not_mem_nil
    obtain ⟨more, hreaches, _, hmore⟩ := (hmem m hsegments).mp hm
    rw [List.nil_append] at hmore
    rw [metMember_eq (hmore ▸ hreaches.names) hsegments, hmore,
      join_names hnames hne hreaches.names (hmore ▸ hsegments), Option.mem_toList] at hmember
    exact ⟨more, m.place, m.node, hreach.append hreaches, hmember⟩
  · intro hthrough
    rcases throughLink_cases hreach hthrough with
      hmember | ⟨more, found', n', hmore, _, hrest, hmember⟩
    · exact .inl (Option.some.inj hmember).symm
    refine .inr ⟨⟨Host.pathTo ("/" ++ Host.key found) more, more, found', n'⟩,
      (hmem _ hmore).mpr ⟨more, hrest, rfl, rfl⟩, ?_⟩
    rw [metMember_eq hrest.names hmore, join_names hnames hne hrest.names hmore,
      Option.mem_toList]
    exact hmember

/-- In the place of a link stands what names reach through it, unless another link is lost there. -/
theorem linkMembers_spec :
    Lists (linkMembers h root (Text.join "/" segments) (Text.join "/" segments))
      (LostThrough h place segments) (ThroughLink h place segments) := by
  cases hstat : Host.stat h true (HostPath.join root (Text.join "/" segments)) with
  | error cause => exact linkMembers_gone hread hnames hne hstat
  | ok r =>
    obtain ⟨found, n⟩ := r
    have hreach := (hread.stat_iff hnames hne).mp hstat
    cases n with
    | dir => exact linkMembers_dir hread hnames hne hreach
    | file contents mode => exact linkMembers_file hread hnames hne hreach
    | link target => exact absurd rfl ((hread.tree.of_stat hstat).2.2 target)

end

end ResourceModels.Archive
