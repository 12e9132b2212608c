import HackToolchain.Proofs.Codegen.Directories

/-!
# The order in which directories are listed

Two workspaces with the same files and directories may list them in different orders (`Relisted`).
Paths lead to the same nodes in both (`Relisted.spot_eq`), and the sources of a directory are the
same (`Relisted.sourceNames_eq`), since they are sorted by their names and no name occurs twice. So
the order does not show in a translation as long as every entry can be looked at
(`listing_order_is_hidden`). An entry whose path is too long, source or not, is an error, and of
several it is the first one listed that is named.
-/

set_option autoImplicit false

namespace HackToolchain.Codegen

open Text FileTree Workspace

/-! ## Nodes and paths -/

/-- The same nodes in the same places, in orders that may differ. -/
structure Relisted (w w' : Workspace) : Prop where
  current : w'.current = w.current
  nodes : w.tree.nodes.Perm w'.tree.nodes

/-- In a proper tree a place holds the one node that is filed under it. -/
theorem ProperTree.find?_eq_some_iff {t : FileTree} (h : ProperTree t) {place : Place}
    {n : Place × Node} :
    t.nodes.find? (fun n => n.1 = place) = some n ↔ n ∈ t.nodes ∧ n.1 = place := by
  constructor
  · intro hfind
    exact ⟨List.mem_of_find?_eq_some hfind, by simpa using List.find?_some hfind⟩
  · rintro ⟨hmem, rfl⟩
    cases hfind : t.nodes.find? fun m => m.1 = n.1 with
    | none =>
      have hne := List.find?_eq_none.1 hfind n hmem
      simp at hne
    | some m =>
      have hplace : m.1 = n.1 := by simpa using List.find?_some hfind
      rw [List.inj_on_of_nodup_map h.nodup (List.mem_of_find?_eq_some hfind) hmem hplace]

namespace Relisted

variable {w w' : Workspace}

theorem proper (h : Relisted w w') (hproper : ProperTree w.tree) : ProperTree w'.tree := by
  refine ⟨(h.nodes.map _).nodup_iff.1 hproper.nodup, ?_⟩
  intro n hn
  exact hproper.slash n (h.nodes.mem_iff.2 hn)

variable (h : Relisted w w') (hproper : ProperTree w.tree)

include h hproper

theorem get?_eq (place : Place) : w'.tree.get? place = w.tree.get? place := by
  have hfind : w'.tree.nodes.find? (fun n => n.1 = place) =
      w.tree.nodes.find? fun n => n.1 = place := by
    apply Option.ext
    intro n
    rw [(h.proper hproper).find?_eq_some_iff, hproper.find?_eq_some_iff, h.nodes.mem_iff]
  rw [get?, get?, hfind]

theorem follow_eq (place : Place) (names : List String) :
    w'.tree.follow place names = w.tree.follow place names := by
  induction names generalizing place with
  | nil => rfl
  | cons name names ih => simp only [follow, h.get?_eq hproper, ih]

/-- A path leads to the same node, however directories are listed. -/
theorem spot_eq (p : Path) : w'.spot p = w.spot p := by
  rw [spot, spot, h.current, h.follow_eq hproper]

theorem isDirectory_eq (p : Path) : w'.isDirectory p = w.isDirectory p := by
  rw [isDirectory, isDirectory, h.spot_eq hproper]

omit hproper in
theorem children (d : Place) : (w.tree.children d).Perm (w'.tree.children d) := by
  rw [children_eq, children_eq]
  exact h.nodes.filterMap _

end Relisted

/-! ## Sources in order -/

/-- The names of the sources that a directory lists, each once and in order. -/
structure SourcesOf (listing : List (String × Node)) (names : List String) : Prop where
  increasing : names.Pairwise (· < ·)
  mem_iff : ∀ name, name ∈ names ↔
    isSourceName name = true ∧ ∃ content, (name, Node.file content) ∈ listing

theorem mem_sourceNames {listing : List (String × Node)} {name : String} :
    name ∈ sourceNames listing ↔
      isSourceName name = true ∧ ∃ content, (name, Node.file content) ∈ listing := by
  rw [sourceNames_eq, List.mem_mergeSort, List.mem_map]
  constructor
  · rintro ⟨⟨last, node⟩, he, rfl⟩
    obtain ⟨hlisted, hsource⟩ := List.mem_filter.1 he
    cases node with
    | directory => cases hsource
    | file content => exact ⟨hsource, content, hlisted⟩
  · rintro ⟨hsource, content, hlisted⟩
    exact ⟨(name, .file content), List.mem_filter.2 ⟨hlisted, hsource⟩, rfl⟩

theorem ProperTree.sourcesOf {t : FileTree} (h : ProperTree t) (d : Place) :
    SourcesOf (t.children d) (sourceNames (t.children d)) := by
  refine ⟨?_, fun name => mem_sourceNames⟩
  have hsorted : (sourceNames (t.children d)).Pairwise (· ≤ ·) := by
    rw [sourceNames_eq]
    have hpairwise := @List.pairwise_mergeSort String (fun a b => decide (a ≤ b))
      (by simpa using fun a b c => String.le_trans) (by simpa using String.le_total)
      (((t.children d).filter isSource).map (·.1))
    simpa using hpairwise
  refine (hsorted.and (h.nodup_sourceNames d)).imp ?_
  rintro a b ⟨hle, hne⟩
  by_contra hlt
  exact hne (String.le_antisymm hle (String.not_lt.1 hlt))

/-- There is one list of names only that is increasing and has just the sources. -/
theorem SourcesOf.unique {listing listing' : List (String × Node)} {names names' : List String}
    (hperm : listing.Perm listing') (h : SourcesOf listing names) (h' : SourcesOf listing' names') :
    names = names' := by
  have hnodup {l : List String} (hl : l.Pairwise (· < ·)) : l.Nodup := by
    refine hl.imp ?_
    rintro a b hlt rfl
    exact String.lt_irrefl a hlt
  -- Both lists have the same names, each once, so one is the other in some order.
  have hnames : names.Perm names' := by
    rw [List.perm_ext_iff_of_nodup (hnodup h.increasing) (hnodup h'.increasing)]
    intro name
    simp only [h.mem_iff, h'.mem_iff, hperm.mem_iff]
  refine hnames.eq_of_pairwise ?_ h.increasing h'.increasing
  intro a b _ _ hab hba
  exact absurd (String.lt_trans hab hba) (String.lt_irrefl a)

theorem Relisted.sourceNames_eq {w w' : Workspace} (h : Relisted w w')
    (hproper : ProperTree w.tree) (d : Place) :
    sourceNames (w'.tree.children d) = sourceNames (w.tree.children d) :=
  ((hproper.sourcesOf d).unique (h.children d) ((h.proper hproper).sourcesOf d)).symm

/-! ## Entries that cannot be looked at -/

/-- The path of an entry of a directory is too long. -/
def IsTooLong (p : Path) (e : String × Node) : Prop :=
  spotOfText? (p.child e.1).render = some .tooLong

/-- An entry is the first one of a listing whose path is too long. -/
def FirstTooLong (p : Path) (listing : List (String × Node)) (e : String × Node) : Prop :=
  ∃ before after, listing = before ++ e :: after ∧ (∀ e' ∈ before, ¬IsTooLong p e') ∧ IsTooLong p e

section

variable {w w' : Workspace} {p : Path} {d : Place} {listing : List (String × Node)}

theorem overlongEntry?_eq_some {e : String × Node} (h : FirstTooLong p listing e) :
    overlongEntry? p listing = some (p.child e.1) := by
  obtain ⟨before, after, rfl, hbefore, he⟩ := h
  unfold overlongEntry?
  rw [List.find?_eq_some_iff_append]
  refine ⟨by simpa [IsTooLong] using he, before.map fun e => p.child e.1,
    after.map fun e => p.child e.1, by simp, ?_⟩
  intro c hc
  obtain ⟨e', he', rfl⟩ := List.mem_map.1 hc
  simpa [IsTooLong] using hbefore e' he'

theorem exists_firstTooLong (h : ∃ e ∈ listing, IsTooLong p e) : ∃ e, FirstTooLong p listing e := by
  obtain ⟨e, he, hlong⟩ := h
  rcases forall_or_exists_first (fun e => ¬IsTooLong p e) listing with hall | hfirst
  · exact absurd hlong (hall e he)
  · obtain ⟨before, e, after, hlisting, hbefore, he⟩ := hfirst
    exact ⟨e, before, after, hlisting, hbefore, not_not.1 he⟩

theorem child_inj {a b : String} (h : p.child a = p.child b) : a = b :=
  List.singleton_inj.1 (List.append_cancel_left (congrArg Path.names h))

theorem FirstTooLong.child_eq {e e' : String × Node} (h : FirstTooLong p listing e)
    (h' : FirstTooLong p listing e') : p.child e.1 = p.child e'.1 :=
  Option.some.inj ((overlongEntry?_eq_some h).symm.trans (overlongEntry?_eq_some h'))

/-- What is found in a directory whose entries can all be looked at. -/
theorem discover_of_short (hspot : w.spot p = .directory d)
    (hshort : ∀ e ∈ w.tree.children d, ¬IsTooLong p e) :
    discover w p =
      if sourceNames (w.tree.children d) = [] then .error (.input (.noSources p))
      else .ok ((sourceNames (w.tree.children d)).map p.child) := by
  have hnone : overlongEntry? p (w.tree.children d) = none := overlongEntry?_eq_none.2 hshort
  rw [discover, hspot]
  dsimp only
  rw [hnone]
  cases sourceNames (w.tree.children d) with
  | nil => rfl
  | cons name names => rw [if_neg (List.cons_ne_nil name names)]

/-- The first entry listed whose path is too long is named. -/
theorem discover_of_firstTooLong {e : String × Node} (hspot : w.spot p = .directory d)
    (he : FirstTooLong p (w.tree.children d) e) :
    discover w p = .error (.file (.nameTooLong (p.child e.1))) := by
  rw [discover, hspot]
  dsimp only
  rw [overlongEntry?_eq_some he]

theorem translatePath_of_discover_error {options : Options} {journal : Journal} {f : Failure}
    (h : discover w p = .error f) : translatePath w options p journal = (.error f, journal) := by
  rw [translatePath, h]

/-- A translation is decided by what is found at its path and by the files there. -/
theorem Relisted.translatePath_eq (h : Relisted w w') (hproper : ProperTree w.tree)
    (hdiscover : discover w' p = discover w p) (options : Options) (journal : Journal) :
    translatePath w' options p journal = translatePath w options p journal := by
  have hopen (paths : List Path) : openSources w' paths = openSources w paths :=
    openSources_congr fun s _ => h.spot_eq hproper s
  rw [translatePath, translatePath, hdiscover]
  simp only [h.isDirectory_eq hproper, translateFiles, hopen]

end

/-! ## Directories under long paths -/

/-- The way into a directory and out of it again, a number of times, and then into it for good. -/
def windingPath (n : Nat) : Path :=
  { names := (List.replicate n ["d", ".."]).flatten ++ ["d"] }

/-- A directory with one source in it and with directories of the given names, under their
parent. -/
def crampedWorkspace (names : List String) : Workspace where
  tree := { nodes := (["d"], .directory) :: (["d", "a.vm"], .file "add\n".toUTF8) ::
    names.map fun name => (["d", name], .directory) }

section

variable {w : Workspace}

theorem exists_cons_windings (n : Nat) (rest : List String) :
    ∃ l, (List.replicate n ["d", ".."]).flatten ++ "d" :: rest = "d" :: l := by
  cases n with
  | zero => exact ⟨rest, rfl⟩
  | succ n => exact ⟨_, rfl⟩

theorem utf8ByteSize_windings (n : Nat) (rest : List String) :
    ("/".intercalate ((List.replicate n ["d", ".."]).flatten ++ "d" :: rest)).utf8ByteSize =
      5 * n + ("/".intercalate ("d" :: rest)).utf8ByteSize := by
  induction n with
  | zero => simp
  | succ n ih =>
    obtain ⟨l, hl⟩ := exists_cons_windings n rest
    have hround :
        "d".utf8ByteSize + "/".utf8ByteSize + (("..").utf8ByteSize + "/".utf8ByteSize) = 5 := by
      decide
    rw [hl] at ih
    rw [List.replicate_succ, List.flatten_cons, List.append_assoc, hl]
    simp only [List.cons_append, List.nil_append, String.intercalate_cons_cons,
      String.utf8ByteSize_append, ih]
    omega

theorem follow_windings {t : FileTree} (hd : t.get? ["d"] = some .directory) (n : Nat)
    (rest : List String) :
    t.follow [] ((List.replicate n ["d", ".."]).flatten ++ rest) = t.follow [] rest := by
  induction n with
  | zero => rfl
  | succ n ih =>
    have hshort : ¬maxNameBytes < "d".utf8ByteSize := by decide
    rw [List.replicate_succ, List.flatten_cons, List.append_assoc, ← ih]
    simp [follow, hshort, hd]

/-- A path of these names is too long just if it has too many bytes. -/
theorem spotOfText?_windings {n : Nat} {rest : List String}
    (hnull : ∀ name ∈ rest, '\x00' ∉ name.toList) :
    spotOfText? ({ names := (List.replicate n ["d", ".."]).flatten ++ "d" :: rest } : Path).render =
      if maxPathBytes < 5 * n + ("/".intercalate ("d" :: rest)).utf8ByteSize then some .tooLong
      else none := by
  have hrender :
      ({ names := (List.replicate n ["d", ".."]).flatten ++ "d" :: rest } : Path).render =
        "/".intercalate ((List.replicate n ["d", ".."]).flatten ++ "d" :: rest) := by
    simp [Path.render]
  have hplain : ("/".intercalate ((List.replicate n ["d", ".."]).flatten ++
      "d" :: rest)).toList.contains '\x00' = false := by
    have hround : ∀ name ∈ ["d", ".."], '\x00' ∉ name.toList := by decide
    rw [← Bool.not_eq_true, List.contains_iff_mem]
    intro hmem
    rcases mem_intercalate hmem with hmem | ⟨name, hname, hmem⟩
    · exact absurd hmem (by decide)
    · rw [List.mem_append, List.mem_flatten, List.mem_cons] at hname
      rcases hname with ⟨l, hl, hname⟩ | rfl | hname
      · rw [List.eq_of_mem_replicate hl] at hname
        exact hround name hname hmem
      · exact hround "d" List.mem_cons_self hmem
      · exact hnull name hname hmem
  rw [spotOfText?, hrender, hplain, utf8ByteSize_windings]
  rfl

theorem spot_windingPath {n : Nat} (hn : 5 * n + 1 ≤ maxPathBytes) (hcurrent : w.current = [])
    (hd : w.tree.get? ["d"] = some .directory) : w.spot (windingPath n) = .directory ["d"] := by
  have hsize : ("/".intercalate ["d"]).utf8ByteSize = 1 := by decide
  have hshort : spotOfText? (windingPath n).render = none := by
    rw [windingPath, spotOfText?_windings (by simp), hsize, if_neg (Nat.not_lt.2 hn)]
  have hstart : (if (windingPath n).isAbsolute then [] else w.current) = [] := by
    rw [hcurrent, ite_self]
  have hname : ¬maxNameBytes < "d".utf8ByteSize := by decide
  rw [spot, hshort]
  dsimp only
  rw [hstart, windingPath, follow_windings hd]
  simp [follow, hname, hd]

theorem isTooLong_windingPath {n : Nat} {e : String × Node} (hnull : '\x00' ∉ e.1.toList) :
    IsTooLong (windingPath n) e ↔ maxPathBytes < 5 * n + (2 + e.1.utf8ByteSize) := by
  have hsize : ("/".intercalate ["d", e.1]).utf8ByteSize = 2 + e.1.utf8ByteSize := by
    have hd : "d".utf8ByteSize + "/".utf8ByteSize = 2 := by decide
    simp only [String.intercalate_cons_cons, String.intercalate_singleton,
      String.utf8ByteSize_append, hd]
  have hchild : (windingPath n).child e.1 =
      { names := (List.replicate n ["d", ".."]).flatten ++ "d" :: [e.1] } := by
    rw [windingPath, Path.child, List.append_assoc]
    rfl
  rw [IsTooLong, hchild, spotOfText?_windings (by simpa using hnull), hsize]
  simp

theorem spot_crampedWorkspace (names : List String) :
    (crampedWorkspace names).spot (windingPath 817) = .directory ["d"] :=
  spot_windingPath (by decide) rfl (by simp [crampedWorkspace, get?])

theorem children_crampedWorkspace (names : List String) :
    (crampedWorkspace names).tree.children ["d"] =
      ("a.vm", .file "add\n".toUTF8) :: names.map fun name => (name, .directory) := by
  have hnames : (names.map fun name => (["d", name], Node.directory)).filterMap (listed? ["d"]) =
      names.map fun name => (name, .directory) := by
    rw [List.filterMap_map, ← List.filterMap_eq_map]
    rfl
  rw [children_eq, crampedWorkspace, List.filterMap_cons_none (by decide),
    List.filterMap_cons_some (b := ("a.vm", .file "add\n".toUTF8)) (by decide), hnames]

theorem relisted_crampedWorkspace {names names' : List String} (h : names.Perm names') :
    Relisted (crampedWorkspace names) (crampedWorkspace names') :=
  ⟨rfl, ((h.map _).cons _).cons _⟩

/-- The source in the directory can be looked at, a directory with a longer name cannot. -/
theorem firstTooLong_crampedWorkspace {name : String} {names : List String}
    (hnull : '\x00' ∉ name.toList) (hlong : 8 < name.utf8ByteSize) :
    FirstTooLong (windingPath 817) ((crampedWorkspace (name :: names)).tree.children ["d"])
      (name, .directory) := by
  refine ⟨[("a.vm", .file "add\n".toUTF8)], names.map fun name => (name, .directory), ?_, ?_, ?_⟩
  · rw [children_crampedWorkspace]
    rfl
  · intro e he
    rw [List.mem_singleton.1 he, isTooLong_windingPath (by decide)]
    decide
  · rw [isTooLong_windingPath hnull, maxPathBytes]
    dsimp only
    omega

end

/-! ## Two orders -/

/-- The order in which directories are listed does not show as long as every entry of the directory
can be looked at: the sources found are those of the directory in the order of their names, or there
are none, and the translation comes to the same, journal included. If the path of some entry is too
long, source or not, either order fails and tells the first such entry that it lists. -/
theorem listing_order_is_hidden {w w' : Workspace} (hproper : ProperTree w.tree)
    (h : Relisted w w') (p : Path) (options : Options) (journal : Journal) :
    ((∀ d, w.spot p = .directory d → ∀ e ∈ w.tree.children d, ¬IsTooLong p e) →
      discover w' p = discover w p ∧
      translatePath w' options p journal = translatePath w options p journal ∧
      ∀ d, w.spot p = .directory d → ∃ names, SourcesOf (w.tree.children d) names ∧
        discover w p = if names = [] then .error (.input (.noSources p))
          else .ok (names.map p.child)) ∧
    ∀ d, w.spot p = .directory d → (∃ e ∈ w.tree.children d, IsTooLong p e) →
      ∀ v, v = w ∨ v = w' → ∃ e, FirstTooLong p (v.tree.children d) e ∧
        discover v p = .error (.file (.nameTooLong (p.child e.1))) ∧
        translatePath v options p journal =
          (.error (.file (.nameTooLong (p.child e.1))), journal) := by
  constructor
  · intro hshort
    have hdiscover : discover w' p = discover w p := by
      have hspot := h.spot_eq hproper p
      cases hw : w.spot p with
      | directory d =>
        have hshort' : ∀ e ∈ w'.tree.children d, ¬IsTooLong p e := by
          intro e he
          exact hshort d hw e ((h.children d).mem_iff.2 he)
        rw [discover_of_short (hspot.trans hw) hshort', discover_of_short hw (hshort d hw),
          h.sourceNames_eq hproper]
      | _ => rw [discover, discover, hspot, hw]
    refine ⟨hdiscover, h.translatePath_eq hproper hdiscover options journal, ?_⟩
    intro d hw
    exact ⟨_, hproper.sourcesOf d, discover_of_short hw (hshort d hw)⟩
  · intro d hw hlong v hv
    have hv : v.spot p = .directory d ∧ ∃ e ∈ v.tree.children d, IsTooLong p e := by
      rcases hv with rfl | rfl
      · exact ⟨hw, hlong⟩
      · obtain ⟨e, he, hlong⟩ := hlong
        exact ⟨(h.spot_eq hproper p).trans hw, e, (h.children d).mem_iff.1 he, hlong⟩
    obtain ⟨e, he⟩ := exists_firstTooLong hv.2
    have hdiscover := discover_of_firstTooLong hv.1 he
    exact ⟨e, he, hdiscover, translatePath_of_discover_error hdiscover⟩

/-- A directory that lists its sources, the second of them in capitals, after a file that is none
and before a directory with the name of a source. -/
def mixedWorkspace : Workspace where
  tree := { nodes := [
    (["d"], .directory), (["d", "notes.txt"], .file "".toUTF8),
    (["d", "b.vm"], .file "add\n".toUTF8), (["d", "A.VM"], .file "sub\n".toUTF8),
    (["d", "c.vm"], .directory)] }

/-- The same directory, listed in reverse. -/
def reversedWorkspace : Workspace where
  tree := { nodes := mixedWorkspace.tree.nodes.reverse }

theorem listing_order_is_hidden_mixedWorkspace :
    (discover mixedWorkspace (.ofString "d") =
        .ok (["A.VM", "b.vm"].map (Path.ofString "d").child) ∧
      translatePath mixedWorkspace {} (.ofString "d") =
        translatePath reversedWorkspace {} (.ofString "d")) ∧
    translatePath (crampedWorkspace ["old-directory", "sub-directory"]) {} (windingPath 817) =
      (.error (.file (.nameTooLong ((windingPath 817).child "old-directory"))), #[]) := by
  constructor
  · have hrelisted : Relisted reversedWorkspace mixedWorkspace := ⟨rfl, List.reverse_perm _⟩
    have hproper : ProperTree reversedWorkspace.tree := ⟨by decide, by decide⟩
    have hspot : reversedWorkspace.spot (.ofString "d") = .directory ["d"] := by decide +kernel
    have hshort : ∀ e ∈ reversedWorkspace.tree.children ["d"],
        ¬IsTooLong (.ofString "d") e := by
      unfold IsTooLong
      decide +kernel
    have hfound : discover reversedWorkspace (.ofString "d") =
        .ok (["A.VM", "b.vm"].map (Path.ofString "d").child) :=
      discover_sorted hspot (by decide +kernel) (by decide) nofun hshort
    obtain ⟨hdiscover, htranslate, -⟩ :=
      (listing_order_is_hidden hproper hrelisted (.ofString "d") {} #[]).1 fun d hd => by
        obtain rfl := Spot.directory.inj (hspot.symm.trans hd)
        exact hshort
    exact ⟨hdiscover.trans hfound, htranslate⟩
  · have hproper : ProperTree (crampedWorkspace ["sub-directory", "old-directory"]).tree :=
      ⟨by decide, by decide⟩
    have hrelisted := relisted_crampedWorkspace (List.Perm.swap "old-directory" "sub-directory" [])
    have hlong : ∃ e ∈ (crampedWorkspace ["sub-directory", "old-directory"]).tree.children ["d"],
        IsTooLong (windingPath 817) e := by
      refine ⟨("sub-directory", .directory), ?_, (isTooLong_windingPath (by decide)).2 (by decide)⟩
      rw [children_crampedWorkspace]
      decide
    obtain ⟨e, he, -, htranslate⟩ :=
      (listing_order_is_hidden hproper hrelisted (windingPath 817) {} #[]).2 ["d"]
        (spot_crampedWorkspace _) hlong _ (.inr rfl)
    have hfirst : FirstTooLong (windingPath 817)
        ((crampedWorkspace ["old-directory", "sub-directory"]).tree.children ["d"])
        ("old-directory", .directory) :=
      firstTooLong_crampedWorkspace (by decide) (by decide)
    rw [htranslate, he.child_eq hfirst]

/-- Under a path that is nearly too long, a directory has a source and another directory in it, and
the source is not found. Of two other directories it is the first one listed that is told. -/
theorem not_hidden_crampedWorkspace :
    (SourcesOf ((crampedWorkspace ["sub-directory"]).tree.children ["d"]) ["a.vm"] ∧
      (crampedWorkspace ["sub-directory"]).spot (windingPath 817) = .directory ["d"] ∧
      discover (crampedWorkspace ["sub-directory"]) (windingPath 817) =
        .error (.file (.nameTooLong ((windingPath 817).child "sub-directory")))) ∧
    Relisted (crampedWorkspace ["sub-directory", "old-directory"])
        (crampedWorkspace ["old-directory", "sub-directory"]) ∧
      discover (crampedWorkspace ["sub-directory", "old-directory"]) (windingPath 817) ≠
        discover (crampedWorkspace ["old-directory", "sub-directory"]) (windingPath 817) := by
  have hfails (name : String) (names : List String) (hnull : '\x00' ∉ name.toList)
      (hlong : 8 < name.utf8ByteSize) :
      discover (crampedWorkspace (name :: names)) (windingPath 817) =
        .error (.file (.nameTooLong ((windingPath 817).child name))) := by
    have hfirst : FirstTooLong (windingPath 817)
        ((crampedWorkspace (name :: names)).tree.children ["d"]) (name, .directory) :=
      firstTooLong_crampedWorkspace hnull hlong
    exact discover_of_firstTooLong (e := (name, .directory)) (spot_crampedWorkspace _) hfirst
  refine ⟨⟨⟨List.pairwise_singleton _ _, ?_⟩, spot_crampedWorkspace _, ?_⟩, ?_, ?_⟩
  · intro name
    rw [children_crampedWorkspace]
    constructor
    · intro hname
      rw [List.mem_singleton.1 hname]
      exact ⟨by decide +kernel, _, List.mem_cons_self⟩
    · rintro ⟨-, content, hlisted⟩
      have hname : name = "a.vm" ∧ content = "add\n".toUTF8 := by simpa using hlisted
      exact List.mem_singleton.2 hname.1
  · exact hfails "sub-directory" [] (by decide) (by decide)
  · exact relisted_crampedWorkspace (.swap "old-directory" "sub-directory" [])
  · rw [hfails "sub-directory" ["old-directory"] (by decide) (by decide),
      hfails "old-directory" ["sub-directory"] (by decide) (by decide)]
    intro heq
    have hchild : (windingPath 817).child "sub-directory" =
        (windingPath 817).child "old-directory" :=
      FileError.nameTooLong.inj (Failure.file.inj (Except.error.inj heq))
    exact absurd (child_inj hchild) (by decide)

end HackToolchain.Codegen
