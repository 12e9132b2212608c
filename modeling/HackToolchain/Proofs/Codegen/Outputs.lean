import HackToolchain.Codegen.Sources
import HackToolchain.Proofs.Codegen.Journals
import HackToolchain.Proofs.Files.Writing
import Mathlib.Data.List.TakeWhile

/-!
# What is written to files

A translation to a file is all or nothing (`saved_or_unchanged`): the workspace stays as it is if
anything fails, and otherwise the one file that changes is the output, with the assembly in it. The
output of a path by default is never a source, so that a second translation comes to the same and
changes nothing.
-/

set_option autoImplicit false

namespace HackToolchain.Codegen

open Text FileTree Workspace

/-! ## Names of outputs -/

/-- A dot with something before it and behind it, and no other dot there, ends the stem. -/
theorem splitName_append_dot {before tail : List Char} (hbefore : before ≠ []) (htail : tail ≠ [])
    (hdot : '.' ∉ tail) : Path.splitName (before ++ '.' :: tail) = (before, '.' :: tail) := by
  have hreverse : (before ++ '.' :: tail).reverse = tail.reverse ++ '.' :: before.reverse := by simp
  have hkeep : ∀ c ∈ tail.reverse, (c != '.') = true := by
    intro c hc
    rw [bne_iff_ne]
    rintro rfl
    exact hdot (List.mem_reverse.1 hc)
  have htake : (before ++ '.' :: tail).reverse.takeWhile (· != '.') = tail.reverse := by
    rw [hreverse, List.takeWhile_append_of_pos hkeep]
    simp
  have hdrop : (before ++ '.' :: tail).reverse.dropWhile (· != '.') = '.' :: before.reverse := by
    rw [hreverse, List.dropWhile_append_of_pos hkeep]
    rfl
  rw [Path.splitName, htake, hdrop]
  simp [hbefore, htail]

/-- A name that ends as outputs do is no name of a source. -/
theorem isSourceName_asm (name : String) : isSourceName (name ++ ".asm") = false := by
  by_cases h : name = ""
  · subst h
    decide
  · have hname : (name ++ ".asm").toList = name.toList ++ '.' :: "asm".toList := by
      rw [String.toList_append]
      rfl
    have hsuffix : lower ('.' :: "asm".toList) ≠ ".vm".toList := by decide +kernel
    rw [isSourceName, hname, splitName_append_dot (by simpa using h) (by decide) (by decide)]
    exact decide_eq_false hsuffix

/-! ## Listings -/

/-- What a directory lists of a node, if the node is in it. -/
def listed? (d : Place) (n : Place × Node) : Option (String × Node) :=
  match n.1.getLast? with
  | some name => if n.1.dropLast = d then some (name, n.2) else none
  | none => none

/-- An entry of a listing is a source. -/
def isSource : String × Node → Bool
  | (name, .file _) => isSourceName name
  | (_, .directory) => false

section

variable {t : FileTree} {place d : Place} {node : Node} {name : String} {p : Path}
  {listing : List (String × Node)}

theorem children_eq (t : FileTree) (d : Place) : t.children d = t.nodes.filterMap (listed? d) := rfl

theorem sourceNames_eq (listing : List (String × Node)) :
    sourceNames listing = ((listing.filter isSource).map (·.1)).mergeSort (· ≤ ·) := rfl

theorem sourceNames_sorted {names : List String}
    (hnames : (listing.filter isSource).map (·.1) = names)
    (hsorted : names.Pairwise (· ≤ ·)) : sourceNames listing = names := by
  rw [sourceNames_eq, hnames]
  exact List.mergeSort_of_pairwise (by simpa using hsorted)

theorem listed?_eq_some {n : Place × Node} {e : String × Node} :
    listed? d n = some e ↔ n.1.getLast? = some e.1 ∧ n.1.dropLast = d ∧ n.2 = e.2 := by
  unfold listed?
  cases n.1.getLast? with
  | none => simp
  | some last => simp [Prod.ext_iff, and_left_comm]

/-- A name that no source has may come and go, and the sources stay the same. -/
theorem sourceNames_children_put (hlast : place.getLast? = some name)
    (hname : isSourceName name = false) :
    sourceNames ((t.put place node).children d) = sourceNames (t.children d) := by
  have hsilent {n : Place × Node} (hn : n.1 = place) : (listed? d n).filter isSource = none := by
    rw [Option.filter_eq_none_iff]
    rintro ⟨last, node⟩ he
    rw [listed?_eq_some, hn, hlast] at he
    obtain rfl : name = last := Option.some.inj he.1
    cases node <;> simp [isSource, hname]
  have hlisted : ((t.put place node).children d).filter isSource =
      (t.children d).filter isSource := by
    rw [children_eq, children_eq, List.filter_filterMap, List.filter_filterMap]
    cases hget : t.get? place with
    | none =>
      rw [nodes_put_of_none hget, List.filterMap_append]
      simp [hsilent]
    | some old =>
      rw [nodes_put_of_some hget, List.filterMap_map]
      apply List.filterMap_congr
      intro n hn
      by_cases hplace : n.1 = place
      · rw [Function.comp_apply, hsilent hplace, hsilent (by rw [replaceAt_fst, hplace])]
      · rw [Function.comp_apply, replaceAt_of_ne hplace]
  rw [sourceNames_eq, sourceNames_eq, hlisted]

/-- Nothing in a listing has too long a path, and then whatever order it is looked at in. -/
theorem overlongEntry?_eq_none : overlongEntry? p listing = none ↔
    ∀ e ∈ listing, spotOfText? (p.child e.1).render ≠ some .tooLong := by
  unfold overlongEntry?
  rw [List.find?_eq_none]
  constructor
  · intro h e he
    simpa using h (p.child e.1) (List.mem_map_of_mem he)
  · intro h c hc
    obtain ⟨e, he, rfl⟩ := List.mem_map.1 hc
    simpa using h e he

/-- A listing has no more names too long than before if what was put there has none. -/
theorem overlongEntry?_children_put (h : overlongEntry? p (t.children d) = none)
    (hplace : ∀ name, place = d ++ [name] → spotOfText? (p.child name).render ≠ some .tooLong) :
    overlongEntry? p ((t.put place node).children d) = none := by
  rw [overlongEntry?_eq_none] at h ⊢
  intro e he
  rw [children_eq, List.mem_filterMap] at he
  obtain ⟨n, hn, he⟩ := he
  rcases of_mem_nodes_put hn with rfl | ⟨hold, -⟩
  · obtain ⟨hlast, hd, -⟩ := listed?_eq_some.1 he
    apply hplace e.1
    rw [← hd]
    exact (List.dropLast_append_getLast? e.1 hlast).symm
  · apply h
    rw [children_eq, List.mem_filterMap]
    exact ⟨n, hold, he⟩

end

/-! ## Sources -/

section

variable {w w' : Workspace} {p : Path} {sources : List Path}

theorem openSources_congr (h : ∀ s ∈ sources, w'.spot s = w.spot s) :
    openSources w' sources = openSources w sources := by
  induction sources with
  | nil => rfl
  | cons s sources ih =>
    rw [openSources, openSources, h s List.mem_cons_self,
      ih fun s hs => h s (List.mem_cons_of_mem _ hs)]

/-- Sources that are opened are files. -/
theorem exists_file_of_openSources {units : List SourceUnit}
    (h : openSources w sources = .ok units) :
    ∀ s ∈ sources, ∃ q content, w.spot s = .file q content := by
  induction sources generalizing units with
  | nil => exact fun _ hs => absurd hs List.not_mem_nil
  | cons s sources ih =>
    rw [openSources] at h
    split at h
    · next q content hspot =>
      obtain ⟨units', hrest⟩ : ∃ units', openSources w sources = .ok units' := by
        cases hrest : openSources w sources with
        | error f => rw [hrest] at h; cases h
        | ok units' => exact ⟨units', rfl⟩
      intro s' hs'
      rcases List.mem_cons.1 hs' with rfl | hs'
      · exact ⟨q, content, hspot⟩
      · exact ih hrest s' hs'
    · cases h
    · cases h

theorem of_mem_sourceNames {listing : List (String × Node)} {n : String}
    (h : n ∈ sourceNames listing) : isSourceName n = true := by
  rw [sourceNames_eq, (List.mergeSort_perm _ _).mem_iff] at h
  obtain ⟨⟨last, node⟩, he, rfl⟩ := List.mem_map.1 h
  cases node with
  | directory => exact absurd (List.mem_filter.1 he).2 (by simp [isSource])
  | file content => exact (List.mem_filter.1 he).2

/-- Sources are found in a directory if none of its entries has too long a path. -/
theorem discover_directory {d : Place} (hspot : w.spot p = .directory d) :
    discover w p = .ok sources ↔ overlongEntry? p (w.tree.children d) = none ∧
      sourceNames (w.tree.children d) ≠ [] ∧
      sources = (sourceNames (w.tree.children d)).map p.child := by
  rw [discover, hspot]
  dsimp only
  split
  · next hlong => simp [hlong]
  · next hnames => simp [hnames]
  · next hlong hne =>
    rw [Except.ok.injEq]
    exact ⟨fun h => ⟨hlong, hne, h.symm⟩, fun h => h.2.2.symm⟩

/-- A directory that lists its sources in order. -/
theorem discover_sorted {d : Place} {names : List String} (hspot : w.spot p = .directory d)
    (hnames : ((w.tree.children d).filter isSource).map (·.1) = names)
    (hsorted : names.Pairwise (· ≤ ·)) (hne : names ≠ [])
    (hshort : ∀ e ∈ w.tree.children d, spotOfText? (p.child e.1).render ≠ some .tooLong) :
    discover w p = .ok (names.map p.child) := by
  rw [discover_directory hspot, sourceNames_sorted hnames hsorted]
  exact ⟨overlongEntry?_eq_none.2 hshort, hne, rfl⟩

theorem discover_file {q : Place} {content : ByteArray} (hspot : w.spot p = .file q content) :
    discover w p = .ok sources ↔ isSourceName p.name = true ∧ sources = [p] := by
  rw [discover, hspot]
  dsimp only
  split
  · next hname =>
    rw [Except.ok.injEq, and_iff_right hname]
    exact eq_comm
  · next hname => exact ⟨nofun, fun h => absurd h.1 hname⟩

/-- A path at which there are sources is a directory or a source itself. -/
theorem discover_cases (h : discover w p = .ok sources) :
    (∃ d, w.spot p = .directory d) ∨
      ∃ q content, w.spot p = .file q content ∧ isSourceName p.name = true ∧ sources = [p] := by
  cases hspot : w.spot p with
  | directory d => exact .inl ⟨d, rfl⟩
  | file q content => exact .inr ⟨q, content, rfl, (discover_file hspot).1 h⟩
  | vacant | missing | blocked | tooLong | nowhere =>
    rw [discover, hspot] at h
    cases h

/-- The last name of a source ends as sources do. -/
theorem isSourceName_of_discover (h : discover w p = .ok sources) :
    ∀ s ∈ sources, ∃ n, s.names.getLast? = some n ∧ isSourceName n = true := by
  intro s hs
  rcases discover_cases h with ⟨d, hspot⟩ | ⟨q, content, hspot, hname, rfl⟩
  · obtain ⟨-, -, rfl⟩ := (discover_directory hspot).1 h
    obtain ⟨n, hn, rfl⟩ := List.mem_map.1 hs
    exact ⟨n, by simp [Path.child], of_mem_sourceNames hn⟩
  · obtain rfl := List.mem_singleton.1 hs
    rw [Path.name] at hname
    cases hlast : s.names.getLast? with
    | none =>
      rw [hlast] at hname
      exact absurd hname (by decide)
    | some n =>
      rw [hlast] at hname
      exact ⟨n, rfl, hname⟩

/-- The last name of an output ends as outputs do. -/
theorem getLast?_defaultOutput {out : Path} (h : defaultOutput w p = .ok out) :
    ∃ name, out.names.getLast? = some (name ++ ".asm") := by
  rw [defaultOutput] at h
  split at h
  · next d _ =>
    obtain rfl := Except.ok.inj h
    exact ⟨_, List.getLast?_concat⟩
  · cases h
  · split at h
    · next out' hout =>
      obtain rfl := Except.ok.inj h
      rw [Path.withSuffix?] at hout
      split at hout
      · cases hout
      · obtain rfl := Option.some.inj hout
        exact ⟨_, List.getLast?_concat⟩
    · cases h

/-- What comes out of a path is decided by its sources and by whether it is a directory. -/
theorem translatePath_congr (options : Options) (journal journal' : Journal)
    (hsources : discover w p = .ok sources) (hsources' : discover w' p = .ok sources)
    (hdirectory : w'.isDirectory p = w.isDirectory p)
    (hspot : ∀ s ∈ sources, w'.spot s = w.spot s) :
    (translatePath w' options p journal').1 = (translatePath w options p journal).1 := by
  rw [translatePath, translatePath, hsources, hsources', hdirectory]
  simp only [translateFiles, openSources_congr hspot]
  split
  · rfl
  · split
    · rfl
    · exact congrArg (Except.mapError Failure.codegen) (translateProgram_journal ..)

theorem eq_ok_of_mapError {ε ε' α : Type} {x : Except ε α} {f : ε → ε'} {a : α}
    (h : x.mapError f = .ok a) : x = .ok a := by
  cases x with
  | error e => cases h
  | ok b => exact congrArg Except.ok (Except.ok.inj h)

/-- A path that is translated is a program of the files found there. -/
theorem exists_units_of_translatePath {options : Options} {journal : Journal} {r : Result}
    (h : (translatePath w options p journal).1 = .ok r) :
    ∃ sources units bootstrap, discover w p = .ok sources ∧ openSources w sources = .ok units ∧
      (translateProgram options bootstrap units journal).1 = .ok r := by
  rw [translatePath] at h
  split at h
  · cases h
  · next sources hsources =>
    simp only [translateFiles] at h
    split at h
    · cases h
    · split at h
      · cases h
      · next units hunits =>
        exact ⟨sources, units, _, hsources, hunits, eq_ok_of_mapError h⟩

end

/-! ## Writing the output -/

/-- The file that the assembly is to be written to. -/
def outputOf (w : Workspace) (p : Path) : Option Path → Except Failure Path
  | some out => .ok out
  | none => defaultOutput w p

section

variable {w w' : Workspace} {options : Options} {p out : Path} {output : Option Path}
  {journal : Journal} {r : Result} {place : Place} {sources : List Path}

/-- A path that cannot be translated has no output. -/
theorem translateToFile_of_error {f : Failure}
    (h : (translatePath w options p journal).1 = .error f) :
    (translateToFile w options p output journal).1 = .error f ∧
      (translateToFile w options p output journal).2.1 = w := by
  unfold translateToFile
  generalize translatePath w options p journal = t at h
  obtain ⟨outcome, journal'⟩ := t
  obtain rfl : outcome = .error f := h
  exact ⟨rfl, rfl⟩

/-- Writes the assembly to the output, if there is one. -/
def saveResult (w : Workspace) (r : Result) (journal : Journal) :
    Except Failure Path → Except Failure Result × Workspace × Journal
  | .error f => (.error f, w, journal)
  | .ok out =>
    match w.write out r.assembly with
    | .error e => (.error (.file e), w, journal)
    | .ok w' =>
      (.ok { r with outputPath := some out }, w',
        journal.push (.assemblyWritten r.lineCount out))

theorem exists_save_of_ok (h : (translatePath w options p journal).1 = .ok r)
    (output : Option Path) :
    ∃ journal', translateToFile w options p output journal =
      saveResult w r journal' (outputOf w p output) := by
  unfold translateToFile
  generalize translatePath w options p journal = t at h
  obtain ⟨outcome, journal'⟩ := t
  obtain rfl : outcome = .ok r := h
  refine ⟨journal', ?_⟩
  cases output <;> rfl

/-- A path that is translated has its output written, or nothing. -/
theorem translateToFile_of_ok (h : (translatePath w options p journal).1 = .ok r)
    (output : Option Path) :
    (∃ f, (translateToFile w options p output journal).1 = .error f ∧
      (translateToFile w options p output journal).2.1 = w) ∨
    ∃ out, outputOf w p output = .ok out ∧
      w.write out r.assembly = .ok (translateToFile w options p output journal).2.1 ∧
      (translateToFile w options p output journal).1 = .ok { r with outputPath := some out } := by
  obtain ⟨journal', hsave⟩ := exists_save_of_ok h output
  rw [hsave]
  cases outputOf w p output with
  | error f => exact .inl ⟨f, rfl, rfl⟩
  | ok out =>
    rw [saveResult]
    cases hwrite : w.write out r.assembly with
    | error e => exact .inl ⟨.file e, rfl, rfl⟩
    | ok w' => exact .inr ⟨out, rfl, hwrite, rfl⟩

/-- A path is translated and its output is written where that is possible. -/
theorem translateToFile_of_write (h : (translatePath w options p journal).1 = .ok r)
    (hout : outputOf w p output = .ok out) (hwrite : w.write out r.assembly = .ok w') :
    (translateToFile w options p output journal).1 = .ok { r with outputPath := some out } ∧
      (translateToFile w options p output journal).2.1 = w' := by
  obtain ⟨journal', hsave⟩ := exists_save_of_ok h output
  rw [hsave, hout, saveResult, hwrite]
  exact ⟨rfl, rfl⟩

/-! ## The second translation -/

theorem getLast?_of_written {text : String} (hwritten : Written w out text place w')
    (hout : defaultOutput w p = .ok out) :
    ∃ name, out.names.getLast? = some (name ++ ".asm") ∧
      place.getLast? = some (name ++ ".asm") := by
  obtain ⟨name, hname⟩ := getLast?_defaultOutput hout
  exact ⟨name, hname, (getLast?_of_spot hwritten.before).2.trans hname⟩

/-- The output of a path by default is at another place than its sources. -/
theorem places_of_written (hsources : discover w p = .ok sources)
    (hfiles : ∀ s ∈ sources, ∃ q content, w.spot s = .file q content)
    (hout : defaultOutput w p = .ok out) {text : String}
    (hwritten : Written w out text place w') :
    ∀ s ∈ sources, ∃ q content, w.spot s = .file q content ∧ q ≠ place := by
  obtain ⟨name, -, hlast⟩ := getLast?_of_written hwritten hout
  intro s hs
  obtain ⟨q, content, hspot⟩ := hfiles s hs
  refine ⟨q, content, hspot, ?_⟩
  rintro rfl
  obtain ⟨n, hn, hsource⟩ := isSourceName_of_discover hsources s hs
  have hq := (getLast?_of_spot (.inr ⟨content, hspot⟩)).2
  rw [hlast, hn] at hq
  rw [← Option.some.inj hq, isSourceName_asm] at hsource
  cases hsource

/-- After the output of a path by default was written, the path has the same sources and the same
output. -/
theorem sources_of_written (hsources : discover w p = .ok sources)
    (hplaces : ∀ s ∈ sources, ∃ q content, w.spot s = .file q content ∧ q ≠ place)
    (hout : defaultOutput w p = .ok out) {text : String}
    (hwritten : Written w out text place w')
    (htree : w'.tree = w.tree.put place (.file text.toUTF8)) :
    discover w' p = .ok sources ∧ defaultOutput w' p = .ok out ∧
      w'.isDirectory p = w.isDirectory p := by
  obtain ⟨name, hname, hlast⟩ := getLast?_of_written hwritten hout
  rcases discover_cases hsources with ⟨d, hspot⟩ | ⟨q, content, hspot, hp, rfl⟩
  · have hspot' : w'.spot p = .directory d :=
      (hwritten.spot_eq (.inl ⟨d, hspot⟩)).trans hspot
    obtain ⟨hlong, hne, hlisted⟩ := (discover_directory hspot).1 hsources
    rw [defaultOutput, hspot] at hout
    have hshort : ∀ n, place = d ++ [n] → spotOfText? (p.child n).render ≠ some .tooLong := by
      rintro n rfl
      have hchild : p.child n = out := by
        rw [← Except.ok.inj hout] at hname ⊢
        rw [List.getLast?_concat] at hlast
        rw [Path.child, List.getLast?_concat] at hname
        rw [Option.some.inj (hlast.trans hname.symm)]
      rw [hchild, (spot_eq_follow_of_writable hwritten.before).1]
      exact nofun
    refine ⟨(discover_directory hspot').2 ?_, ?_, ?_⟩
    · rw [htree, sourceNames_children_put hlast (isSourceName_asm name)]
      exact ⟨overlongEntry?_children_put hlong hshort, hne, hlisted⟩
    · rw [defaultOutput, hspot']
      exact hout
    · rw [isDirectory, isDirectory, hspot, hspot']
  · have hspot' : w'.spot p = .file q content := by
      obtain ⟨q', content', hp', hq⟩ := hplaces p List.mem_cons_self
      exact (hwritten.spot_eq (.inr ⟨q', content', hq, hp'⟩)).trans hspot
    rw [defaultOutput, hspot] at hout
    refine ⟨(discover_file hspot').2 ⟨hp, rfl⟩, ?_, ?_⟩
    · rw [defaultOutput, hspot']
      exact hout
    · rw [isDirectory, isDirectory, hspot, hspot']

theorem ne_of_written {s : Path} {q : Place} {content : ByteArray} {text : String}
    (hwritten : Written w out text place w') (hspot : w.spot s = .file q content)
    (hq : q ≠ place) : s ≠ out := by
  rintro rfl
  rcases hwritten.before with hs | ⟨c, hs⟩
  · rw [hspot] at hs
    cases hs
  · rw [hspot] at hs
    exact hq (Spot.file.inj hs).1

/-- After the output by default was written, the path is translated to the same. -/
theorem translatePath_of_written (h : (translatePath w options p journal).1 = .ok r)
    (hout : defaultOutput w p = .ok out) {text : String}
    (hwritten : Written w out text place w')
    (htree : w'.tree = w.tree.put place (.file text.toUTF8)) :
    (∃ sources, discover w p = .ok sources ∧
      ∀ s ∈ sources, s ≠ out ∧ ∃ q content, w.spot s = .file q content ∧ q ≠ place) ∧
    defaultOutput w' p = .ok out ∧ ∀ journal', (translatePath w' options p journal').1 = .ok r := by
  obtain ⟨sources, units, -, hsources, hunits, -⟩ := exists_units_of_translatePath h
  have hplaces := places_of_written hsources (exists_file_of_openSources hunits) hout hwritten
  obtain ⟨hsources', hout', hdirectory⟩ := sources_of_written hsources hplaces hout hwritten htree
  refine ⟨⟨sources, hsources, fun s hs => ?_⟩, hout', fun journal' => ?_⟩
  · obtain ⟨q, content, hspot, hq⟩ := hplaces s hs
    exact ⟨ne_of_written hwritten hspot hq, q, content, hspot, hq⟩
  · have hspots : ∀ s ∈ sources, w'.spot s = w.spot s := by
      intro s hs
      obtain ⟨q, content, hspot, hq⟩ := hplaces s hs
      exact hwritten.spot_eq (.inr ⟨q, content, hq, hspot⟩)
    rw [translatePath_congr options journal journal' hsources hsources' hdirectory hspots, h]

/-- A translation to a file is all or nothing. If the sources cannot be found, read or translated,
or the assembly cannot be written, nothing changes. Otherwise the output is created or rewritten
with the assembly, and nothing else changes. An output by default is none of the sources, and
translating once more gives the same and changes nothing. -/
theorem saved_or_unchanged (w : Workspace) (options : Options) (p : Path) (output : Option Path)
    (journal : Journal) :
    (∀ f, (translatePath w options p journal).1 = .error f →
      (translateToFile w options p output journal).1 = .error f) ∧
    (∀ f, (translateToFile w options p output journal).1 = .error f →
      (translateToFile w options p output journal).2.1 = w) ∧
    ∀ r, (translateToFile w options p output journal).1 = .ok r →
      ∃ r₀ out place, (translatePath w options p journal).1 = .ok r₀ ∧
        r = { r₀ with outputPath := some out } ∧ outputOf w p output = .ok out ∧
        Written w out r.assembly place (translateToFile w options p output journal).2.1 ∧
        (output = none →
          (∃ sources, discover w p = .ok sources ∧
            ∀ s ∈ sources, s ≠ out ∧ ∃ q content, w.spot s = .file q content ∧ q ≠ place) ∧
          ∀ journal',
            let again := translateToFile (translateToFile w options p output journal).2.1 options p
              none journal'
            again.1 = .ok r ∧ again.2.1 = (translateToFile w options p output journal).2.1) := by
  refine ⟨fun f hf => (translateToFile_of_error hf).1, ?_, ?_⟩
  · intro f hf
    cases hpath : (translatePath w options p journal).1 with
    | error f' => exact (translateToFile_of_error hpath).2
    | ok r =>
      rcases translateToFile_of_ok hpath output with ⟨-, -, hw⟩ | ⟨out, -, -, hok⟩
      · exact hw
      · rw [hok] at hf
        cases hf
  · intro r hr
    cases hpath : (translatePath w options p journal).1 with
    | error f =>
      rw [(translateToFile_of_error hpath).1] at hr
      cases hr
    | ok r₀ =>
      rcases translateToFile_of_ok hpath output with ⟨f, hf, -⟩ | ⟨out, hout, hwrite, hok⟩
      · rw [hr] at hf
        cases hf
      generalize (translateToFile w options p output journal).2.1 = w' at hwrite ⊢
      obtain rfl : r = { r₀ with outputPath := some out } :=
        Except.ok.inj (hr.symm.trans hok)
      obtain ⟨place, hwritten, htree⟩ := written_of_write hwrite
      refine ⟨r₀, out, place, rfl, rfl, hout, hwritten, ?_⟩
      rintro rfl
      obtain ⟨hsources, hout', hpath'⟩ := translatePath_of_written hpath hout hwritten htree
      exact ⟨hsources, fun journal' =>
        translateToFile_of_write (hpath' journal') hout' (write_again hwrite)⟩

end

/-- A directory of two sources with an old output, and one whose second source is no text. -/
def sampleWorkspace : Workspace where
  tree := { nodes := [
    (["d"], .directory), (["d", "A.VM"], .file "push constant 1\n".toUTF8),
    (["d", "B.vm"], .file "push static 0\n".toUTF8), (["d", "d.asm"], .file "old".toUTF8),
    (["e"], .directory), (["e", "A.vm"], .file "add\n".toUTF8),
    (["e", "B.vm"], .file ⟨#[0xff]⟩)] }

theorem saved_or_unchanged_sampleWorkspace :
    (∃ r w', (translateToFile sampleWorkspace {} (.ofString "d")).1 = .ok r ∧
      Written sampleWorkspace (.ofString "d/d.asm") r.assembly ["d", "d.asm"] w' ∧
      (translateToFile w' {} (.ofString "d")).1 = .ok r ∧
      (translateToFile w' {} (.ofString "d")).2.1 = w') ∧
    (translateToFile sampleWorkspace {} (.ofString "e")).1.isOk = false ∧
    (translateToFile sampleWorkspace {} (.ofString "e")).2.1 = sampleWorkspace := by
  have hd : discover sampleWorkspace (.ofString "d") =
      .ok (["A.VM", "B.vm"].map (Path.ofString "d").child) :=
    discover_sorted (d := ["d"]) (by decide +kernel) (by decide +kernel) (by decide) nofun
      (by decide +kernel)
  have he : discover sampleWorkspace (.ofString "e") =
      .ok (["A.vm", "B.vm"].map (Path.ofString "e").child) :=
    discover_sorted (d := ["e"]) (by decide +kernel) (by decide +kernel) (by decide) nofun
      (by decide +kernel)
  have hok : (translatePath sampleWorkspace {} (.ofString "d")).1.isOk = true := by
    rw [translatePath, hd]
    decide +kernel
  have hbad : (translatePath sampleWorkspace {} (.ofString "e")).1.isOk = false := by
    rw [translatePath, he]
    decide +kernel
  constructor
  · obtain ⟨-, -, hsaved⟩ := saved_or_unchanged sampleWorkspace {} (.ofString "d") none #[]
    cases hpath : (translatePath sampleWorkspace {} (.ofString "d")).1 with
    | error f =>
      rw [hpath] at hok
      cases hok
    | ok r =>
      have hout : outputOf sampleWorkspace (.ofString "d") none = .ok (.ofString "d/d.asm") := by
        decide +kernel
      obtain ⟨old, hwrite⟩ : ∃ old, sampleWorkspace.spot (.ofString "d/d.asm") =
          .file ["d", "d.asm"] old := ⟨"old".toUTF8, by decide +kernel⟩
      have hrun := translateToFile_of_write hpath hout (by rw [Workspace.write, hwrite])
      obtain ⟨r₀, out, place, -, -, hout', hwritten, hdefault⟩ := hsaved _ hrun.1
      obtain ⟨-, hagain⟩ := hdefault rfl
      obtain rfl := Except.ok.inj (hout.symm.trans hout')
      obtain rfl : place = ["d", "d.asm"] := by
        rcases hwritten.before with hplace | ⟨content, hplace⟩
        · rw [hwrite] at hplace
          cases hplace
        · rw [hwrite] at hplace
          exact (Spot.file.inj hplace).1.symm
      exact ⟨_, _, hrun.1, hwritten, hagain #[]⟩
  · obtain ⟨herror, hunchanged, -⟩ := saved_or_unchanged sampleWorkspace {} (.ofString "e") none #[]
    cases hpath : (translatePath sampleWorkspace {} (.ofString "e")).1 with
    | error f =>
      have hrun := herror f hpath
      rw [hrun]
      exact ⟨rfl, hunchanged f hrun⟩
    | ok r =>
      rw [hpath] at hbad
      cases hbad

end HackToolchain.Codegen
