import HackToolchain.CommandLine.Assemble
import HackToolchain.Proofs.Asm.Passes
import HackToolchain.Proofs.Files.Writing

/-!
# What a failed assembly leaves behind

A run of the assembler's command line writes its image before its listing. So there is one way to
fail that leaves something behind: the image is written, and then the listing cannot be
(`LeftHalfDone`). A run that fails in any other way, at the arguments, at reading, at assembling or
at writing the image, leaves all files as they were, and a run that is left half done has written
its image and nothing else (`failed_with_trace_iff`).
-/

set_option autoImplicit false

namespace HackToolchain.CommandLine

open Text Asm Workspace

/-- The arguments of a run are accepted: they ask for an input to be assembled to an output, and for
a listing if they give a path for it. -/
def Accepts (i : Invocation) (input out : Path) (listing : Option Path) : Prop :=
  ∃ s outputs operands,
    readArguments assembleGrammar {} i.arguments = .ok (.work s outputs operands) ∧
    acceptPaths i.workspace false outputs operands = .ok input ∧
    ((outputPath? outputs "output").map Except.ok).getD (defaultImage input) = .ok out ∧
    outputPath? outputs "symbols" = listing

/-- The input of a run is assembled and its image is written, which gives a workspace, and there the
listing cannot be written. -/
def LeftHalfDone (i : Invocation) (w : Workspace) : Prop :=
  ∃ input out path p e, Accepts i input out (some path) ∧
    (assembleFile i.workspace input).1 = .ok p ∧ i.workspace.write out p.image = .ok w ∧
    w.write path p.listing = .error e

/-! ## Ways to end -/

theorem exitCode_failed_ne (w : Workspace) (verbose : Bool) (journal : Journal)
    (lines : List String) (job : String) (f : Failure) :
    (Outcome.failed w verbose journal lines job f).exitCode ≠ .success := by
  have hcode : (Outcome.failed w verbose journal lines job f).exitCode =
      ((blame f).describe f.message (some job)).1 := rfl
  rw [hcode]
  cases blame f with
  | toolchain kind =>
    simp only [Blame.describe]
    split
    · nofun
    · split <;> nofun
  | argument => nofun
  | unexpected => nofun

theorem workspace_refused (w : Workspace) (usage : String) (m : Misuse) :
    (Outcome.refused w usage m).workspace = w := by
  cases m <;> rfl

/-- How an assembly ends: it fails with all files as they were, or it is done, or its image has been
written and the listing cannot be. -/
theorem assembleInput_cases (s : AssembleSettings) (w : Workspace) (input out : Path)
    (listing : Option Path) :
    let o := assembleInput s w input out listing
    (o.exitCode ≠ .success ∧ o.workspace = w ∧
      ∀ p, (assembleFile w input).1 = .ok p → ∀ w', w.write out p.image ≠ .ok w') ∨
    ∃ p w', (assembleFile w input).1 = .ok p ∧ w.write out p.image = .ok w' ∧
      (o.exitCode = .success ∧
          (∀ path, listing = some path → ∃ w'', w'.write path p.listing = .ok w'') ∨
        o.exitCode ≠ .success ∧ o.workspace = w' ∧
          ∃ path e, listing = some path ∧ w'.write path p.listing = .error e) := by
  obtain ⟨assembled, journal, hfile⟩ :
      ∃ assembled journal, assembleFile w input = (assembled, journal) := ⟨_, _, rfl⟩
  simp only [assembleInput, hfile]
  cases assembled with
  | error f => exact .inl ⟨exitCode_failed_ne _ _ _ _ _ _, rfl, nofun⟩
  | ok p =>
    cases hwrite : w.write out p.image with
    | error e =>
      refine .inl ⟨?_, ?_, ?_⟩
      · simpa only [hwrite] using exitCode_failed_ne _ _ _ _ _ _
      · simp only [hwrite]
        rfl
      · intro q hq w' h
        rw [← Except.ok.inj hq, hwrite] at h
        cases h
    | ok w' =>
      refine .inr ⟨p, w', rfl, hwrite, ?_⟩
      cases listing with
      | none => exact .inl ⟨by simp only [hwrite]; rfl, nofun⟩
      | some path =>
        cases hlist : w'.write path p.listing with
        | error e =>
          refine .inr ⟨?_, by simp only [hwrite, writeListing, hlist]; rfl, path, e, rfl, hlist⟩
          simpa only [hwrite, writeListing, hlist] using exitCode_failed_ne _ _ _ _ _ _
        | ok w'' =>
          refine .inl ⟨by simp only [hwrite, writeListing, hlist]; rfl, fun path' hpath => ?_⟩
          obtain rfl := Option.some.inj hpath
          exact ⟨w'', hlist⟩

variable {i : Invocation} {input out : Path} {listing : Option Path}

/-- A run whose arguments are accepted assembles as they say. -/
theorem Accepts.run (h : Accepts i input out listing) :
    ∃ s, runAssemble i = assembleInput s i.workspace input out listing := by
  obtain ⟨s, outputs, operands, hread, haccept, hout, hlisting⟩ := h
  refine ⟨s, ?_⟩
  simp only [runAssemble, hread, haccept, hout, hlisting]

/-- Any other run leaves all files as they were. -/
theorem workspace_of_not_accepts (h : ∀ input out listing, ¬ Accepts i input out listing) :
    (runAssemble i).workspace = i.workspace := by
  cases hread : readArguments assembleGrammar {} i.arguments with
  | error m =>
    simp only [runAssemble, hread]
    exact workspace_refused ..
  | ok request =>
    cases request with
    | tell n =>
      simp only [runAssemble, hread]
      rfl
    | work s outputs operands =>
      cases haccept : acceptPaths i.workspace false outputs operands with
      | error m =>
        simp only [runAssemble, hread, haccept]
        exact workspace_refused ..
      | ok input =>
        cases hout : ((outputPath? outputs "output").map Except.ok).getD (defaultImage input) with
        | error f =>
          simp only [runAssemble, hread, haccept, hout]
          rfl
        | ok out => exact absurd ⟨s, outputs, operands, hread, haccept, hout, rfl⟩ (h input out _)

/-- The short way to ask for a listing. -/
theorem accepts_listing {w : Workspace} {path : String}
    (hinput : acceptInput w false "a.asm" = .ok (.ofString "a.asm"))
    (hlisting : acceptOutput w path = .ok ()) :
    Accepts { arguments := ["a.asm", "-s", path], workspace := w } (.ofString "a.asm")
      (.ofString "a.hack") (some (.ofString path)) := by
  have hlist : ((Table.empty : Table String).insert "symbols" path).toList =
      [("symbols", path)] := by
    rw [Table.toList_insert_of_not_contains _ (by simp [Table.contains]), Table.toList_empty]
    rfl
  refine ⟨{}, Table.empty.insert "symbols" path, ["a.asm"], rfl, ?_, ?_, ?_⟩
  · have hforM : [("symbols", path)].forM (fun e => acceptOutput w e.2) = .ok () := by
      change (acceptOutput w path >>= fun _ => .ok ()) = .ok ()
      rw [hlisting]
      rfl
    rw [acceptPaths, hlist, hforM]
    exact hinput
  · rw [outputPath?, Table.find?_insert, if_neg (by decide), Table.find?_empty]
    decide +kernel
  · rw [outputPath?, Table.find?_insert, if_pos rfl]
    rfl

/-! ## Traces -/

/-- A failed run has changed something exactly if it was left half done in a workspace that is not
the one it started from, and then its image is the one file that has been created or changed. -/
theorem failed_with_trace_iff (i : Invocation) (w : Workspace) (hw : w ≠ i.workspace) :
    ((runAssemble i).exitCode ≠ .success ∧ (runAssemble i).workspace = w ↔ LeftHalfDone i w) ∧
    (LeftHalfDone i w → ∃ input out listing p place, Accepts i input out listing ∧
      (assembleFile i.workspace input).1 = .ok p ∧ Written i.workspace out p.image place w) := by
  refine ⟨⟨?_, ?_⟩, ?_⟩
  · rintro ⟨hcode, rfl⟩
    by_cases hnone : ∀ input out listing, ¬ Accepts i input out listing
    · exact absurd (workspace_of_not_accepts hnone) hw
    push Not at hnone
    obtain ⟨input, out, listing, haccepts⟩ := hnone
    obtain ⟨s, hrun⟩ := haccepts.run
    rw [hrun] at hw hcode ⊢
    rcases assembleInput_cases s i.workspace input out listing with
      ⟨-, hsame, -⟩ | ⟨p, w', hp, hwrite, ⟨hdone, -⟩ | ⟨-, hw', path, e, rfl, he⟩⟩
    · exact absurd hsame hw
    · exact absurd hdone hcode
    · rw [hw']
      exact ⟨input, out, path, p, e, haccepts, hp, hwrite, he⟩
  · rintro ⟨input, out, path, p, e, haccepts, hp, hwrite, he⟩
    obtain ⟨s, hrun⟩ := haccepts.run
    rw [hrun]
    rcases assembleInput_cases s i.workspace input out (some path) with
      ⟨-, -, hno⟩ | ⟨p', w', hp', hwrite', hend⟩
    · exact absurd hwrite (hno p hp w)
    obtain rfl := Except.ok.inj (hp.symm.trans hp')
    obtain rfl := Except.ok.inj (hwrite.symm.trans hwrite')
    rcases hend with ⟨-, hlisted⟩ | ⟨hcode, hw', -⟩
    · obtain ⟨w'', hok⟩ := hlisted path rfl
      rw [he] at hok
      cases hok
    · exact ⟨hcode, hw'⟩
  · rintro ⟨input, out, path, p, e, haccepts, hp, hwrite, -⟩
    obtain ⟨place, hwritten, -⟩ := written_of_write hwrite
    exact ⟨input, out, some path, p, place, haccepts, hp, hwritten⟩

/-- A run that asks for a listing in a directory that is not there. -/
def strandedInvocation : Invocation where
  arguments := ["a.asm", "-s", "x/a.sym"]
  workspace := { tree := { nodes := [(["a.asm"], .file "@1\n".toUTF8)] } }

/-- The workspace after it, with an image in it. -/
def strandedWorkspace : Workspace where
  tree := { nodes := [(["a.asm"], .file "@1\n".toUTF8),
    (["a.hack"], .file "0000000000000001\n".toUTF8)] }

theorem accepts_strandedInvocation :
    Accepts strandedInvocation (.ofString "a.asm") (.ofString "a.hack")
      (some (.ofString "x/a.sym")) :=
  accepts_listing (by decide +kernel) (by decide +kernel)

theorem exists_assembleFile_strandedInvocation : ∃ p,
    (assembleFile strandedInvocation.workspace (.ofString "a.asm")).1 = .ok p ∧
      p.image = "0000000000000001\n" := by
  have hread : readRows (rows "@1\n".toList) = some [.load "1"] := by decide +kernel
  obtain ⟨p, hp⟩ := exists_assemble hread (by decide) (by decide) "a.asm" defaultVariableBase
  obtain ⟨statements, hstatements, ha⟩ := exists_assembled hp
  rw [hread, Option.some.injEq] at hstatements
  subst hstatements
  refine ⟨p, ?_, ?_⟩
  · have hexists : strandedInvocation.workspace.exists? (.ofString "a.asm") = .ok true := by
      decide +kernel
    have hcontent : strandedInvocation.workspace.read (.ofString "a.asm") =
        .ok "@1\n".toUTF8 := by decide +kernel
    have htext : Utf8.readText "@1\n".toUTF8.data.toList = .ok "@1\n" := by decide +kernel
    have hname : (Path.ofString "a.asm").render = "a.asm" := by decide +kernel
    simp only [assembleFile, hexists, hcontent, htext, assembleNoted, hname, hp]
    rfl
  · have hvalue : p.value? "1" = some 1 := by
      rw [Assembly.value?]
      rfl
    rw [Assembly.image, ha.words]
    simp only [List.filterMap_cons, List.filterMap_nil, Assembly.wordOf, hvalue]
    decide +kernel

theorem failed_with_trace_iff_strandedInvocation :
    strandedWorkspace ≠ strandedInvocation.workspace ∧
      (runAssemble strandedInvocation).exitCode ≠ .success ∧
      (runAssemble strandedInvocation).workspace = strandedWorkspace := by
  obtain ⟨p, hp, himage⟩ := exists_assembleFile_strandedInvocation
  have hne : strandedWorkspace ≠ strandedInvocation.workspace := by decide +kernel
  have hwrite : strandedInvocation.workspace.write (.ofString "a.hack") p.image =
      .ok strandedWorkspace := by
    rw [himage]
    decide +kernel
  have hlisting : strandedWorkspace.write (.ofString "x/a.sym") p.listing =
      .error (.noSuchFile (.ofString "x/a.sym")) := by
    have hspot : strandedWorkspace.spot (.ofString "x/a.sym") = .missing := by decide +kernel
    rw [Workspace.write, hspot]
  exact ⟨hne, (failed_with_trace_iff strandedInvocation strandedWorkspace hne).1.2
    ⟨_, _, _, p, _, accepts_strandedInvocation, hp, hwrite, hlisting⟩⟩

end HackToolchain.CommandLine
