import HackToolchain.Proofs.Asm.Images
import HackToolchain.Proofs.Asm.Reference
import HackToolchain.Proofs.Asm.SymbolListings
import HackToolchain.Proofs.CommandLine.Leftovers

/-!
# What an assembly writes read back

Whatever a source is assembled to, its image says the words and its listing says the symbols
(`ReadsBack`). Both texts are plain, so a run of the assembler's command line that is done leaves
files in which they are read again (`HasOutputs`). The image is written first and is missing
afterwards only if the listing went into the same file.
-/

set_option autoImplicit false

namespace HackToolchain.CommandLine

open Text Asm Machine Workspace

/-- What a program is written as can be read back. -/
structure ReadsBack (statements : List Statement) (p : Assembly) : Prop where
  /-- The words are what the statements come to. -/
  numbers : p.numbers.toList = statements.filterMap p.numberOf
  bounds : ∀ n ∈ p.numbers, 0 ≤ n ∧ n ≤ 65535
  /-- A memory of the usual size takes the program exactly if it is not too long, and as it is. -/
  loads : ∀ r : Rom, r.capacity = 32768 →
    ((∃ r', r.load p.numbers = .ok r') ↔ p.words.size ≤ 32768) ∧
      ∀ r', r.load p.numbers = .ok r' → r'.numbers = p.numbers
  image : SaysWords p.numbers.toList p.image
  listing : ∃ entries, readListing p.listing = entries.map some ∧ ListsSymbols p entries

theorem readsBack_of_assembled {base : Int} {statements : List Statement} {p : Assembly}
    (h : Assembled base statements p) (hread : ∀ s ∈ statements, s.WellFormed) :
    ReadsBack statements p where
  numbers := h.numbers_eq
  bounds := fun _ hn => Assembly.mem_numbers hn
  loads := fun _ hc => p.exists_load_iff hc
  image := p.saysWords_image
  listing := h.exists_listing hread

/-! ## Files -/

/-- A text is what is read from the file at a path. -/
def TextAt (w : Workspace) (p : Path) (text : String) : Prop :=
  ∃ content, w.read p = .ok content ∧ Utf8.readText content.data.toList = .ok text

/-- Two paths lead to the same file. -/
def SameFile (w : Workspace) (p q : Path) : Prop :=
  ∃ place content, w.spot p = .file place content ∧ w.spot q = .file place content

/-- A workspace has in it what a program is written as: the listing, if there is a path for it, and
the image, unless the listing is in the same file. -/
structure HasOutputs (w : Workspace) (p : Assembly) (out : Path) (listing : Option Path) :
    Prop where
  image : TextAt w out p.image ∨ ∃ path, listing = some path ∧ SameFile w out path
  listing : ∀ path, listing = some path → TextAt w path p.listing

section

variable {w w' w'' : Workspace} {p : Assembly} {input out path : Path} {place : Place}
  {text source : String}

theorem TextAt.unique {other : String} (h : TextAt w path text) (hother : TextAt w path other) :
    text = other := by
  obtain ⟨content, hcontent, htext⟩ := h
  obtain ⟨content', hcontent', htext'⟩ := hother
  rw [hcontent, Except.ok.injEq] at hcontent'
  rw [← hcontent', htext, Except.ok.injEq] at htext'
  exact htext'

theorem textAt_of_spot (h : w.spot path = .file place text.toUTF8) (hplain : IsPlain text.toList) :
    TextAt w path text := by
  refine ⟨text.toUTF8, ?_, Utf8.readText_toUTF8 hplain⟩
  rw [Workspace.read, h]

/-- What can be read is there. -/
theorem exists?_of_read {content : ByteArray} (h : w.read path = .ok content) :
    w.exists? path = .ok true := by
  rw [Workspace.read] at h
  split at h
  · next hspot => rw [Workspace.exists?, hspot]
  all_goals cases h

/-- A file is assembled exactly if the text in it is. -/
theorem assembleFile_eq_ok_iff : (assembleFile w input).1 = .ok p ↔
    ∃ source, TextAt w input source ∧ assemble source input.render = .ok p := by
  constructor
  · intro h
    rw [assembleFile] at h
    split at h
    · cases h
    · cases h
    split at h
    · cases h
    next content hcontent =>
    split at h
    · cases h
    next source hsource =>
    refine ⟨source, ⟨content, hcontent, hsource⟩, ?_⟩
    cases hq : assemble source input.render with
    | error f =>
      simp only [assembleNoted, hq] at h
      cases h
    | ok q =>
      simp only [assembleNoted, hq] at h
      exact congrArg Except.ok (Except.ok.inj h)
  · rintro ⟨source, ⟨content, hcontent, hsource⟩, hp⟩
    simp only [assembleFile, exists?_of_read hcontent, hcontent, hsource, assembleNoted, hp]
    rfl

/-- What was written first is still there, or the second text was written to the same file. -/
theorem spot_or_sameFile {place' : Place} {first second : String}
    (hfirst : Written w out first place w') (hsecond : Written w' path second place' w'') :
    w''.spot out = .file place first.toUTF8 ∨ SameFile w'' out path := by
  by_cases hplace : place = place'
  · subst hplace
    have hout : (w'.spot out).Writable place := .inr ⟨_, hfirst.after⟩
    exact .inr ⟨place, second.toUTF8, hsecond.spot_of_writable hout, hsecond.after⟩
  · apply Or.inl
    rw [hsecond.spot_eq (.inr ⟨place, _, hplace, hfirst.after⟩)]
    exact hfirst.after

/-! ## Runs -/

theorem writeListing_some_eq_ok_iff :
    writeListing w p (some path) = .ok w' ↔ w.write path p.listing = .ok w' := by
  rw [writeListing]
  cases w.write path p.listing with
  | error e =>
    constructor
    · intro h
      cases h
    · intro h
      cases h
  | ok _ => simp only [Except.ok.injEq]

theorem done_of_writes {s : AssembleSettings} {listing : Option Path}
    (hp : (assembleFile w input).1 = .ok p) (hwrite : w.write out p.image = .ok w')
    (hlisting : writeListing w' p listing = .ok w'') :
    (assembleInput s w input out listing).exitCode = .success ∧
      (assembleInput s w input out listing).workspace = w'' := by
  obtain ⟨assembled, journal, hfile⟩ :
      ∃ assembled journal, assembleFile w input = (assembled, journal) := ⟨_, _, rfl⟩
  rw [hfile] at hp
  subst hp
  simp only [assembleInput, hfile, hwrite, hlisting]
  exact ⟨rfl, rfl⟩

/-- A run that is done has assembled its input and has written the image and then the listing. -/
theorem writes_of_done {s : AssembleSettings} {listing : Option Path}
    (hdone : (assembleInput s w input out listing).exitCode = .success) :
    ∃ p w', (assembleFile w input).1 = .ok p ∧ w.write out p.image = .ok w' ∧
      writeListing w' p listing = .ok (assembleInput s w input out listing).workspace := by
  rcases assembleInput_cases s w input out listing with
    ⟨hcode, -, -⟩ | ⟨p, w', hp, hwrite, ⟨-, hlisted⟩ | ⟨hcode, -, -⟩⟩
  · exact absurd hdone hcode
  · have hlisting : ∃ w'', writeListing w' p listing = .ok w'' := by
      cases listing with
      | none => exact ⟨w', rfl⟩
      | some path =>
        obtain ⟨w'', hwrite'⟩ := hlisted path rfl
        exact ⟨w'', writeListing_some_eq_ok_iff.2 hwrite'⟩
    obtain ⟨w'', hlisting⟩ := hlisting
    refine ⟨p, w', hp, hwrite, ?_⟩
    rw [(done_of_writes hp hwrite hlisting).2]
    exact hlisting
  · exact absurd hdone hcode

/-- Where plain texts are written one after the other, they are read again. -/
theorem hasOutputs_of_writes {listing : Option Path} (himage : IsPlain p.image.toList)
    (hlisting : IsPlain p.listing.toList) (hwrite : w.write out p.image = .ok w')
    (hwrites : writeListing w' p listing = .ok w'') : HasOutputs w'' p out listing := by
  obtain ⟨place, hfirst, -⟩ := written_of_write hwrite
  cases listing with
  | none =>
    obtain rfl := Except.ok.inj hwrites
    refine { image := .inl (textAt_of_spot hfirst.after himage), listing := ?_ }
    intro path hpath
    cases hpath
  | some path =>
    obtain ⟨place', hsecond, -⟩ := written_of_write (writeListing_some_eq_ok_iff.1 hwrites)
    refine { image := ?_, listing := ?_ }
    · rcases spot_or_sameFile hfirst hsecond with hout | hsame
      · exact .inl (textAt_of_spot hout himage)
      · exact .inr ⟨path, rfl, hsame⟩
    · intro path' hpath
      obtain rfl := Option.some.inj hpath
      exact textAt_of_spot hsecond.after hlisting

end

/-- What a source is assembled to can be read back from what it is written as. A run that is done
has assembled the text of its input, and leaves what that is written as in files. -/
theorem outputs_read_back :
    (∀ source file base p, assemble source file base = .ok p →
      ∃ statements, readSource source file = .ok statements ∧ ReadsBack (bare statements) p) ∧
    ∀ i input out listing, Accepts i input out listing → (runAssemble i).exitCode = .success →
      ∃ source p, TextAt i.workspace input source ∧ assemble source input.render = .ok p ∧
        HasOutputs (runAssemble i).workspace p out listing := by
  constructor
  · intro source file base p hp
    rw [assemble] at hp
    cases hread : readSource source file with
    | error f =>
      rw [hread] at hp
      cases hp
    | ok statements =>
      rw [hread] at hp
      refine ⟨statements, rfl, readsBack_of_assembled (assembled_of_assembleStatements hp) ?_⟩
      exact wellFormed_of_readRows (readRows_of_readSource hread)
  · intro i input out listing haccepts hdone
    obtain ⟨s, hrun⟩ := haccepts.run
    rw [hrun] at hdone ⊢
    obtain ⟨p, w', hfile, hwrite, hlisting⟩ := writes_of_done hdone
    obtain ⟨source, hsource, hp⟩ := assembleFile_eq_ok_iff.1 hfile
    refine ⟨source, p, hsource, hp, ?_⟩
    obtain ⟨statements, hstatements, ha⟩ := exists_assembled hp
    have hplain := ha.isPlain_listing (wellFormed_of_readRows hstatements)
    exact hasOutputs_of_writes p.isPlain_image hplain hwrite hlisting

/-- A loop behind a variable that is set. -/
def listedSource : String := "@i\nM=1\n(LOOP)\n@LOOP\n0;JMP\n"

/-- A run that asks for a listing beside the image. -/
def listedInvocation : Invocation where
  arguments := ["a.asm", "-s", "a.sym"]
  workspace := { tree := { nodes := [(["a.asm"], .file listedSource.toUTF8)] } }

def listedImage : String :=
  "0000000000010000\n1110111111001000\n0000000000000010\n1110101010000111\n"

/-- The workspace of the run when the image is written. -/
def imagedWorkspace : Workspace where
  tree := { nodes := [(["a.asm"], .file listedSource.toUTF8),
    (["a.hack"], .file listedImage.toUTF8)] }

theorem exists_assemble_listedSource : ∃ p,
    assemble listedSource (Path.ofString "a.asm").render = .ok p ∧ p.vars.toList = [("i", 16)] ∧
    p.labels.toList = [("LOOP", 2)] ∧ p.words.toList = [0x0010, 0xEFC8, 0x0002, 0xEA87] := by
  have hrows : readRows (rows listedSource.toList) = some [.load "i",
      .compute ⟨some "M", "1", none⟩ { computation := .one, destination := { m := true } },
      .label "LOOP", .load "LOOP",
      .compute ⟨none, "0", some "JMP"⟩ { computation := .zero, jump := some .always }] := by
    decide +kernel
  obtain ⟨located, hread, hbare⟩ := exists_readSource hrows (Path.ofString "a.asm").render
  have hnodup : (labelNames (bare located)).Nodup := by
    rw [hbare]
    decide
  have hfree : ∀ name ∈ labelNames (bare located), predefined? name = none := by
    rw [hbare]
    decide
  obtain ⟨p, hp⟩ := exists_assembleStatements hnodup hfree defaultVariableBase
  have ha := assembled_of_assembleStatements hp
  have hnames := (names_of_assembleStatements hp).1
  rw [hbare] at ha hnames
  refine ⟨p, by simp only [assemble, hread, hp], ?_, ?_, ?_⟩
  · rw [ha.vars_eq hnames]
    decide +kernel
  · rw [ha.labels]
    decide
  · have hword := ha.wordOf_eq_reference hnames (wellFormed_of_readRows hrows)
    rw [ha.words, List.filterMap_congr hword]
    decide +kernel

theorem accepts_listedInvocation :
    Accepts listedInvocation (.ofString "a.asm") (.ofString "a.hack") (some (.ofString "a.sym")) :=
  accepts_listing (by decide +kernel) (by decide +kernel)

theorem textAt_listedInvocation :
    TextAt listedInvocation.workspace (.ofString "a.asm") listedSource := by
  have hspot : listedInvocation.workspace.spot (.ofString "a.asm") =
      .file ["a.asm"] listedSource.toUTF8 := by
    decide +kernel
  exact textAt_of_spot hspot (by decide +kernel)

theorem exitCode_listedInvocation : (runAssemble listedInvocation).exitCode = .success := by
  obtain ⟨p, hp, -, -, hwords⟩ := exists_assemble_listedSource
  have hfile : (assembleFile listedInvocation.workspace (.ofString "a.asm")).1 = .ok p :=
    assembleFile_eq_ok_iff.2 ⟨listedSource, textAt_listedInvocation, hp⟩
  have himage : p.image = listedImage := by
    rw [Assembly.image, hwords]
    decide +kernel
  have hwrite : listedInvocation.workspace.write (.ofString "a.hack") p.image =
      .ok imagedWorkspace := by
    rw [himage]
    decide +kernel
  have hspot : imagedWorkspace.spot (.ofString "a.sym") = .vacant ["a.sym"] := by decide +kernel
  obtain ⟨w, hlisting⟩ :
      ∃ w, writeListing imagedWorkspace p (some (.ofString "a.sym")) = .ok w := by
    rw [writeListing, Workspace.write, hspot]
    exact ⟨_, rfl⟩
  obtain ⟨s, hrun⟩ := accepts_listedInvocation.run
  rw [hrun]
  exact (done_of_writes hfile hwrite hlisting).1

theorem outputs_read_back_listedInvocation :
    (runAssemble listedInvocation).exitCode = .success ∧
      ∃ p, assemble listedSource (Path.ofString "a.asm").render = .ok p ∧
        p.numbers.toList = [16, 61384, 2, 60039] ∧
        readListing p.listing = [some ("LOOP", 2), some ("i", 16)] ∧
        HasOutputs (runAssemble listedInvocation).workspace p (.ofString "a.hack")
          (some (.ofString "a.sym")) := by
  obtain ⟨p, hp, hvars, hlabels, hwords⟩ := exists_assemble_listedSource
  obtain ⟨statements, -, hback⟩ := outputs_read_back.1 _ _ _ _ hp
  obtain ⟨source, q, hsource, hq, houtputs⟩ := outputs_read_back.2 _ _ _ _ accepts_listedInvocation
    exitCode_listedInvocation
  obtain rfl := hsource.unique textAt_listedInvocation
  rw [hp, Except.ok.injEq] at hq
  subst hq
  refine ⟨exitCode_listedInvocation, p, hp, ?_, ?_, houtputs⟩
  · rw [p.toList_numbers, hwords]
    decide +kernel
  · obtain ⟨entries, hentries, hlists⟩ := hback.listing
    have hperm : [("LOOP", 2), ("i", 16)].Perm entries := by
      apply List.Perm.trans ?_ hlists.perm.symm
      rw [hvars, hlabels]
      exact List.Perm.swap _ _ _
    rw [hentries, ← hlists.eq_of_perm hperm (by decide)]
    rfl

end HackToolchain.CommandLine
