import HackToolchain.CommandLine.Assemble
import HackToolchain.CommandLine.Translate
import HackToolchain.Machine.Computer
import HackToolchain.Main
import HackToolchain.Proofs.Asm.Addresses
import HackToolchain.Proofs.Asm.Grammar
import HackToolchain.Proofs.Asm.Mnemonics
import HackToolchain.Proofs.Asm.Overlong
import HackToolchain.Proofs.Asm.RenamedSources
import HackToolchain.Proofs.Codegen.Acceptance
import HackToolchain.Proofs.Codegen.Atomicity
import HackToolchain.Proofs.Codegen.Carets
import HackToolchain.Proofs.Codegen.Commented
import HackToolchain.Proofs.Codegen.Directories
import HackToolchain.Proofs.Codegen.Frames
import HackToolchain.Proofs.Codegen.GeneratedLabels
import HackToolchain.Proofs.Codegen.Hygiene
import HackToolchain.Proofs.Codegen.Isolation
import HackToolchain.Proofs.Codegen.Journals
import HackToolchain.Proofs.Codegen.Listings
import HackToolchain.Proofs.Codegen.Moves
import HackToolchain.Proofs.Codegen.Operators
import HackToolchain.Proofs.Codegen.Outputs
import HackToolchain.Proofs.Codegen.Overlong
import HackToolchain.Proofs.Codegen.Prefixes
import HackToolchain.Proofs.Codegen.Privacy
import HackToolchain.Proofs.Codegen.Refinement
import HackToolchain.Proofs.Codegen.Rollback
import HackToolchain.Proofs.Codegen.Validity
import HackToolchain.Proofs.CommandLine.Outputs
import HackToolchain.Proofs.Files.Writing
import HackToolchain.Proofs.Machine.Atomicity
import HackToolchain.Proofs.Machine.Runs
import HackToolchain.Proofs.Vm.Delivery
import HackToolchain.Proofs.Vm.Passes
import HackToolchain.Proofs.Vm.Printing
import HackToolchain.Vm.Reader
