import RegisterMachine.Expansion.Depth
import RegisterMachine.FileSystem.Folder
import RegisterMachine.Main
import RegisterMachine.Proofs.Labels
import RegisterMachine.Proofs.Names
import RegisterMachine.TypedStatement
import RegisterMachine.Proofs.Translation
import RegisterMachine.Proofs.Symbolic
import RegisterMachine.Proofs.Iteration
import RegisterMachine.Proofs.Flattening
import RegisterMachine.Proofs.Inclusions
import RegisterMachine.Proofs.Numerals
import RegisterMachine.Proofs.Tokens
import RegisterMachine.Proofs.RoundTrip
import RegisterMachine.Proofs.Faults
import RegisterMachine.Proofs.Diagnosis
import RegisterMachine.Proofs.Unbounded
import RegisterMachine.Proofs.Traversal
import RegisterMachine.Proofs.Tables
import RegisterMachine.Proofs.Reuse
import RegisterMachine.Proofs.Normalization
import RegisterMachine.Proofs.Cutoff
import RegisterMachine.Proofs.Pieces
import RegisterMachine.Proofs.Listings
import RegisterMachine.Proofs.Renaming
import RegisterMachine.Proofs.Stepping
import RegisterMachine.Proofs.Interchange
import RegisterMachine.Proofs.LineEndings
import RegisterMachine.Proofs.Literals
import RegisterMachine.Proofs.LineGrammar
import RegisterMachine.Proofs.Comparison
import RegisterMachine.Proofs.Forward
import RegisterMachine.Proofs.Recurrence
import RegisterMachine.Proofs.TypedAssembly
import RegisterMachine.Proofs.LineNumbers
import RegisterMachine.Proofs.Redeclarations
import RegisterMachine.Proofs.Records
import RegisterMachine.Proofs.Agreement
import RegisterMachine.Proofs.Renderings
import RegisterMachine.Proofs.LexicalClasses
import RegisterMachine.Proofs.ByteSearch
import RegisterMachine.Proofs.IncludedNames
