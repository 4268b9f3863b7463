import Jack.Grammar.Rule
import Jack.Log
import Jack.Main
import Jack.Proofs.Class.Code
import Jack.Proofs.Token.Cut
import Jack.Proofs.Class.Walk
import Jack.Proofs.Class.Label
import Jack.Proofs.Class.Height
import Jack.Proofs.Class.Occurrence
import Jack.Proofs.Class.Markup
import Jack.Proofs.Class.Calling
import Jack.Proofs.Markup.Terminal
import Jack.Proofs.Path
import Jack.Proofs.Disk.Basic
import Jack.Proofs.Disk.Script
import Jack.Proofs.Build.Install
import Jack.Proofs.Build.Artifacts
import Jack.Proofs.Disk.Interleaving
import Jack.Proofs.Build.Sources
import Jack.Proofs.Build.Prepare
import Jack.Proofs.Build.Batch
import Jack.Proofs.Class.Separate
import Jack.Proofs.Build.Attempt
import Jack.Proofs.Class.Line
import Jack.Proofs.Class.Layout
import Jack.Proofs.Class.Renaming
import Jack.Proofs.Chain
import Jack.Proofs.Token.Flaw
import Jack.Proofs.Grammar.Prediction
import Jack.Proofs.Build.Attempt
import Jack.Proofs.Class.Separate
