import OrbitPlot.Main
import OrbitPlot.Proofs.CommandLine.Agreement
import OrbitPlot.Proofs.Formula.Walk
import OrbitPlot.Proofs.Picture.Mirror
import OrbitPlot.Proofs.Picture.Shade
import OrbitPlot.Proofs.Recurrence.Companion
import OrbitPlot.Proofs.Recurrence.Correctness
import OrbitPlot.Proofs.Recurrence.Counting
import OrbitPlot.Proofs.Recurrence.Growth
import OrbitPlot.Proofs.Recurrence.Limit
import OrbitPlot.Proofs.Recurrence.Missing
import OrbitPlot.Proofs.Recurrence.Nesting
import OrbitPlot.Proofs.Recurrence.Normal
import OrbitPlot.Proofs.Recurrence.Selected
import OrbitPlot.Proofs.Recurrence.Spelling
