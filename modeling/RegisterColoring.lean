import RegisterColoring.Draft
import RegisterColoring.Evaluation
import RegisterColoring.Main
import RegisterColoring.Proofs.BoundedRanges
import RegisterColoring.Proofs.Connectivity
import RegisterColoring.Proofs.ExactLiveness
import RegisterColoring.Proofs.PlacedClasses
import RegisterColoring.Proofs.Pressure
import RegisterColoring.Proofs.SharedStorage
import RegisterColoring.Proofs.SpillChoice
import RegisterColoring.Proofs.SpillSimulation
import RegisterColoring.Proofs.SupplyIndependence
import RegisterColoring.Proofs.TieClasses
import RegisterColoring.Proofs.TriangularSum
import RegisterColoring.Proofs.WrittenFirst
