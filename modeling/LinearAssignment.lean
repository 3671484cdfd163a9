import LinearAssignment.Proofs.ConstantMatrix
import LinearAssignment.Proofs.Dense.Growth
import LinearAssignment.Proofs.Dense.RowList
import LinearAssignment.Proofs.Dense.Slackness
import LinearAssignment.Proofs.Dense.Sweep
import LinearAssignment.Proofs.Events
import LinearAssignment.Proofs.OptimalityCertificate
import LinearAssignment.Proofs.OutputWrites
import LinearAssignment.Proofs.ProblemCertificate
import LinearAssignment.Proofs.Rectangular.Prefix
import LinearAssignment.Proofs.Rectangular.Rounds
import LinearAssignment.Proofs.Rectangular.ShortestPath
import LinearAssignment.Proofs.Rectangular.Sweep
import LinearAssignment.Proofs.Restoration
import LinearAssignment.Proofs.Symmetry
import LinearAssignment.Proofs.Threshold.Application
import LinearAssignment.Proofs.Threshold.Balance
import LinearAssignment.Proofs.Threshold.Monotone
import LinearAssignment.Proofs.UnroundedRun
import LinearAssignment.Session
