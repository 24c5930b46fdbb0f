import SecureTape.Proofs.AliasSets
import SecureTape.Proofs.DoubleWrites
import SecureTape.Proofs.Elimination
import SecureTape.Proofs.FailedFinalizations
import SecureTape.Proofs.Fences
import SecureTape.Proofs.FreeRuns
import SecureTape.Proofs.InputOrder
import SecureTape.Proofs.Lanes
import SecureTape.Proofs.MacroOrder
import SecureTape.Proofs.RegisterPressure
import SecureTape.Proofs.RepeatedQueries
import SecureTape.Proofs.SpawnedThreads
import SecureTape.Proofs.Spelling
import SecureTape.Proofs.TapeNames
