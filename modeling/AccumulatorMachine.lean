import AccumulatorMachine.Main
import AccumulatorMachine.Machine.Session
import AccumulatorMachine.Proofs.Canonical
import AccumulatorMachine.Proofs.Ideal
import AccumulatorMachine.Proofs.Messages
import AccumulatorMachine.Proofs.Prediction
import AccumulatorMachine.Proofs.Refusals
import AccumulatorMachine.Proofs.Relocation
import AccumulatorMachine.Proofs.RepeatedRuns
import AccumulatorMachine.Proofs.SourceErrors
