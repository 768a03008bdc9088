import CSEMachine.Control.Render
import CSEMachine.Evaluation
import CSEMachine.Proofs.Arithmetic.Exactness
import CSEMachine.Proofs.Balance.Runs
import CSEMachine.Proofs.Blame
import CSEMachine.Proofs.Comparison
import CSEMachine.Proofs.DepthLimit
import CSEMachine.Proofs.Direct.Runs
import CSEMachine.Proofs.Display
import CSEMachine.Proofs.FixedPoint
import CSEMachine.Proofs.FrameStack
import CSEMachine.Proofs.History
import CSEMachine.Proofs.Independence.Sums
import CSEMachine.Proofs.Lowering.Decoding
import CSEMachine.Proofs.Lowering.Units
import CSEMachine.Proofs.Lowering.Visits
import CSEMachine.Proofs.NameHistory
import CSEMachine.Proofs.Nesting.Requests
import CSEMachine.Proofs.Operands.Runs
import CSEMachine.Proofs.PrintLog
import CSEMachine.Proofs.Recursion.Runs
import CSEMachine.Proofs.Renaming
import CSEMachine.Proofs.Scoping.Runs
import CSEMachine.Proofs.Strings.Phrases
import CSEMachine.Proofs.Substitution
import CSEMachine.Proofs.TailCalls
import CSEMachine.Proofs.TailPositions
import CSEMachine.Proofs.Tuples.Growth
import CSEMachine.Proofs.Unescaping
import CSEMachine.Proofs.Workload
