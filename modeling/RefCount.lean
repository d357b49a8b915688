import RefCount.Main
import RefCount.Proofs.BitSet.Registers
import RefCount.Proofs.Borrow.Infer
import RefCount.Proofs.Ir.DominatorTree
import RefCount.Proofs.Ir.Legible
import RefCount.Proofs.LivePaths
import RefCount.Proofs.Machine.Evolve
import RefCount.Proofs.Match.Ends
import RefCount.Proofs.Meaning.Select
import RefCount.Proofs.Reuse.Complete
import RefCount.Proofs.Reuse.Pairs
import RefCount.Proofs.Sexp.Parse
import RefCount.Proofs.Typing.Walk
import RefCount.Session
