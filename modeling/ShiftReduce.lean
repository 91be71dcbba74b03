import ShiftReduce.Machine
import ShiftReduce.Main
import ShiftReduce.Proofs.Dfa.Collection
import ShiftReduce.Proofs.Dfa.ViablePrefix
import ShiftReduce.Proofs.Lookahead.FollowExact
import ShiftReduce.Proofs.Machine.Soundness
import ShiftReduce.Proofs.Machine.Unambiguity
import ShiftReduce.Proofs.Nfa.Agreement
import ShiftReduce.Proofs.Grammar.Reading
import ShiftReduce.Proofs.Grammar.Verdict
import ShiftReduce.Proofs.Bounds.Curtail
import ShiftReduce.Proofs.Bounds.Reader
import ShiftReduce.Proofs.Bounds.Automata
import ShiftReduce.Proofs.Bounds.Compilation
import ShiftReduce.Proofs.Compilation.Safety
import ShiftReduce.Proofs.Item.History
import ShiftReduce.Proofs.Table.Renumbering
import ShiftReduce.Proofs.Machine.Termination
import ShiftReduce.Proofs.Token.Cutting
import ShiftReduce.Proofs.Token.Writing
import ShiftReduce.Proofs.Table.Contents
import ShiftReduce.Proofs.Table.Difference
import ShiftReduce.Proofs.Table.Conflicts
import ShiftReduce.Proofs.Dfa.Accessing
import ShiftReduce.Proofs.Item.Laws
import ShiftReduce.Proofs.Table.Inadequacy
import ShiftReduce.Proofs.Nfa.Exact
import ShiftReduce.Proofs.Lookahead.Passes
import ShiftReduce.Proofs.Token.Cursor
import ShiftReduce.Proofs.Grammar.References
import ShiftReduce.Proofs.Grammar.Quotes
import ShiftReduce.Proofs.Dfa.Worklist
import ShiftReduce.Proofs.SetFamily.History
