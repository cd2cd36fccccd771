import Rematch.Main
import Rematch.Proofs.Automaton.Partition
import Rematch.Proofs.Extension.Alternatives
import Rematch.Proofs.Extension.Escapes
import Rematch.Proofs.Extension.Expansion
import Rematch.Proofs.Machine.Linking
import Rematch.Proofs.Matching.Anchored
import Rematch.Proofs.Matching.Journal
import Rematch.Proofs.Matching.Renewal
import Rematch.Proofs.Matching.Unwinding
import Rematch.Proofs.Matching.Visits
import Rematch.Proofs.Native.Outbox
import Rematch.Proofs.Native.Stack
import Rematch.Proofs.Regex.Spans
import Rematch.Proofs.Threads.Interruption
import Rematch.Proofs.Threads.Precedence
import Rematch.Unicode.CategoryFile
