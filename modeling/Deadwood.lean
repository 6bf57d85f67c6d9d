import Deadwood.Number.Numeral
import Deadwood.Analysis.Record
import Deadwood.Files.Memory
import Deadwood.Text.Console
import Deadwood.Settings.EnvFile
import Deadwood.Main
import Deadwood.Proofs.Removal.Survival
import Deadwood.Proofs.Removal.Report
import Deadwood.Proofs.Surgery.Transaction
import Deadwood.Proofs.Analysis.Erasure
import Deadwood.Proofs.Analysis.Unused
import Deadwood.Proofs.Removal.Omission
import Deadwood.Proofs.Surgery.Repeat
import Deadwood.Proofs.Backup.Coverage
import Deadwood.Proofs.Analysis.Declaration
import Deadwood.Proofs.Removal.Remnant
import Deadwood.Proofs.Surgery.Interleaving
import Deadwood.Proofs.Surgery.DryRun
import Deadwood.Proofs.Analysis.Arrival
import Deadwood.Proofs.Surgery.Balance
import Deadwood.Proofs.Backup.Skipping
import Deadwood.Proofs.Backup.Restored
import Deadwood.Proofs.Surgery.Folding
import Deadwood.Proofs.Removal.Clause
import Deadwood.Proofs.Removal.Declaration
import Deadwood.Proofs.Removal.Meaning
import Deadwood.Proofs.Removal.Order
import Deadwood.Proofs.Removal.Line
import Deadwood.Proofs.Removal.Decorator
import Deadwood.Proofs.Removal.Tally
import Deadwood.Proofs.Number.Rounding
import Deadwood.Proofs.Surgery.Shrinking
import Deadwood.Proofs.Analysis.Argument
import Deadwood.Proofs.Analysis.Uncommented
import Deadwood.Proofs.Analysis.Duplicate
import Deadwood.Proofs.Analysis.Complexity
import Deadwood.Proofs.Analysis.DeadCode
import Deadwood.Proofs.Disk.Filtering
import Deadwood.Proofs.Backup.Fates
import Deadwood.Proofs.Backup.Verified
import Deadwood.Proofs.Surgery.Target
import Deadwood.Proofs.Analysis.Callee
import Deadwood.Proofs.Removal.Offer
import Deadwood.Proofs.Disk.Replacing
import Deadwood.Proofs.Syntax.Fault
import Deadwood.Proofs.Text.Icons
