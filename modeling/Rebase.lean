import Rebase.BaseRelocation.Decode
import Rebase.Main
import Rebase.Proofs.BaseRelocation.Building
import Rebase.Proofs.BaseRelocation.Canonical
import Rebase.Proofs.BaseRelocation.Grammar
import Rebase.Proofs.Checked.Destination
import Rebase.Proofs.Checked.Discovery
import Rebase.Proofs.Checked.Run
import Rebase.Proofs.Checked.Table
import Rebase.Proofs.Checked.Writes
import Rebase.Proofs.CommandLine
import Rebase.Proofs.Discovery.Coverage
import Rebase.Proofs.Discovery.Order
import Rebase.Proofs.Discovery.Pointers
import Rebase.Proofs.Discovery.Records
import Rebase.Proofs.Elf.Appending
import Rebase.Proofs.Elf.Format
import Rebase.Proofs.Elf.Reordering
import Rebase.Proofs.Pe.Contents
import Rebase.Proofs.Pe.Format
import Rebase.Proofs.Pe.Memory
import Rebase.Proofs.Pe.Overwriting
import Rebase.Proofs.Pe.Refusals
import Rebase.Proofs.Run.Appending
import Rebase.Proofs.Run.Headers
import Rebase.Proofs.Run.History
import Rebase.Proofs.Run.Journal
import Rebase.Proofs.Run.Options
import Rebase.Proofs.Run.Reordering
