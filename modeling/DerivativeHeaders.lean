import DerivativeHeaders.Main
import DerivativeHeaders.Files.Disk
import DerivativeHeaders.Number.Interchange
import DerivativeHeaders.Proofs.Number.Interchange
import DerivativeHeaders.Proofs.Number.Decimal
import DerivativeHeaders.Proofs.Number.Printed
import DerivativeHeaders.Proofs.Number.Numeral
import DerivativeHeaders.Proofs.Number.Written
import DerivativeHeaders.Proofs.Token.Lexes
import DerivativeHeaders.Proofs.Token.Strays
import DerivativeHeaders.Proofs.Text.Solid
import DerivativeHeaders.Proofs.Header.Field
import DerivativeHeaders.Proofs.Header.Prototype
import DerivativeHeaders.Proofs.Header.Block
import DerivativeHeaders.Proofs.ChannelMap
import DerivativeHeaders.Proofs.Ledger
import DerivativeHeaders.Proofs.Channel.Name
import DerivativeHeaders.Proofs.Channel.Decode
import DerivativeHeaders.Proofs.Signature
import DerivativeHeaders.Proofs.Header.Read
import DerivativeHeaders.Proofs.Header.Declared
import DerivativeHeaders.Proofs.Header.Invariant
import DerivativeHeaders.Proofs.Header.Faithful
import DerivativeHeaders.Proofs.Header.Slots
import DerivativeHeaders.Proofs.Header.Print
import DerivativeHeaders.Proofs.Channel.Enumeration
import DerivativeHeaders.Proofs.Header.RoundTrip
import DerivativeHeaders.Proofs.Declaration
import DerivativeHeaders.Proofs.Header.Description
import DerivativeHeaders.Proofs.Header.Meaning
import DerivativeHeaders.Proofs.Header.BlockOrder
import DerivativeHeaders.Proofs.Call.Prototype
import DerivativeHeaders.Proofs.Header.Widening
import DerivativeHeaders.Proofs.Header.Faults
import DerivativeHeaders.Proofs.Header.Strays
import DerivativeHeaders.Proofs.Header.Embedded
import DerivativeHeaders.Proofs.Files.Disk
import DerivativeHeaders.Proofs.Command.Run
import DerivativeHeaders.Proofs.Command.Emit
import DerivativeHeaders.Proofs.Header.Naming
import DerivativeHeaders.Proofs.Header.Spacing
import DerivativeHeaders.Proofs.Header.Renumber
import DerivativeHeaders.Proofs.Header.Region
import DerivativeHeaders.Proofs.Library.Store
import DerivativeHeaders.Proofs.Declaration.Grammar
import DerivativeHeaders.Proofs.Declaration.Places
import DerivativeHeaders.Proofs.Command.Check
import DerivativeHeaders.Proofs.Header.Definition
import DerivativeHeaders.Proofs.Header.Layout
import DerivativeHeaders.Proofs.Number.Stable
import DerivativeHeaders.Proofs.Header.Reading
import DerivativeHeaders.Proofs.Ledger.Calls
import DerivativeHeaders.Proofs.Header.Partition
import DerivativeHeaders.Proofs.Json.Grammar
import DerivativeHeaders.Proofs.Json.Members
import DerivativeHeaders.Proofs.Json.Scan
import DerivativeHeaders.Proofs.Json.Spacing
import DerivativeHeaders.Proofs.Variant.Text
