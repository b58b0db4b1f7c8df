import NachosFilehdr.Invariant
import NachosFilehdr.Ledger
import NachosFilehdr.Offsets
import NachosFilehdr.Print
import NachosFilehdr.Release
import NachosFilehdr.Volume
