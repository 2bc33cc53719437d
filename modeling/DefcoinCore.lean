import DefcoinCore.NetProcessing.Runs
import DefcoinCore.AddrMan.Reload
import DefcoinCore.AddrMan.Relay
import DefcoinCore.Net.Delivery
import DefcoinCore.Coins.Stack
import DefcoinCore.Validation.Disconnect
import DefcoinCore.Validation.Rewind
import DefcoinCore.Validation.Supply
import DefcoinCore.Mweb.Flush
import DefcoinCore.Mweb.Uncommitted
import DefcoinCore.Mweb.Pmmr
import DefcoinCore.Chain.SkipList
import DefcoinCore.Chain.Pow
import DefcoinCore.BlockEncodings.Slots
import DefcoinCore.Mempool.Reconfirmed
import DefcoinCore.KeyIo.DecodeDestination
import DefcoinCore.Scheduler.SingleThreadedClient
import DefcoinCore.Serialize.Integers
import DefcoinCore.Wallet.Conflicts
import DefcoinCore.NetProcessing.OrphanWork
