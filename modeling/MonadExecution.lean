import MonadExecution.Ethereum.CallTracer
import MonadExecution.Ethereum.DebitConstraints
import MonadExecution.Ethereum.ExpmodGas
import MonadExecution.Ethereum.ReserveBalance
import MonadExecution.Ethereum.Transparent
import MonadExecution.Ethereum.WitnessFaults
import MonadExecution.Event.Payloads
import MonadExecution.Monad.BlockHashes
import MonadExecution.Mpt.CompactEncode
import MonadExecution.Mpt.CopyBounds
import MonadExecution.Mpt.RecycledReads
import MonadExecution.Mpt.VarLenRoot
import MonadExecution.Mpt.VersionRuns
import MonadExecution.Staking.Compounding
import MonadExecution.Staking.Custody
import MonadExecution.Staking.Fairness
import MonadExecution.Staking.Lists
import MonadExecution.Staking.Selection
import MonadExecution.Staking.Storage
import MonadExecution.Staking.Valset
import MonadExecution.Vm.Frames
import MonadExecution.Vm.HoistedChecks
import MonadExecution.Vm.LruWeightCache
