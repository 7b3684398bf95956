import Tepleton.Auth.Fees
import Tepleton.Auth.Replay
import Tepleton.Bank.Keeper
import Tepleton.Baseapp.Gas
import Tepleton.Baseapp.Restart
import Tepleton.Crypto.Words
import Tepleton.Crypto.Keybase
import Tepleton.Crypto.Merkle
import Tepleton.Gov.Balances
import Tepleton.Gov.Deposits
import Tepleton.Gov.Reference
import Tepleton.Ibc.Relay
import Tepleton.Slashing.Downtime
import Tepleton.Slashing.Window
import Tepleton.Stake.Effects.Redelegate
import Tepleton.Stake.Effects.SlashUnbonding
import Tepleton.Stake.Invariants.Delegations
import Tepleton.Stake.Invariants.Inflation
import Tepleton.Stake.Invariants.PowerIndex
import Tepleton.Stake.Invariants.Provisions
import Tepleton.Stake.Invariants.PubKeys
import Tepleton.Stake.Invariants.References
import Tepleton.Stake.Invariants.Shares
import Tepleton.Stake.Invariants.Status
import Tepleton.Stake.Invariants.Unbonding
import Tepleton.Stake.Invariants.Updates
import Tepleton.Stake.Keeper.Rank
import Tepleton.Stake.Keeper.Raw
import Tepleton.Stake.SharePool
import Tepleton.Stake.Types.SignBytes
import Tepleton.Store.Durable
import Tepleton.Store.PrefixSlices
import Tepleton.Store.Pruning
import Tepleton.Store.ReversedRange
import Tepleton.Types.CoinGroup
import Tepleton.Types.CoinText
import Tepleton.Types.Codespacer
import Tepleton.Types.IntValues
import Tepleton.Types.RatFromDecimal
import Tepleton.Types.Linear
import Tepleton.Types.Rounding
import Tepleton.Stake.Effects.LateSlash
import Tepleton.Stake.Effects.Maturity
