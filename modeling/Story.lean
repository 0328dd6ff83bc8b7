import Story.Effect.Basic
import Story.Effect.Branch
import Story.Effect.Moves
import Story.Effect.Agree
import Story.Effect.Trace
import Story.Errors
import Story.Netconf
import Story.Eth
import Story.Sdk
import Story.Sdk.Ledger
import Story.Sdk.Quiet
import Story.Sdk.LedgerLaws
import Story.Collections.Queue
import Story.EvmStaking.Store
import Story.EvmStaking.WithdrawalQueue
import Story.EvmStaking.Events
import Story.EvmEngine.Types
import Story.EvmStaking.Handlers
import Story.EvmStaking.Atomic
import Story.EvmStaking.Withdraw
import Story.EvmStaking.Genesis
import Story.EvmEngine.Upgrades
import Story.EvmEngine.Isolation
import Story.EvmStaking.Addresses
import Story.EvmStaking.Calls
import Story.EvmStaking.Run
import Story.EvmStaking.Authorisation
import Story.EvmStaking.PayoutAddresses
import Story.EvmStaking.PayoutReady
import Story.App.PreBlocker
import Story.App.UpgradeSafety
import Story.EvmEngine.Node
import Story.EvmEngine.Server
import Story.EvmEngine.Payout
import Story.EvmEngine.Delivery
import Story.EvmEngine.Agreement
import Story.EvmEngine.Progress
import Story.EvmEngine.HeadChain
import Story.EvmEngine.Determinism
import Story.EvmEngine.Withdrawals
import Story.EvmEngine.Abci
import Story.EvmEngine.Proposal
import Story.Evm.Call
import Story.Collections.Total
import Story.Contracts.Secp256k1Verifier
import Story.Contracts.UBIPool
import Story.Contracts.UBIPoolBooks
import Story.Contracts.IPTokenStaking
import Story.Contracts.IPTokenStakingBooks
import Story.App.PendingPlan
import Story.Collections.Walk
import Story.EvmStaking.Sweep
import Story.EvmStaking.SweepFairness
import Story.EvmStaking.Payments
import Story.EvmStaking.RewardMinimum
import Story.EvmStaking.Conservation
import Story.EvmStaking.Separation
import Story.Collections.QueueCalls
import Story.EvmStaking.Queries
import Story.EvmStaking.Registration
import Story.EvmEngine.PayloadEncoding
import Story.Effect.Ignore
import Story.EvmStaking.Unnoticed
import Story.EvmEngine.OnePass
import Story.Evm.Frames
import Story.Contracts.WIP
import Story.Contracts.WIPBooks
import Story.Numbers.Modular
import Story.Contracts.KeyAgreement
import Story.Numbers.Decimal
import Story.Mint.Keeper
import Story.Mint.Budget
import Story.App.ProcessProposal
import Story.Contracts.DelegationIds
import Story.App.Singularity
import Story.Collections.Segments
import Story.Server.QueryMap
import Story.Server.QueryPaths
import Story.App.Block
import Story.EvmEngine.EventDelivery
import Story.EvmEngine.Latency
import Story.Proto.Wire
import Story.Proto.Schema
import Story.Proto.Writer
import Story.EvmEngine.TxCodec
import Story.Effect.Simulate
import Story.EvmStaking.StoreCodec
import Story.EvmStaking.StoreLayout
import Story.App.Migrations
import Story.App.Forks
import Story.Effect.Total
import Story.EvmStaking.EndBlockReturns
import Story.Contracts.EmittedEvents
import Story.App.Bridge
