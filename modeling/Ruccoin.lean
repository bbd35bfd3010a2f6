import Ruccoin.Foundation.HexText
import Ruccoin.Foundation.Decimal
import Ruccoin.Foundation.Binary64
import Ruccoin.Foundation.Outcome
import Ruccoin.Foundation.Ledger
import Ruccoin.Foundation.Transition
import Ruccoin.Foundation.Threads
import Ruccoin.Foundation.Result
import Ruccoin.Foundation.LastWrite
import Ruccoin.Foundation.Progress
import Ruccoin.Foundation.Serializable
import Ruccoin.Foundation.Paths
import Ruccoin.Foundation.Lines
import Ruccoin.Foundation.FirstWrite
import Ruccoin.Foundation.ReplicatedLog
import Ruccoin.Foundation.Unwinding
import Ruccoin.Foundation.Intake
import Ruccoin.Config
import Ruccoin.Crypto
import Ruccoin.Pbft.Message
import Ruccoin.Pbft.Proposal
import Ruccoin.Pbft.Handler
import Ruccoin.Pbft.Calls
import Ruccoin.Pbft.Votes
import Ruccoin.Pbft.World
import Ruccoin.Pbft.History
import Ruccoin.Pbft.FaultFree
import Ruccoin.Pbft.Ballots
import Ruccoin.Pbft.Validity
import Ruccoin.Pbft.TotalOrder
import Ruccoin.Pbft.SingleProposer
import Ruccoin.Pbft.Agreement
import Ruccoin.Pbft.Replica
import Ruccoin.Pbft.Interference
import Ruccoin.Pbft.Arrivals
import Ruccoin.Pbft.Completeness
import Ruccoin.Pbft.Traffic
import Ruccoin.Pbft.Liveness
import Ruccoin.Pbft.Round
import Ruccoin.Pbft.Approval
import Ruccoin.Pbft.Threads
import Ruccoin.Pbft.AtMostOnce
import Ruccoin.Pbft.Authenticity
import Ruccoin.Pbft.Binding
import Ruccoin.Pbft.Phases
import Ruccoin.Pbft.Progress
import Ruccoin.Pbft.Requests
import Ruccoin.Pbft.Restart
import Ruccoin.Pbft.Sequential
import Ruccoin.Pbft.Voters
import Ruccoin.Pbft.Workers
import Ruccoin.Coin.Structure
import Ruccoin.Coin.Balances
import Ruccoin.Coin.Json
import Ruccoin.Coin.Node
import Ruccoin.Coin.Postings
import Ruccoin.Coin.Bookkeeping
import Ruccoin.Coin.Check
import Ruccoin.Coin.Packing
import Ruccoin.Coin.Proposing
import Ruccoin.Coin.Concurrency
import Ruccoin.Coin.Decoding
import Ruccoin.Coin.Run
import Ruccoin.Coin.Execution
import Ruccoin.Coin.Restart
import Ruccoin.Coin.Genesis
import Ruccoin.Coin.HashChain
import Ruccoin.Coin.Serial
import Ruccoin.Coin.LostUpdates
import Ruccoin.Coin.Pool
import Ruccoin.Coin.Receiving
import Ruccoin.Coin.Reconstruction
import Ruccoin.Coin.Replay
import Ruccoin.Coin.Session
import Ruccoin.Coin.Signing
import Ruccoin.Coin.Submission
import Ruccoin.Deployment.System
import Ruccoin.Deployment.Freshness
import Ruccoin.Deployment.Refinement
import Ruccoin.Deployment.Round
import Ruccoin.Deployment.Loop
import Ruccoin.Deployment.Settlement
import Ruccoin.Deployment.Transport
