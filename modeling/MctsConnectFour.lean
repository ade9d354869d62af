import MctsConnectFour.Lib.While
import MctsConnectFour.Lib.XorSum
import MctsConnectFour.Lib.Worklist
import MctsConnectFour.Lib.Numbering
import MctsConnectFour.Lib.Chain
import MctsConnectFour.Lib.Memory
import MctsConnectFour.Lib.Codec
import MctsConnectFour.Lib.Dispatch
import MctsConnectFour.Lib.RowMajor
import MctsConnectFour.Lib.Ownership
import MctsConnectFour.Globals
import MctsConnectFour.Player
import MctsConnectFour.Moves
import MctsConnectFour.MultiArray
import MctsConnectFour.Addressing
import MctsConnectFour.ConnectFour.Basic
import MctsConnectFour.ConnectFour.Board
import MctsConnectFour.ConnectFour.Columns
import MctsConnectFour.ConnectFour.Hash
import MctsConnectFour.ConnectFour.Lines
import MctsConnectFour.ConnectFour.Verdict
import MctsConnectFour.TicTacToe
import MctsConnectFour.TicTacToe.Verdict
import MctsConnectFour.Oska.Basic
import MctsConnectFour.Oska.Geometry
import MctsConnectFour.Oska.Setup
import MctsConnectFour.Oska.Board
import MctsConnectFour.Oska.Coherence
import MctsConnectFour.Oska.Stones
import MctsConnectFour.Oska.HumanMove
import MctsConnectFour.Oska.Tables
import MctsConnectFour.Oska.Verdict
import MctsConnectFour.Oska.Swap
import MctsConnectFour.Oska.Tie
import MctsConnectFour.Oska.Hash
import MctsConnectFour.Laws
import MctsConnectFour.Oska.Restart
import MctsConnectFour.ConnectFour.Restart
import MctsConnectFour.ConnectFour.Laws
import MctsConnectFour.ConnectFour.Playout
import MctsConnectFour.Oska.Winner
import MctsConnectFour.Oska.Laws
import MctsConnectFour.Oska.Playout
import MctsConnectFour.Oska.RandomMove
import MctsConnectFour.SearchTree
import MctsConnectFour.Mcts.Table
import MctsConnectFour.Mcts.Basic
import MctsConnectFour.Mcts.Tree
import MctsConnectFour.Mcts.Expansion
import MctsConnectFour.Mcts.NodeData
import MctsConnectFour.Mcts.Prune
import MctsConnectFour.Games
import MctsConnectFour.Serialize
import MctsConnectFour.Mcts.Selection
import MctsConnectFour.Mcts.Iteration
import MctsConnectFour.Mcts.Protocol
import MctsConnectFour.Mcts.Results
import MctsConnectFour.Mcts.Descent
import MctsConnectFour.Mcts.Sound
import MctsConnectFour.Mcts.Scores
import MctsConnectFour.Mcts.Rerooted
import MctsConnectFour.Mcts.Transpositions
import MctsConnectFour.Mcts.Visits
import MctsConnectFour.Mcts.BestMove
import MctsConnectFour.Mcts.Archive
import MctsConnectFour.Mcts.Merge
import MctsConnectFour.Mcts.Merged
import MctsConnectFour.Digraph.Basic
import MctsConnectFour.Digraph.Wired
import MctsConnectFour.Digraph.Represents
import MctsConnectFour.Digraph.Queueing
import MctsConnectFour.Digraph.Locking
import MctsConnectFour.Digraph.Interleaved
import MctsConnectFour.Digraph.Progress
import MctsConnectFour.Digraph.Growing
import MctsConnectFour.Digraph.Iterators
import MctsConnectFour.Digraph.Walked
import MctsConnectFour.Digraph.Payload
import MctsConnectFour.Digraph.Slice
import MctsConnectFour.Digraph.Sliced
import MctsConnectFour.Pool.Basic
import MctsConnectFour.Pool.Blocks
import MctsConnectFour.Pool.Safe
import MctsConnectFour.Pool.Capacity
import MctsConnectFour.Pool.Destructor
import MctsConnectFour.Pool.Transfer
import MctsConnectFour.Uct.Basic
import MctsConnectFour.Uct.Laws
import MctsConnectFour.Uct.Expansion
import MctsConnectFour.Uct.Search
import MctsConnectFour.Uct.Backpropagation
import MctsConnectFour.Uct.Iterations
import MctsConnectFour.Uct.Results
import MctsConnectFour.Uct.PlayGame
import MctsConnectFour.Lib.NormalPlay
import MctsConnectFour.Lib.Tally
import MctsConnectFour.Uct.Nim
import MctsConnectFour.Uct.Oxo
import MctsConnectFour.Uct.Othello.Basic
import MctsConnectFour.Uct.Othello.Sandwich
import MctsConnectFour.Uct.Othello.Moves
import MctsConnectFour.Lib.Settles
import MctsConnectFour.Mcts.Match
import MctsConnectFour.Lib.Words
import MctsConnectFour.SplitMix.Basic
import MctsConnectFour.SplitMix.Mixing
import MctsConnectFour.SplitMix.Generator
import MctsConnectFour.OwningPtr
