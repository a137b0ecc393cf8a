import MinCorehdr.Btf
import MinCorehdr.BtfIndex
import MinCorehdr.Cli
import MinCorehdr.Closure
import MinCorehdr.ClosureRun
import MinCorehdr.Completeness
import MinCorehdr.Correctness
import MinCorehdr.Demand
import MinCorehdr.Emitter.Arrays
import MinCorehdr.Emitter.Declarator
import MinCorehdr.Emitter.Declared
import MinCorehdr.Emitter.Enums
import MinCorehdr.Emitter.Expanded
import MinCorehdr.Emitter.Forever
import MinCorehdr.Emitter.Forwards
import MinCorehdr.Emitter.Graph
import MinCorehdr.Emitter.Halt
import MinCorehdr.Emitter.Header
import MinCorehdr.Emitter.HeaderText
import MinCorehdr.Emitter.Layout
import MinCorehdr.Emitter.Meaning
import MinCorehdr.Emitter.Mentions
import MinCorehdr.Emitter.Names
import MinCorehdr.Emitter.NaturalLayout
import MinCorehdr.Emitter.Order
import MinCorehdr.Emitter.Output
import MinCorehdr.Emitter.Parameters
import MinCorehdr.Emitter.Qualifiers
import MinCorehdr.Emitter.Reach
import MinCorehdr.Emitter.ReadBack
import MinCorehdr.Emitter.Reading
import MinCorehdr.Emitter.RecordLayout
import MinCorehdr.Emitter.RecordText
import MinCorehdr.Emitter.Search
import MinCorehdr.Emitter.Structure
import MinCorehdr.Emitter.Success
import MinCorehdr.Emitter.TypeTree
import MinCorehdr.Emitter.Unique
import MinCorehdr.Emitter.Walk
import MinCorehdr.Error
import MinCorehdr.Expansion
import MinCorehdr.Generate
import MinCorehdr.IndexLookup
import MinCorehdr.Iteration
import MinCorehdr.LeastClosure
import MinCorehdr.Main
import MinCorehdr.Monotone
import MinCorehdr.ObjectDemand
import MinCorehdr.Provenance
import MinCorehdr.Requirements
import MinCorehdr.Seeds.Access
import MinCorehdr.Seeds.AccessPath
import MinCorehdr.Seeds.Bounds
import MinCorehdr.Seeds.BtfExt
import MinCorehdr.Seeds.Candidates
import MinCorehdr.Seeds.Document
import MinCorehdr.Seeds.Effect
import MinCorehdr.Seeds.Encoding
import MinCorehdr.Seeds.Enumerators
import MinCorehdr.Seeds.Join
import MinCorehdr.Seeds.Lockstep
import MinCorehdr.Seeds.MemberLookup
import MinCorehdr.Seeds.Objects
import MinCorehdr.Seeds.Resolve
import MinCorehdr.Seeds.Resolves
import MinCorehdr.Seeds.Tiling
import MinCorehdr.Seeds.Tokens
import MinCorehdr.Statistics
import MinCorehdr.Store
import MinCorehdr.StoreRuns
import MinCorehdr.Support.Bitset
import MinCorehdr.Support.CConstant
import MinCorehdr.Support.CDeclaration
import MinCorehdr.Support.CDeclarator
import MinCorehdr.Support.CLayout
import MinCorehdr.Support.CLegal
import MinCorehdr.Support.CRecord
import MinCorehdr.Support.CToken
import MinCorehdr.Support.CTypedef
import MinCorehdr.Support.CUnit
import MinCorehdr.Support.Chain
import MinCorehdr.Support.DepthFirst
import MinCorehdr.Support.FirstAsked
import MinCorehdr.Support.Fuel
import MinCorehdr.Support.GrowBuffer
import MinCorehdr.Support.Packed
import MinCorehdr.Support.Reorder
import MinCorehdr.Support.Result
import MinCorehdr.Support.Sequence
import MinCorehdr.Support.Stdio
import MinCorehdr.Support.Sweep
import MinCorehdr.Support.Worklist
import MinCorehdr.TypeSet
import MinCorehdr.TypeSetMemory
import MinCorehdr.Union
import MinCorehdr.Witness
