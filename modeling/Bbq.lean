import Bbq.Bits.Agree
import Bbq.Bits.Document
import Bbq.Bits.Readers
import Bbq.Bits.Run
import Bbq.Burg.Automaton
import Bbq.Burg.Cheapest
import Bbq.Burg.Covered
import Bbq.Burg.Dead
import Bbq.Burg.Derive
import Bbq.Burg.Dp
import Bbq.Burg.HalfBuilt
import Bbq.Burg.Label
import Bbq.Burg.Liveness
import Bbq.Burg.Reduce
import Bbq.Burg.Refusals
import Bbq.Burg.Representers
import Bbq.Burg.Rewrite
import Bbq.Burg.Shapes
import Bbq.Burg.Spec
import Bbq.Burg.Transitions
import Bbq.Burg.Walk
import Bbq.Bytecode.Chains
import Bbq.Bytecode.Code
import Bbq.Bytecode.Emit
import Bbq.Bytecode.Finalize
import Bbq.Bytecode.Laid
import Bbq.Bytecode.Layout
import Bbq.Bytecode.Passes
import Bbq.Bytes
import Bbq.Cek.Annotations
import Bbq.Cek.Attempt
import Bbq.Cek.Choice
import Bbq.Cek.Compile
import Bbq.Cek.Confine
import Bbq.Cek.Constraints
import Bbq.Cek.Defined
import Bbq.Cek.Elements
import Bbq.Cek.Eval
import Bbq.Cek.Failure
import Bbq.Cek.Fit
import Bbq.Cek.Loop
import Bbq.Cek.Machine
import Bbq.Cek.Ordered
import Bbq.Cek.Ordinals
import Bbq.Cek.Parse
import Bbq.Cek.Refine
import Bbq.Cek.Resync
import Bbq.Cek.Scope
import Bbq.Cek.Simulate
import Bbq.Cek.Sound
import Bbq.Cek.Step
import Bbq.Cek.Terminate
import Bbq.Codebuf.Buffer
import Bbq.Codebuf.Image
import Bbq.Codebuf.Phases
import Bbq.Crt.Arena
import Bbq.Crt.Dict
import Bbq.Crt.Hmap
import Bbq.Crt.HmapCalls
import Bbq.Crt.Htree
import Bbq.Crt.Iterate
import Bbq.Crt.Leaves
import Bbq.Crt.Map
import Bbq.Crt.Shallow
import Bbq.Crt.Trees
import Bbq.Crt.Vec
import Bbq.Crt.VecCalls
import Bbq.Ddcgc.Body
import Bbq.Ddcgc.Diagnostics
import Bbq.Ddcgc.Dispatch
import Bbq.Ddcgc.Emit
import Bbq.Ddcgc.Guard
import Bbq.Ddcgc.Lists
import Bbq.Ddcgc.Match
import Bbq.Ddcgc.Once
import Bbq.Ddcgc.Pattern
import Bbq.Ddcgc.Purity
import Bbq.Ddcgc.Typed
import Bbq.Ddcgc.Widths
import Bbq.Egraph.Analysis
import Bbq.Egraph.Arith
import Bbq.Egraph.Decide
import Bbq.Egraph.Extract
import Bbq.Egraph.Find
import Bbq.Egraph.Graph
import Bbq.Egraph.Grow
import Bbq.Egraph.KnownConst
import Bbq.Egraph.Matching
import Bbq.Egraph.Meaning
import Bbq.Egraph.Optimal
import Bbq.Egraph.Prepare
import Bbq.Egraph.Rebuild
import Bbq.Egraph.Represent
import Bbq.Egraph.Restore
import Bbq.Egraph.Retain
import Bbq.Egraph.Rewriter
import Bbq.Egraph.Rules
import Bbq.Egraph.Saturate
import Bbq.Egraph.Sense
import Bbq.Egraph.Sound
import Bbq.Egraph.Store
import Bbq.Egraph.Template
import Bbq.Egraph.Walk
import Bbq.Grammar
import Bbq.Index.Agree
import Bbq.Index.Flat
import Bbq.Index.Outline
import Bbq.Index.Tree
import Bbq.Jit.Elf
import Bbq.Jit.Extract
import Bbq.Jit.Inside
import Bbq.Jit.Sound
import Bbq.Leb128.Agree
import Bbq.Leb128.Meaning
import Bbq.Leb128.Read
import Bbq.Leb128.S33
import Bbq.Leb128.Write
import Bbq.Lib.Asking
import Bbq.Lib.Backtrack
import Bbq.Lib.BitRun
import Bbq.Lib.Chunks
import Bbq.Lib.Congruence
import Bbq.Lib.Flow
import Bbq.Lib.Forest
import Bbq.Lib.Leb128
import Bbq.Lib.Logged
import Bbq.Lib.Passes
import Bbq.Lib.Pieces
import Bbq.Lib.Postorder
import Bbq.Lib.Probing
import Bbq.Lib.Relax
import Bbq.Lib.Settle
import Bbq.Lib.Splice
import Bbq.Lib.Sweep
import Bbq.Lib.Tape
import Bbq.Lib.Transducer
import Bbq.Lite.Builder
import Bbq.Lite.Rollback
import Bbq.Loop.Counted
import Bbq.Opgen.Agree
import Bbq.Opgen.Cache
import Bbq.Opgen.Flags
import Bbq.Opgen.Kernel
import Bbq.Opgen.Lower
import Bbq.Opgen.Reads
import Bbq.Opgen.Scope
import Bbq.Opgen.Simulate
import Bbq.Opgen.Spec
import Bbq.Opgen.Stencil
import Bbq.Opgen.Transitions
import Bbq.Peg.Analysis
import Bbq.Peg.CRuntime
import Bbq.Peg.Cursor
import Bbq.Peg.Emit
import Bbq.Peg.First
import Bbq.Peg.FirstSound
import Bbq.Peg.Fixpoint
import Bbq.Peg.Grammar
import Bbq.Peg.Halt
import Bbq.Peg.Lead
import Bbq.Peg.May
import Bbq.Peg.Memo
import Bbq.Peg.Sets
import Bbq.Rollback
import Bbq.Windows.Advance
import Bbq.Windows.Exact
import Bbq.Windows.Program
import Bbq.Windows.Reader
import Bbq.Windows.RoundTrip
import Bbq.Writer.Context
import Bbq.Writer.Holes
import Bbq.Writer.Layout
import Bbq.Writer.Patched
import Bbq.Writer.Prefix
import Bbq.Zcow.Bits
import Bbq.Zcow.Builder
import Bbq.Zcow.Emit
import Bbq.Zcow.Frozen
import Bbq.Zcow.Heap
import Bbq.Zcow.InPlace
import Bbq.Zcow.Leaf
import Bbq.Zcow.Measure
import Bbq.Zcow.Node
import Bbq.Zcow.Own
import Bbq.Zcow.Persist
import Bbq.Zcow.Rollback
import Bbq.Zcow.Transient
