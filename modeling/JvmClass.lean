import JvmClass.AccessFlags
import JvmClass.Annotation.Basic
import JvmClass.Annotation.Decode
import JvmClass.Annotation.Encode
import JvmClass.Assembly.Body
import JvmClass.Assembly.ClassBuilder
import JvmClass.Assembly.Instructions
import JvmClass.Assembly.Member
import JvmClass.Assembly.MethodBuilder
import JvmClass.Attribute
import JvmClass.Bytes
import JvmClass.ClassName
import JvmClass.Code.Instruction
import JvmClass.Code.Opcode
import JvmClass.ChainTable
import JvmClass.CommandLine
import JvmClass.Constant.Basic
import JvmClass.Constant.Decode
import JvmClass.Constant.Loadable
import JvmClass.Constant.Pool
import JvmClass.Cursor
import JvmClass.Decimal
import JvmClass.Descriptor.Basic
import JvmClass.Descriptor.Parse
import JvmClass.Descriptor.Render
import JvmClass.Error
import JvmClass.Event
import JvmClass.Flow.Exploration
import JvmClass.Flow.Handlers
import JvmClass.Flow.Inputs
import JvmClass.Flow.LabelGraph
import JvmClass.Flow.SourceTables
import JvmClass.Image.Basic
import JvmClass.Image.Body
import JvmClass.Image.Events
import JvmClass.Label
import JvmClass.Main
import JvmClass.Options
import JvmClass.Search
import JvmClass.SlotVec
import JvmClass.StackMap.Decode
import JvmClass.StackMap.Entry
import JvmClass.Text.ModifiedUtf8
import JvmClass.Text.Printable
import JvmClass.Text.Quoted
import JvmClass.Total
import JvmClass.Typing.Effect
import JvmClass.Typing.Frame
import JvmClass.Typing.Hierarchy
import JvmClass.Typing.Join
import JvmClass.Typing.Merge
import JvmClass.Typing.Simulation
import JvmClass.Typing.Type
import JvmClass.Version
import JvmClass.Proofs.Typing.AncestorChains
import JvmClass.Proofs.Typing.Ancestors
import JvmClass.Proofs.Typing.Joins
import JvmClass.Proofs.Typing.Assignability
import JvmClass.Proofs.Typing.CaughtJoins
import JvmClass.Proofs.ChainTable
import JvmClass.Proofs.SlotVec
import JvmClass.Proofs.SlotHistory
import JvmClass.Proofs.Typing.Execution
import JvmClass.Proofs.Typing.Merging
import JvmClass.Proofs.Flow.Rounds
import JvmClass.Proofs.Flow.FixedPoint
import JvmClass.Proofs.Typing.Heights
import JvmClass.Proofs.Flow.Termination
import JvmClass.Proofs.Flow.Layout
import JvmClass.Proofs.Flow.Coverage
import JvmClass.Proofs.Assembly.Recording
import JvmClass.Proofs.Assembly.Blocks
import JvmClass.Proofs.Assembly.HandlerFrames
import JvmClass.Proofs.Cursor
import JvmClass.Proofs.Text.ModifiedUtf8
import JvmClass.Proofs.Constant.Encoding
import JvmClass.Proofs.Constant.Growth
import JvmClass.Proofs.Image.Parsing
import JvmClass.Proofs.Constant.Copies
import JvmClass.Proofs.Constant.Interning
import JvmClass.Proofs.Constant.Section
import JvmClass.Proofs.Constant.Originals
import JvmClass.Proofs.Constant.Denotations
import JvmClass.Proofs.Annotation
import JvmClass.Proofs.Constant.Answers
import JvmClass.Proofs.Attribute.Encoding
import JvmClass.Proofs.Attribute.Spans
import JvmClass.Proofs.Attribute.Making
import JvmClass.Proofs.Attribute.StackMap
import JvmClass.Proofs.Code.Reading
import JvmClass.Proofs.Code.Sequence
import JvmClass.Proofs.Assembly.Writing
import JvmClass.Proofs.Flow.HandlerTable
import JvmClass.Proofs.Assembly.Finishing
import JvmClass.Proofs.Assembly.Decoding
import JvmClass.Proofs.Flow.Reach
import JvmClass.Proofs.Flow.Marks
import JvmClass.Proofs.Flow.DeadBlocks
import JvmClass.Proofs.Assembly.Marking
import JvmClass.Proofs.Assembly.DeadCode
import JvmClass.Proofs.Assembly.Framing
import JvmClass.Proofs.Assembly.Replacing
import JvmClass.Proofs.Assembly.FrameDemands
import JvmClass.Proofs.Assembly.Decodable
import JvmClass.Proofs.Image.Confined
import JvmClass.Proofs.Image.Bodies
import JvmClass.Proofs.Image.Telling
import JvmClass.Proofs.Image.Gathering
import JvmClass.Proofs.Image.Interpreted
import JvmClass.Proofs.Image.Places
import JvmClass.Proofs.Assembly.ClassFile
import JvmClass.Proofs.Assembly.ReadBack
import JvmClass.Proofs.Assembly.Keeping
import JvmClass.Proofs.Assembly.Members
import JvmClass.Proofs.Assembly.Content
import JvmClass.Proofs.Assembly.RoundTrip
import JvmClass.Proofs.Assembly.Sizes
import JvmClass.Proofs.Code.Tiling
import JvmClass.Proofs.Image.Labels
import JvmClass.Proofs.Image.Visits
import JvmClass.Proofs.Flow.Edges
import JvmClass.Proofs.Assembly.Charts
import JvmClass.Proofs.Typing.Allocations
import JvmClass.Proofs.Flow.Allocations
import JvmClass.Proofs.Assembly.Allocations
import JvmClass.Proofs.Typing.Operands
import JvmClass.Proofs.Flow.Limits
import JvmClass.Proofs.Assembly.Limits
import JvmClass.Proofs.Assembly.Arrivals
import JvmClass.Proofs.Attribute.Annotations
import JvmClass.Proofs.Image.ByPlace
import JvmClass.Proofs.Image.Twins
import JvmClass.Proofs.Image.Filtering
import JvmClass.Proofs.Assembly.Lockstep
import JvmClass.Proofs.Assembly.MaxStack
import JvmClass.Proofs.Typing.CommonSuper
import JvmClass.Proofs.Typing.Semilattice
import JvmClass.Proofs.Typing.WellFormed
import JvmClass.Proofs.Typing.Pointwise
import JvmClass.Proofs.Typing.Deltas
import JvmClass.Proofs.Typing.Shuffles
import JvmClass.Proofs.Flow.Removals
import JvmClass.Proofs.Flow.Calls
import JvmClass.Proofs.Flow.ExceptionEdges
import JvmClass.Proofs.Flow.Accounting
import JvmClass.Proofs.Assembly.Reachability
import JvmClass.Proofs.Attribute.ShortestEntries
import JvmClass.Proofs.Descriptor
import JvmClass.Proofs.Upholding
import JvmClass.Proofs.Assembly.Changes
import JvmClass.Proofs.Assembly.Sequencing
import JvmClass.Proofs.Assembly.Handover
import JvmClass.Proofs.Assembly.Settling
import JvmClass.Proofs.Assembly.Storing
import JvmClass.Proofs.Assembly.FrameOffsets
import JvmClass.Proofs.Assembly.BranchDistances
import JvmClass.Proofs.SlotLookup
import JvmClass.Proofs.Assembly.WritingAgain
import JvmClass.Proofs.Assembly.CallCounts
import JvmClass.Proofs.Image.StackMapOffsets
import JvmClass.Proofs.Reencoding.Following
import JvmClass.Proofs.Reencoding.Retelling
import JvmClass.Proofs.Reencoding.Rows
import JvmClass.Proofs.Reencoding.Opcodes
import JvmClass.Proofs.Reencoding.Written
import JvmClass.Proofs.Reencoding.Laying
import JvmClass.Proofs.Reencoding.Completing
import JvmClass.Proofs.Reencoding.Rereading
import JvmClass.Proofs.Reencoding.Calling
import JvmClass.Proofs.Reencoding.Matching
import JvmClass.Proofs.Reencoding.Course
import JvmClass.Proofs.Reencoding.Repeating
import JvmClass.Proofs.Reencoding.SecondCourse
import JvmClass.Proofs.Reencoding.BodyAgain
import JvmClass.Proofs.Reencoding.Contents
import JvmClass.Proofs.Reencoding.MembersAgain
import JvmClass.Proofs.Reencoding.Mimicking
import JvmClass.Proofs.Reencoding.ClassAgain
import JvmClass.Proofs.Reencoding.Rewriting
