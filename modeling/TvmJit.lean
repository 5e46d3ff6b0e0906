import TvmJit.Foundation.Outcome
import TvmJit.Foundation.Moves
import TvmJit.Foundation.Agree
import TvmJit.Foundation.Links
import TvmJit.Foundation.Scatter
import TvmJit.Foundation.Sweep
import TvmJit.Foundation.Ends
import TvmJit.Foundation.Digits
import TvmJit.Foundation.Leb128
import TvmJit.Foundation.Raises
import TvmJit.Foundation.Pick
import TvmJit.Foundation.Bisect
import TvmJit.Token
import TvmJit.Parse.State
import TvmJit.Parse.Jump
import TvmJit.Parse.Emit
import TvmJit.Parse.Operators
import TvmJit.Parse.Scope
import TvmJit.Parse.Function
import TvmJit.Parse.Expression
import TvmJit.Parse.Statement
import TvmJit.Parse.Steps
import TvmJit.Descriptors
import TvmJit.Literals
import TvmJit.Machine
import TvmJit.JumpLists
import TvmJit.Flow
import TvmJit.Fmt.Format
import TvmJit.Fmt.Integer
import TvmJit.Fmt.Printf
import TvmJit.Fmt.Layout
import TvmJit.Fmt.Plain
import TvmJit.Simulation.Ground
import TvmJit.Simulation.Registers
import TvmJit.Simulation.Values
import TvmJit.Simulation.Lists
import TvmJit.Simulation.Stores
import TvmJit.Simulation.Targets
import TvmJit.Utf8
import TvmJit.Offset
import TvmJit.Dump.Uleb128
import TvmJit.Lex.Scanner
import TvmJit.Lex.Ending
import TvmJit.Lex.Quote
import TvmJit.Lex.Unicode
import TvmJit.Lex.Reader
import TvmJit.Lex.Agreement
import TvmJit.Lex.Numerals
import TvmJit.Lex.Tokens
import TvmJit.Op.Tree
import TvmJit.Op.Reads
import TvmJit.Op.Layout
import TvmJit.Op.Parsed
import TvmJit.Op.ReadBack
import TvmJit.Op.Program
import TvmJit.Debug.Record
import TvmJit.Debug.Lines
import TvmJit.Debug.Names
import TvmJit.Nesting
import TvmJit.Tab.Table
import TvmJit.Tab.Insert
import TvmJit.Tab.Newkey
import TvmJit.Tab.Resize
import TvmJit.Tab.Count
import TvmJit.Tab.Room
import TvmJit.Tab.Map
import TvmJit.Tab.Limit
import TvmJit.Tab.Next
import TvmJit.Tab.Traversal
import TvmJit.Tab.Rehash
import TvmJit.Tab.Lacking
import TvmJit.Tab.Failing
import TvmJit.Tab.Failed
import TvmJit.Tab.Unchanged
import TvmJit.Tab.Length
import TvmJit.Lua.Translator
import TvmJit.Lua.Tree
import TvmJit.Lua.Grammar
import TvmJit.Lua.Expression
import TvmJit.Lua.Translation
import TvmJit.Lua.Precedence
import TvmJit.Lua.Statement
import TvmJit.Lua.Counts
import TvmJit.Parse.Open
import TvmJit.Lua.Compiled
import TvmJit.Lua.Lexer
import TvmJit.Lua.Breaks
import TvmJit.Lua.Quoted
import TvmJit.Lua.Numeral
import TvmJit.Lua.Escapes
import TvmJit.Lua.Brackets
import TvmJit.Lua.Strings
import TvmJit.Lua.Gaps
import TvmJit.Lua.Sources
import TvmJit.Foundation.Walk
import TvmJit.Ir.Instructions
import TvmJit.Ir.Buffer
import TvmJit.Ir.Chains
import TvmJit.Ir.Constants
import TvmJit.Ir.Stores
import TvmJit.Ir.Dce
import TvmJit.Ir.Runs
import TvmJit.Ir.Fold
import TvmJit.Ir.Rules
import TvmJit.Ir.MinMax
import TvmJit.Foundation.Ring
import TvmJit.Func.Upvalues
import TvmJit.Func.Colours
import TvmJit.Func.Open
import TvmJit.Func.Close
import TvmJit.Func.Find
import TvmJit.Func.Captures
import TvmJit.Func.Collect
import TvmJit.Func.Runs
import TvmJit.Foundation.Buckets
import TvmJit.Str.Strings
import TvmJit.Str.Compare
import TvmJit.Str.Order
import TvmJit.Str.Intern
import TvmJit.Str.Resize
import TvmJit.Str.New
import TvmJit.Str.Sweep
import TvmJit.Str.Runs
import TvmJit.Foundation.Padding
import TvmJit.Ffi.Ctype
import TvmJit.Ffi.Layout
import TvmJit.Ffi.Placement
import TvmJit.Ffi.Place
import TvmJit.Ffi.Fields
import TvmJit.Ffi.Laid
import TvmJit.Ffi.Struct
import TvmJit.Foundation.Fuel
import TvmJit.Ffi.Expr
import TvmJit.Ffi.Constants
import TvmJit.Ffi.Climb
import TvmJit.Ffi.Evaluated
import TvmJit.Foundation.Rounding
import TvmJit.Foundation.Binary
import TvmJit.Foundation.Bytes
import TvmJit.Ffi.Convert
import TvmJit.Ffi.Recorded
import TvmJit.Ffi.Conversions
import TvmJit.Ffi.Rounded
import TvmJit.Scan.Formats
import TvmJit.Scan.Bases
import TvmJit.Scan.Scan
import TvmJit.Scan.Doubles
import TvmJit.Scan.Slow
import TvmJit.Scan.Integers
import TvmJit.Scan.Based
import TvmJit.Scan.Decimal
import TvmJit.Scan.Literal
import TvmJit.Ir.Execution
import TvmJit.Foundation.Postfix
import TvmJit.Ir.Narrow
import TvmJit.Ir.NarrowCode
import TvmJit.Ir.NarrowEmit
import TvmJit.Foundation.Peg
import TvmJit.Json.Unescape
import TvmJit.Ir.Previous
import TvmJit.Foundation.Placed
import TvmJit.Snap.Snapshot
import TvmJit.Snap.Merge
import TvmJit.Snap.Maps
import TvmJit.Snap.Recording
import TvmJit.Snap.Unrolling
import TvmJit.Snap.Runs
import TvmJit.Foundation.Ieee
import TvmJit.Foundation.Power
import TvmJit.Ir.Arithmetic
import TvmJit.Ir.Integers
import TvmJit.Ir.Operators
import TvmJit.Ffi.Powers
import TvmJit.Foundation.Escapes
import TvmJit.Nqp.Unescape
import TvmJit.Json.Pieces
import TvmJit.Ffi.Pointers
import TvmJit.Foundation.Memory
import TvmJit.Ffi.Bitfields
import TvmJit.Ffi.Access
import TvmJit.Foundation.Copies
import TvmJit.Tab.Library
import TvmJit.Foundation.Rearranged
import TvmJit.Tab.Sort
import TvmJit.Meta.Concat
import TvmJit.Foundation.Codec
import TvmJit.Dump.Tables
import TvmJit.Dump.Prototypes
import TvmJit.Stack.Resize
import TvmJit.Stack.Runs
import TvmJit.Nqp.Array
import TvmJit.Nqp.Sequences
