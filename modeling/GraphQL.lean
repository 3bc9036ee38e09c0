import GraphQL.Coercion.Arguments
import GraphQL.Coercion.Input
import GraphQL.Coercion.Invalid
import GraphQL.Coercion.Output
import GraphQL.Coercion.Variables
import GraphQL.Configuration.Basic
import GraphQL.Context
import GraphQL.ContextStore
import GraphQL.Decimal.Binary64
import GraphQL.Decimal.Layout
import GraphQL.Decimal.Shortest
import GraphQL.Directives
import GraphQL.Directives.Stock
import GraphQL.Document.Definition
import GraphQL.Document.Document
import GraphQL.Document.Selection
import GraphQL.Entries
import GraphQL.Execution.Collect
import GraphQL.Execution.Complete
import GraphQL.Execution.Errors
import GraphQL.Execution.Rota
import GraphQL.Execution.Schedule
import GraphQL.Execution.State
import GraphQL.Execution.Strategy
import GraphQL.Execution.Task
import GraphQL.ExecutionError
import GraphQL.Executor
import GraphQL.Json.Codec
import GraphQL.Json.Reader
import GraphQL.Json.Record
import GraphQL.Json.Token
import GraphQL.Json.Value
import GraphQL.Json.Writer
import GraphQL.Literal
import GraphQL.Path
import GraphQL.QueryCache
import GraphQL.Request
import GraphQL.Resolver
import GraphQL.Resolver.Stock
import GraphQL.Response.Error
import GraphQL.Response.Response
import GraphQL.Schema.Basic
import GraphQL.Schema.Build
import GraphQL.Schema.Declaration
import GraphQL.SpecError
import GraphQL.Syntax.Document
import GraphQL.Syntax.Grammar.Operation
import GraphQL.Syntax.Grammar.Schema
import GraphQL.Syntax.Grammar.Value
import GraphQL.Syntax.Lexer
import GraphQL.Syntax.Parser
import GraphQL.Syntax.StringValue
import GraphQL.Syntax.Token
import GraphQL.Syntax.Value
import GraphQL.Text.Hidden
import GraphQL.Text.Location
import GraphQL.Text.Quoted
import GraphQL.Text.UpperCase
import GraphQL.TypeRef
import GraphQL.TypeRef.Json
import GraphQL.Validator
import GraphQL.Yaml.Cursor
import GraphQL.Yaml.Scalar
import GraphQL.Yaml.Token
import GraphQL.Yaml.Tree
import GraphQL.Proofs.Execution.Ends
import GraphQL.Proofs.Execution.Moves
import GraphQL.Proofs.Execution.Progress
import GraphQL.Proofs.Execution.Rules
import GraphQL.Proofs.Execution.Composition
import GraphQL.Proofs.Execution.Submissions
import GraphQL.Proofs.Document.Keys
import GraphQL.Proofs.Execution.Collection
import GraphQL.Proofs.Except
import GraphQL.Proofs.Execution.Completions
import GraphQL.Proofs.Schema.Loaded
import GraphQL.Proofs.Syntax.Grammar
import GraphQL.Proofs.Execution.Conformance
import GraphQL.Proofs.Execution.Positions
import GraphQL.Proofs.Execution.Data
import GraphQL.Proofs.Execution.NullPropagation
import GraphQL.Proofs.Execution.ErrorOrder
import GraphQL.Proofs.Schema.Bare
import GraphQL.Proofs.Syntax.Names
import GraphQL.Proofs.Execution.Agreement
import GraphQL.Proofs.Execution.TwoRuns
import GraphQL.Proofs.Execution.Outputs
import GraphQL.Proofs.Execution.Scheduling
import GraphQL.Proofs.Execution.Isolation
import GraphQL.Proofs.Coercion.Canonical
import GraphQL.Proofs.Execution.Safety
import GraphQL.Proofs.Execution.Limits
import GraphQL.Proofs.Execution.Arguments
import GraphQL.Proofs.Execution.Collecting
import GraphQL.Proofs.Execution.Depth
import GraphQL.Proofs.Execution.Mirrors
import GraphQL.Proofs.Document.Pruning
import GraphQL.Proofs.Execution.Exclusion
import GraphQL.Proofs.Document.Expansion
import GraphQL.Proofs.Execution.Absorption
import GraphQL.Proofs.Execution.Expanded
import GraphQL.Proofs.Coercion.Bindings
import GraphQL.Proofs.Schema.InputFields
import GraphQL.Proofs.Coercion.Inline
import GraphQL.Proofs.Execution.Skipping
import GraphQL.Proofs.Execution.Debugging
import GraphQL.Proofs.Execution.InOrder
import GraphQL.Proofs.Execution.Places
import GraphQL.Proofs.Execution.Recording
import GraphQL.Proofs.Execution.FirstError
import GraphQL.Proofs.Execution.Parted
import GraphQL.Proofs.Execution.Aborting
import GraphQL.Proofs.Execution.Performing
import GraphQL.Proofs.Execution.Refusing
import GraphQL.Proofs.Execution.TimingOut
import GraphQL.Proofs.Execution.Straightening
import GraphQL.Proofs.Execution.SelectionOrder
import GraphQL.Proofs.Document.Mapping
import GraphQL.Proofs.Document.Relabeling
import GraphQL.Proofs.Execution.Relabeling
import GraphQL.Proofs.Execution.ResponseKeys
import GraphQL.Proofs.Json.Trees
import GraphQL.Proofs.Response.Reading
import GraphQL.Proofs.Execution.Blindness
import GraphQL.Proofs.Execution.Reuse
import GraphQL.Proofs.Schema.Registration
import GraphQL.Proofs.Execution.Propagation
import GraphQL.Proofs.Execution.Reporting
import GraphQL.Proofs.Syntax.Strings
import GraphQL.Proofs.Syntax.Numbers
import GraphQL.Proofs.Syntax.Layout
import GraphQL.Proofs.Syntax.Written
import GraphQL.Proofs.Syntax.Reads
import GraphQL.Proofs.Syntax.Reading
import GraphQL.Proofs.Syntax.Parsing
import GraphQL.Proofs.Syntax.Denoting
import GraphQL.Proofs.Document.Alike
import GraphQL.Proofs.Document.Lowering
import GraphQL.Proofs.Document.Selecting
import GraphQL.Proofs.Request.Reading
import GraphQL.Proofs.Coercion.Retraction
import GraphQL.Proofs.Coercion.Defaults
import GraphQL.Proofs.Schema.Extensions
import GraphQL.Proofs.Schema.Registered
import GraphQL.Proofs.Execution.Echoing
import GraphQL.Proofs.Execution.Selected
import GraphQL.Proofs.Execution.Superficial
import GraphQL.Proofs.Execution.Lockstep
import GraphQL.Proofs.Document.Merging
import GraphQL.Proofs.Execution.Merging
import GraphQL.Proofs.Execution.Merged
import GraphQL.Proofs.Directives
import GraphQL.Proofs.Syntax.Takes
import GraphQL.Proofs.Syntax.Occupying
import GraphQL.Proofs.Syntax.Taking
import GraphQL.Proofs.Syntax.Items
import GraphQL.Proofs.Document.Defects
import GraphQL.Proofs.Syntax.Scanning
import GraphQL.Proofs.Syntax.TypeNotation
import GraphQL.Proofs.Schema.Declared
import GraphQL.Proofs.Decimal.Overflow
import GraphQL.Proofs.Literal.Numbers
import GraphQL.Proofs.Literal.Evaluation
import GraphQL.Proofs.Json.Equality
import GraphQL.Proofs.Text.Locations
import GraphQL.Proofs.Contexts
import GraphQL.Proofs.Execution.Locating
