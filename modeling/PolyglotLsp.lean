import PolyglotLsp.Completion.ContextCache
import PolyglotLsp.Config.Layer
import PolyglotLsp.Config.Load
import PolyglotLsp.Config.LogLevel
import PolyglotLsp.Config.Settings
import PolyglotLsp.Config.Toml
import PolyglotLsp.Document.Snapshot
import PolyglotLsp.Document.Store
import PolyglotLsp.Document.Synchronizer
import PolyglotLsp.Document.Table
import PolyglotLsp.Error
import PolyglotLsp.Handler.Completion
import PolyglotLsp.Handler.Diagnostics
import PolyglotLsp.Handler.Navigation
import PolyglotLsp.Handler.Projection
import PolyglotLsp.Handler.Request
import PolyglotLsp.Json
import PolyglotLsp.Json.Compact
import PolyglotLsp.Json.Decode
import PolyglotLsp.Language
import PolyglotLsp.Lsp.Basic
import PolyglotLsp.Lsp.Completion
import PolyglotLsp.Lsp.Diagnostic
import PolyglotLsp.Lsp.Hover
import PolyglotLsp.Lsp.Params
import PolyglotLsp.Lsp.Services
import PolyglotLsp.Lsp.WorkspaceEdit
import PolyglotLsp.Markup.Completion
import PolyglotLsp.Markup.HtmlTags
import PolyglotLsp.Markup.TagHelper
import PolyglotLsp.Markup.Tree
import PolyglotLsp.Progress
import PolyglotLsp.Router.Core
import PolyglotLsp.Router.Machine
import PolyglotLsp.Router.Mapping
import PolyglotLsp.Router.Prog
import PolyglotLsp.Router.World
import PolyglotLsp.Scenario.Reader
import PolyglotLsp.Scenario.Report
import PolyglotLsp.Scenario.Script
import PolyglotLsp.Server.Registry
import PolyglotLsp.Server.Reply
import PolyglotLsp.Server.Shape
import PolyglotLsp.Text.Position
import PolyglotLsp.Text.Splice
import PolyglotLsp.Text.Utf8
import PolyglotLsp.Uri
import PolyglotLsp.Url.Basic
import PolyglotLsp.Url.FilePath
import PolyglotLsp.Url.Host
import PolyglotLsp.Url.Parse
import PolyglotLsp.Url.Percent
import PolyglotLsp.VirtualUri
import PolyglotLsp.Proofs.VirtualUri
import PolyglotLsp.Proofs.Document.History
import PolyglotLsp.Proofs.Document.ReverseIndex
import PolyglotLsp.Proofs.Document.Publication
import PolyglotLsp.Proofs.Document.WaitingRoom
import PolyglotLsp.Proofs.Document.WakeUp
import PolyglotLsp.Proofs.Progress.Move
import PolyglotLsp.Proofs.Progress.Correlator
import PolyglotLsp.Proofs.Progress.Turn
import PolyglotLsp.Proofs.Progress.Registry
import PolyglotLsp.Proofs.Progress.Delivery
import PolyglotLsp.Proofs.Progress.Lifecycle
import PolyglotLsp.Proofs.Session.Basic
import PolyglotLsp.Proofs.Session.Answers
import PolyglotLsp.Proofs.Session.Logic
import PolyglotLsp.Proofs.Session.Synchronization
import PolyglotLsp.Proofs.Handler.Projection
import PolyglotLsp.Proofs.Handler.Mapping
import PolyglotLsp.Proofs.Handler.Completion
import PolyglotLsp.Proofs.Handler.Navigation
import PolyglotLsp.Proofs.Handler.Diagnostics
import PolyglotLsp.Proofs.Replies
import PolyglotLsp.Proofs.Dispatch
import PolyglotLsp.Proofs.Document.Locality
import PolyglotLsp.Proofs.Document.Buffer
import PolyglotLsp.Proofs.Document.Versions
import PolyglotLsp.Proofs.Server.Registry
import PolyglotLsp.Proofs.Session.Calls
import PolyglotLsp.Proofs.Session.Mirror
import PolyglotLsp.Proofs.Session.Pairing
import PolyglotLsp.Proofs.Session.Frame
import PolyglotLsp.Proofs.Session.Rest
import PolyglotLsp.Proofs.Session.Once
import PolyglotLsp.Proofs.Completion.ContextCache
import PolyglotLsp.Proofs.Completion.Origin
import PolyglotLsp.Proofs.Completion.Resolve
import PolyglotLsp.Proofs.Handler.Waiting
import PolyglotLsp.Proofs.Handler.Gathering
import PolyglotLsp.Proofs.Cancellation
import PolyglotLsp.Proofs.Progress.Hearing
import PolyglotLsp.Proofs.Session.Listening
import PolyglotLsp.Proofs.Session.Owners
import PolyglotLsp.Proofs.References
import PolyglotLsp.Proofs.Server.Reply
import PolyglotLsp.Proofs.Session.Turns
import PolyglotLsp.Proofs.Session.FanOut
import PolyglotLsp.Proofs.Session.Verdicts
import PolyglotLsp.Proofs.Session.Yields
import PolyglotLsp.Proofs.Handler.Remapping
import PolyglotLsp.Proofs.Handler.Pull
import PolyglotLsp.Proofs.Text.Splice
import PolyglotLsp.Proofs.Handler.WorkspaceEdit
import PolyglotLsp.Proofs.Completion.PrimaryEdits
import PolyglotLsp.Proofs.Completion.ResolvedEdits
import PolyglotLsp.Proofs.Completion.Window
import PolyglotLsp.Proofs.Text.Order
import PolyglotLsp.Proofs.Document.Refusal
import PolyglotLsp.Proofs.Session.Refusal
import PolyglotLsp.Proofs.Url.Address
import PolyglotLsp.Proofs.Url.Authority
import PolyglotLsp.Proofs.Url.Reading
import PolyglotLsp.Proofs.Recognition
import PolyglotLsp.Proofs.Text.Lines
import PolyglotLsp.Proofs.Text.Offsets
import PolyglotLsp.Proofs.Text.Utf8
import PolyglotLsp.Proofs.Url.Percent
import PolyglotLsp.Proofs.Url.Legible
import PolyglotLsp.Proofs.Naming
import PolyglotLsp.Proofs.Uri.Grammar
import PolyglotLsp.Proofs.Uri.Authority
import PolyglotLsp.Proofs.Uri.Reading
import PolyglotLsp.Proofs.Uri.Expressible
import PolyglotLsp.Proofs.Session.Failure
import PolyglotLsp.Proofs.Handler.Failure
import PolyglotLsp.Proofs.Markup.TagHelper
import PolyglotLsp.Proofs.Markup.Owner
import PolyglotLsp.Proofs.Config.Layer
import PolyglotLsp.Proofs.Markup.Attributes
import PolyglotLsp.Proofs.Markup.Elements
import PolyglotLsp.Proofs.Session.Settings
import PolyglotLsp.Proofs.Json.RoundTrip
import PolyglotLsp.Proofs.Wire
