import LiveMarkup.CommandLine.Arguments
import LiveMarkup.CommandLine.Files
import LiveMarkup.CommandLine.Run
import LiveMarkup.CommandLine.Texts
import LiveMarkup.Component.Builtin
import LiveMarkup.Component.Mirror
import LiveMarkup.Component.Mount
import LiveMarkup.Component.Options
import LiveMarkup.Config
import LiveMarkup.Decimal.Binary
import LiveMarkup.Decimal.Layout
import LiveMarkup.Decimal.Read
import LiveMarkup.Decimal.Shortest
import LiveMarkup.Document
import LiveMarkup.Expression.Compiled
import LiveMarkup.Expression.Evaluate
import LiveMarkup.Expression.Node
import LiveMarkup.Expression.Reads
import LiveMarkup.Expression.Report
import LiveMarkup.Expression.Scan
import LiveMarkup.Expression.Token
import LiveMarkup.Expression.Tree
import LiveMarkup.Json.Basic
import LiveMarkup.Json.Lexeme
import LiveMarkup.Json.Read
import LiveMarkup.Main
import LiveMarkup.Markup.CharacterName
import LiveMarkup.Markup.CharacterReference
import LiveMarkup.Markup.Scan
import LiveMarkup.Markup.Tree
import LiveMarkup.Proofs.Component.Activation
import LiveMarkup.Proofs.Component.Apart
import LiveMarkup.Proofs.Component.Calls
import LiveMarkup.Proofs.Component.Checked
import LiveMarkup.Proofs.Component.Confined
import LiveMarkup.Proofs.Component.Delivery
import LiveMarkup.Proofs.Component.Disjoint
import LiveMarkup.Proofs.Component.Entries
import LiveMarkup.Proofs.Component.Follows
import LiveMarkup.Proofs.Component.Gates
import LiveMarkup.Proofs.Component.LoneConditionals
import LiveMarkup.Proofs.Component.Hosted
import LiveMarkup.Proofs.Component.InStep
import LiveMarkup.Proofs.Component.MountAmongOthers
import LiveMarkup.Proofs.Component.Listed
import LiveMarkup.Proofs.Component.MountOrder
import LiveMarkup.Proofs.Component.Mirrored
import LiveMarkup.Proofs.Component.Mounted
import LiveMarkup.Proofs.Component.Neighbours
import LiveMarkup.Proofs.Component.Order
import LiveMarkup.Proofs.Component.Page
import LiveMarkup.Proofs.Component.AmongOthers
import LiveMarkup.Proofs.Component.Places
import LiveMarkup.Proofs.Component.Plan
import LiveMarkup.Proofs.Component.Prepared
import LiveMarkup.Proofs.Component.Presence
import LiveMarkup.Proofs.Component.Quiescence
import LiveMarkup.Proofs.Component.Reflected
import LiveMarkup.Proofs.Component.Renamed
import LiveMarkup.Proofs.Component.Rewritten
import LiveMarkup.Proofs.Component.Scratch
import LiveMarkup.Proofs.Component.Standing
import LiveMarkup.Proofs.Component.SignalEffects
import LiveMarkup.Proofs.Component.Subscribers
import LiveMarkup.Proofs.Component.Territory
import LiveMarkup.Proofs.Component.Timely
import LiveMarkup.Proofs.Component.Tracking
import LiveMarkup.Proofs.Component.Turns
import LiveMarkup.Proofs.Decimal.Bits
import LiveMarkup.Proofs.Decimal.Cells
import LiveMarkup.Proofs.Decimal.Numerals
import LiveMarkup.Proofs.Document.Acyclic
import LiveMarkup.Proofs.Document.Arena
import LiveMarkup.Proofs.Document.Building
import LiveMarkup.Proofs.Document.Consistent
import LiveMarkup.Proofs.Document.Editing
import LiveMarkup.Proofs.Document.Edits
import LiveMarkup.Proofs.Document.Forest
import LiveMarkup.Proofs.Document.History
import LiveMarkup.Proofs.Document.Journal
import LiveMarkup.Proofs.Document.Links
import LiveMarkup.Proofs.Document.Moving
import LiveMarkup.Proofs.Document.NormalForm
import LiveMarkup.Proofs.Document.Numbering
import LiveMarkup.Proofs.Document.Outline
import LiveMarkup.Proofs.Document.Preorder
import LiveMarkup.Proofs.Document.Relabelled
import LiveMarkup.Proofs.Document.Renamed
import LiveMarkup.Proofs.Document.Siblings
import LiveMarkup.Proofs.Document.Stack
import LiveMarkup.Proofs.Document.Tidy
import LiveMarkup.Proofs.Expression.Called
import LiveMarkup.Proofs.Expression.Flat
import LiveMarkup.Proofs.Expression.Grammar
import LiveMarkup.Proofs.Expression.Levels
import LiveMarkup.Proofs.Expression.Lexing
import LiveMarkup.Proofs.Expression.Lockstep
import LiveMarkup.Proofs.Expression.Pieces
import LiveMarkup.Proofs.Expression.ReadSets
import LiveMarkup.Proofs.Expression.Serialized
import LiveMarkup.Proofs.Expression.Spacing
import LiveMarkup.Proofs.Expression.Tiling
import LiveMarkup.Proofs.Expression.Within
import LiveMarkup.Proofs.Expression.WrittenCall
import LiveMarkup.Proofs.Markup.Offsets
import LiveMarkup.Proofs.Markup.Printed
import LiveMarkup.Proofs.Markup.Reread
import LiveMarkup.Proofs.Markup.Scanned
import LiveMarkup.Proofs.Markup.Tags
import LiveMarkup.Proofs.Markup.Textless
import LiveMarkup.Proofs.Markup.Tiles
import LiveMarkup.Proofs.Reactive.Abreast
import LiveMarkup.Proofs.Reactive.Checked
import LiveMarkup.Proofs.Reactive.Ends
import LiveMarkup.Proofs.Reactive.Lasting
import LiveMarkup.Proofs.Reactive.Logged
import LiveMarkup.Proofs.Reactive.Outside
import LiveMarkup.Proofs.Reactive.Paired
import LiveMarkup.Proofs.Reactive.Pure
import LiveMarkup.Proofs.Reactive.Quiet
import LiveMarkup.Proofs.Reactive.ReadOnly
import LiveMarkup.Proofs.Reactive.Record
import LiveMarkup.Proofs.Reactive.Replay
import LiveMarkup.Proofs.Reactive.Settling
import LiveMarkup.Proofs.Reactive.Signals
import LiveMarkup.Proofs.Render.Scratch
import LiveMarkup.Proofs.Render.Skeleton
import LiveMarkup.Proofs.Selector.Conjunction
import LiveMarkup.Proofs.Selector.Grammar
import LiveMarkup.Proofs.Template.Leftmost
import LiveMarkup.Proofs.Template.Literal
import LiveMarkup.Proofs.Template.Offsets
import LiveMarkup.Proofs.Text.Bytes
import LiveMarkup.Proofs.Text.Cutting
import LiveMarkup.Reactive.Broadcast
import LiveMarkup.Reactive.Directive
import LiveMarkup.Reactive.Script
import LiveMarkup.Reactive.Store
import LiveMarkup.Render
import LiveMarkup.Selector
import LiveMarkup.Session.Notes
import LiveMarkup.Session.Operation
import LiveMarkup.Session.Sample
import LiveMarkup.Session.Trial
import LiveMarkup.Session.Watcher
import LiveMarkup.Step
import LiveMarkup.Table
import LiveMarkup.Template
import LiveMarkup.Text.Class
import LiveMarkup.Text.Cut
import LiveMarkup.Value
import LiveMarkup.Proofs.Decimal.Nearest
import LiveMarkup.Proofs.Value.Coherence
import LiveMarkup.Proofs.Decimal.ReadBack
import LiveMarkup.Proofs.Document.Search
import LiveMarkup.Proofs.Reactive.Feedback
