import DocTemplate.Code
import DocTemplate.CommandLine.Run
import DocTemplate.CommandLine.Summary
import DocTemplate.Config.Basic
import DocTemplate.Config.Reader
import DocTemplate.Dict
import DocTemplate.Document.Basic
import DocTemplate.Document.Draft
import DocTemplate.Document.Load
import DocTemplate.Document.Numbering
import DocTemplate.Document.Schema
import DocTemplate.Elapsed
import DocTemplate.Expression.Basic
import DocTemplate.Expression.Brackets
import DocTemplate.Json.Basic
import DocTemplate.Json.Numeral
import DocTemplate.Json.Printer
import DocTemplate.Json.Reader
import DocTemplate.Keyword
import DocTemplate.Limits
import DocTemplate.Log.Event
import DocTemplate.Log.Journal
import DocTemplate.Main
import DocTemplate.Numeral.Digits
import DocTemplate.Numeral.Double
import DocTemplate.Parse.Events
import DocTemplate.Parse.Header
import DocTemplate.Parse.Levels
import DocTemplate.Parse.Reading
import DocTemplate.Parse.Session
import DocTemplate.Problem
import DocTemplate.Processing
import DocTemplate.Proofs.Agreement
import DocTemplate.Proofs.Anchors
import DocTemplate.Proofs.Anonymity
import DocTemplate.Proofs.Assembling
import DocTemplate.Proofs.BalancedBrackets
import DocTemplate.Proofs.Blocks
import DocTemplate.Proofs.BodyLayout
import DocTemplate.Proofs.BracketAccounts
import DocTemplate.Proofs.CellReading
import DocTemplate.Proofs.ClippedMessages
import DocTemplate.Proofs.Collaborators
import DocTemplate.Proofs.Concatenation
import DocTemplate.Proofs.CursorQueue
import DocTemplate.Proofs.DenseNumbering
import DocTemplate.Proofs.DepthCounter
import DocTemplate.Proofs.Descent
import DocTemplate.Proofs.DescentAgreement
import DocTemplate.Proofs.DescentRules
import DocTemplate.Proofs.DiagramOptions
import DocTemplate.Proofs.Dictionaries
import DocTemplate.Proofs.DocumentOrder
import DocTemplate.Proofs.DraftNumbers
import DocTemplate.Proofs.DraftTokens
import DocTemplate.Proofs.Endings
import DocTemplate.Proofs.FieldErasure
import DocTemplate.Proofs.FieldReading
import DocTemplate.Proofs.Gathering
import DocTemplate.Proofs.Grammar
import DocTemplate.Proofs.HeaderAnchors
import DocTemplate.Proofs.Headers
import DocTemplate.Proofs.ImageValidity
import DocTemplate.Proofs.JsonRoundTrip
import DocTemplate.Proofs.LogHistory
import DocTemplate.Proofs.MaximalTexts
import DocTemplate.Proofs.Nesting
import DocTemplate.Proofs.NestingDepth
import DocTemplate.Proofs.NestingLimit
import DocTemplate.Proofs.Numbering
import DocTemplate.Proofs.OptionEffects
import DocTemplate.Proofs.OptionGrammar
import DocTemplate.Proofs.OptionSpacing
import DocTemplate.Proofs.OrderedParts
import DocTemplate.Proofs.Preorder
import DocTemplate.Proofs.ProviderOrder
import DocTemplate.Proofs.Pruning
import DocTemplate.Proofs.Recovery
import DocTemplate.Proofs.Recutting
import DocTemplate.Proofs.Reduction
import DocTemplate.Proofs.Refusals
import DocTemplate.Proofs.ReportOrder
import DocTemplate.Proofs.RoundTrip
import DocTemplate.Proofs.RunConservation
import DocTemplate.Proofs.SessionCalls
import DocTemplate.Proofs.SourceTree
import DocTemplate.Proofs.Steps
import DocTemplate.Proofs.StoredDocuments
import DocTemplate.Proofs.Strays
import DocTemplate.Proofs.StrippedKeywords
import DocTemplate.Proofs.SurveyCounts
import DocTemplate.Proofs.SurveyOrder
import DocTemplate.Proofs.TableMirroring
import DocTemplate.Proofs.Termination
import DocTemplate.Proofs.Tidying
import DocTemplate.Proofs.Tokenization
import DocTemplate.Proofs.ToldParses
import DocTemplate.Proofs.TreeInvariants
import DocTemplate.Proofs.WrittenImages
import DocTemplate.Proofs.WrittenTags
import DocTemplate.Provider
import DocTemplate.Storage
import DocTemplate.Template.Basic
import DocTemplate.Template.Encoding
import DocTemplate.Template.Options
import DocTemplate.Template.Survey
import DocTemplate.Template.Tag
import DocTemplate.Text.Blank
import DocTemplate.Text.Measure
import DocTemplate.Token.Basic
import DocTemplate.Token.Scan
import DocTemplate.Toml.Basic
import DocTemplate.Toml.Moment
import DocTemplate.Toml.Number
import DocTemplate.Toml.Reader
