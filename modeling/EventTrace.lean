import EventTrace.Capture.Guards
import EventTrace.Capture.Lifecycle
import EventTrace.Depot.Display
import EventTrace.Durations
import EventTrace.Event.Json
import EventTrace.Flows
import EventTrace.Json.Library
import EventTrace.Json.Plain
import EventTrace.Json.Reader
import EventTrace.Json.Writer
import EventTrace.Options.Display
import EventTrace.Options.Json
import EventTrace.Profile.Basic
import EventTrace.Proofs.Depot.References
import EventTrace.Proofs.Depot.Procedures
import EventTrace.Proofs.Depot.Ownership
import EventTrace.Proofs.Depot.Bookkeeping
import EventTrace.Proofs.Depot.Moves
import EventTrace.Proofs.Depot.Operations
import EventTrace.Proofs.Depot.Writing
import EventTrace.Proofs.Depot.Tenure
import EventTrace.Proofs.Depot.Freezing
import EventTrace.Proofs.Depot.Orderly
import EventTrace.Proofs.Depot.Contents
import EventTrace.Proofs.Depot.Seats
import EventTrace.Proofs.Screen
import EventTrace.Proofs.Depot.Posting
import EventTrace.Proofs.Depot.Chronicle
import EventTrace.Proofs.Depot.Balance
import EventTrace.Proofs.Capture.Running
import EventTrace.Proofs.Capture.Accounts
import EventTrace.Proofs.Depot.Filing
import EventTrace.Proofs.Depot.Faithful
import EventTrace.Proofs.Profile.Node
import EventTrace.Proofs.Profile.Thread
import EventTrace.Proofs.Table
import EventTrace.Proofs.Profile.Amounts
import EventTrace.Proofs.Profile.Replay
import EventTrace.Proofs.Profile.Rows
import EventTrace.Proofs.Depot.Recycling
import EventTrace.Proofs.Depot.Returns
import EventTrace.Proofs.Depot.Roomy
import EventTrace.Proofs.Capture.Lanes
import EventTrace.Proofs.Capture.Offers
import EventTrace.Proofs.Capture.Program
import EventTrace.Proofs.Capture.Minutes
import EventTrace.Proofs.Capture.Alignment
import EventTrace.Proofs.Capture.LastFirst
import EventTrace.Proofs.Recording.Grouping
import EventTrace.Proofs.Recording.Keys
import EventTrace.Proofs.Recording.Merge
import EventTrace.Proofs.Recording.Ties
import EventTrace.Proofs.Depot.Feeding
import EventTrace.Proofs.Depot.Covering
import EventTrace.Proofs.Depot.Counters
import EventTrace.Proofs.Depot.Overflow
import EventTrace.Proofs.Depot.WriteCosts
import EventTrace.Proofs.Depot.Alarms
import EventTrace.Proofs.Depot.Unpressed
import EventTrace.Proofs.Profile.Figures
import EventTrace.Proofs.Profile.Findings
import EventTrace.Proofs.Profile.Schedule
import EventTrace.Proofs.Durations.Lockstep
import EventTrace.Proofs.Depot.Closing
import EventTrace.Proofs.Depot.Telling
import EventTrace.Proofs.Depot.Pacing
import EventTrace.Proofs.Capture.Warnings
import EventTrace.Proofs.Profile.Outcomes
import EventTrace.Proofs.Capture.Answers
import EventTrace.Proofs.Capture.AllOrNothing
import EventTrace.Proofs.Capture.Tracing
import EventTrace.Proofs.Capture.Flowbook
import EventTrace.Proofs.Capture.FlowNumbers
import EventTrace.Proofs.Capture.FlowLinks
import EventTrace.Proofs.Flows
import EventTrace.Proofs.Capture.FlowSessions
import EventTrace.Proofs.FlowChains
import EventTrace.Proofs.Sampling
import EventTrace.Proofs.Depot.Drawing
import EventTrace.Proofs.Depot.Seclusion
import EventTrace.Proofs.Depot.Untouched
import EventTrace.Proofs.Depot.Lined
import EventTrace.Proofs.Depot.Newest
import EventTrace.Proofs.Profile.Scopes
import EventTrace.Proofs.Profile.Paths
import EventTrace.Proofs.Profile.Pictures
import EventTrace.Proofs.Categories
import EventTrace.Proofs.Profile.Pairs
import EventTrace.Proofs.Profile.Strictness
import EventTrace.Proofs.Profile.Truncation
import EventTrace.Proofs.Profile.Merged
import EventTrace.Proofs.Profile.Records
import EventTrace.Proofs.Profile.Conservation
import EventTrace.Proofs.Depot.FreeChain
import EventTrace.Proofs.Depot.Stack
import EventTrace.Proofs.Depot.Oblivious
import EventTrace.Proofs.Depot.Shortcuts
import EventTrace.Proofs.Decimal
import EventTrace.Proofs.Json.Text
import EventTrace.Proofs.Json.Fields
import EventTrace.Proofs.Json.Lawful
import EventTrace.Proofs.Json.Plain
import EventTrace.Proofs.Options.Stored
import EventTrace.Proofs.Stored
