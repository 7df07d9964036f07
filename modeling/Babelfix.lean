import Babelfix.Lib.Call
import Babelfix.Lib.Trace
import Babelfix.Lib.Tiles
import Babelfix.Message.Value
import Babelfix.Message.Block
import Babelfix.Session.Types
import Babelfix.Session.Replay
import Babelfix.Session.State
import Babelfix.Session.Handshake
import Babelfix.Session.Inbound
import Babelfix.Session.Outbound
import Babelfix.Session.Run
import Babelfix.Session.Accounting
import Babelfix.Session.Order
import Babelfix.Session.Resend
import Babelfix.Session.Tiling
import Babelfix.Sequencer.Model
import Babelfix.Sequencer.Spec
import Babelfix.Sequencer.Order
import Babelfix.Session.Conduct
import Babelfix.Sequencer.Acceptance
import Babelfix.Sequencer.Flow
import Babelfix.Session.Endpoint
import Babelfix.Sequencer.Connection
import Babelfix.Session.Wire
import Babelfix.Sequencer.Crash
import Babelfix.Sequencer.Failure
import Babelfix.Sequencer.Watermark
import Babelfix.Reorder.Window
import Babelfix.Reorder.Spec
import Babelfix.Reorder.Order
import Babelfix.Session.Arithmetic
import Babelfix.Session.Discipline
import Babelfix.Session.Logout
import Babelfix.Lib.Forest
import Babelfix.Tape.Encode
import Babelfix.Message.Numeral
import Babelfix.Tape.Lex
import Babelfix.Tape.Accept
import Babelfix.Tape.Content
import Babelfix.Tape.Envelope
import Babelfix.Tape.Flat
import Babelfix.Tape.Grow
import Babelfix.Tape.Lossless
import Babelfix.Tape.Pruned
import Babelfix.Tape.Reencode
import Babelfix.Driver.Chunks
import Babelfix.Driver.Handoff
import Babelfix.Session.Closing
import Babelfix.Session.Refusal
import Babelfix.Tape.Delimited
import Babelfix.Tape.Draft
import Babelfix.Tape.Drafting
import Babelfix.Tape.Finished
import Babelfix.Tape.Safety
import Babelfix.Driver.RoundTrip
import Babelfix.Session.Timers
import Babelfix.Lib.Spec
import Babelfix.Reorder.Invariant
import Babelfix.Reorder.Release
import Babelfix.Reorder.Sorting
import Babelfix.Session.Pending
import Babelfix.Tape.Framing
import Babelfix.Tape.Independence
import Babelfix.Tape.WireForm
import Babelfix.Tape.Announced
import Babelfix.Tape.Fragment
import Babelfix.Tape.Groups
import Babelfix.Tape.Validate
import Babelfix.Message.Time
import Babelfix.Message.Integer
import Babelfix.Message.Grammar
import Babelfix.Lib.Unfold
import Babelfix.Tape.Path
import Babelfix.Repo.Fields
import Babelfix.Sequencer.Numbers
import Babelfix.Tokio.Delivery
import Babelfix.Tape.Detection
import Babelfix.Tokio.Store
