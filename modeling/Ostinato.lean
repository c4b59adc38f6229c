import Ostinato.Unicode.Word
import Ostinato.Unicode.Space
import Ostinato.Unicode.DecimalDigit
import Ostinato.Unicode.Printable
import Ostinato.Unicode.Lowercase
import Ostinato.Text.Quoted
import Ostinato.Number.Double
import Ostinato.Number.DecimalText
import Ostinato.Number.ClosestFraction
import Ostinato.Number.Numeral
import Ostinato.Fault
import Ostinato.Number.Arithmetic
import Ostinato.Random.Twister
import Ostinato.Pattern.Printer
import Ostinato.Event
import Ostinato.Rhythm
import Ostinato.Choice
import Ostinato.Query
import Ostinato.Notation.ParseError
import Ostinato.Notation.Parser
import Ostinato.Scheduler.Command
import Ostinato.Proofs.Rendering.Closure
import Ostinato.Proofs.Event.Cut
import Ostinato.Proofs.Event.Row
import Ostinato.Proofs.Rendering.Confinement
import Ostinato.Proofs.Rendering.Row
import Ostinato.Proofs.Rendering.Order
import Ostinato.Proofs.Rendering.Tiling
import Ostinato.Proofs.Event.Affine
import Ostinato.Proofs.Rendering.Affine
import Ostinato.Proofs.Event.Onsets
import Ostinato.Proofs.Rendering.Fixed
import Ostinato.Proofs.Rendering.Speed
import Ostinato.Proofs.Rendering.Gathering
import Ostinato.Proofs.Rendering.Repetition
import Ostinato.Proofs.Rendering.Pieces
import Ostinato.Proofs.Unicode.Lowercase
import Ostinato.Proofs.Unicode.Classes
import Ostinato.Proofs.Number.Nearest
import Ostinato.Proofs.Number.Finite
import Ostinato.Proofs.Number.Zero
import Ostinato.Proofs.Number.Numeral
import Ostinato.Proofs.Number.Rank
import Ostinato.Proofs.Number.Rounding
import Ostinato.Proofs.Number.Monotone
import Ostinato.Proofs.Number.Sums
import Ostinato.Proofs.Scheduler.Effects
import Ostinato.Proofs.Scheduler.Bookings
import Ostinato.Proofs.Scheduler.Ledger
import Ostinato.Proofs.Scheduler.Runs
import Ostinato.Proofs.Scheduler.Fates
import Ostinato.Proofs.Scheduler.Timers
import Ostinato.Proofs.Scheduler.Playing
import Ostinato.Proofs.Scheduler.Planned
import Ostinato.Proofs.Notation.Lexemes
import Ostinato.Proofs.Notation.Words
import Ostinato.Proofs.Notation.Places
import Ostinato.Proofs.Notation.Runs
import Ostinato.Proofs.Notation.Keeping
import Ostinato.Proofs.Notation.Canonical
import Ostinato.Proofs.Notation.Reads
import Ostinato.Proofs.Notation.Rereading
import Ostinato.Proofs.Notation.Elements
import Ostinato.Proofs.Notation.Image
import Ostinato.Proofs.Notation.WellFormed
import Ostinato.Proofs.Notation.Progress
import Ostinato.Proofs.Notation.Complaints
import Ostinato.Proofs.Notation.Moving
import Ostinato.Proofs.Notation.Brackets
import Ostinato.Proofs.Notation.Layout
import Ostinato.Proofs.Rendering.Faults
import Ostinato.Proofs.Rendering.Periods
import Ostinato.Proofs.Rendering.Turns
import Ostinato.Proofs.Scheduler.Unfinished
import Ostinato.Proofs.Scheduler.Pairing
import Ostinato.Proofs.Scheduler.Survival
import Ostinato.Proofs.Scheduler.Indifference
import Ostinato.Proofs.Scheduler.Reports
import Ostinato.Proofs.Scheduler.Finality
import Ostinato.Proofs.Scheduler.Latching
import Ostinato.Proofs.Scheduler.Tally
import Ostinato.Proofs.Scheduler.Present
import Ostinato.Proofs.Scheduler.Waiting
import Ostinato.Proofs.Scheduler.Punctual
import Ostinato.Proofs.Scheduler.Renewals
import Ostinato.Proofs.Scheduler.Splitting
import Ostinato.Proofs.Scheduler.Refusals
import Ostinato.Proofs.Scheduler.Swaps
import Ostinato.Proofs.Scheduler.Boundaries
import Ostinato.Proofs.Scheduler.Advancing
import Ostinato.Proofs.Rendering.Reversal
import Ostinato.Proofs.Rendering.Fragments
import Ostinato.Proofs.Rhythm.Evenness
import Ostinato.Proofs.Rendering.Rhythms
import Ostinato.Proofs.Event.Sorting
import Ostinato.Proofs.Number.Chances
import Ostinato.Proofs.Rendering.Grouping
import Ostinato.Proofs.Rendering.Unrolling
import Ostinato.Proofs.Rendering.Values
import Ostinato.Proofs.Rendering.Contexts
import Ostinato.Proofs.Rendering.Thinning
import Ostinato.Proofs.Rendering.Degrading
import Ostinato.Proofs.Event.Clipping
import Ostinato.Proofs.Rendering.Arcs
import Ostinato.Proofs.Rendering.Slides
import Ostinato.Proofs.Notation.Termination
