import Stave.Configuration
import Stave.Decimal.Binary
import Stave.Decimal.Layout
import Stave.Decimal.Reader
import Stave.Decimal.Shortest
import Stave.Instrument
import Stave.JsonText
import Stave.Main
import Stave.Mix.Overlay
import Stave.Mix.Stream
import Stave.Output.Limiter
import Stave.Output.Link
import Stave.Output.Player
import Stave.Output.Sink
import Stave.Playback.Failure
import Stave.Playback.Preparation
import Stave.Playback.Rendering
import Stave.Playback.Session
import Stave.Playback.Settings
import Stave.Program.Arguments
import Stave.Program.Disk
import Stave.Program.Host
import Stave.Program.Listing
import Stave.Program.Run
import Stave.Proofs.Mix.Frames
import Stave.Proofs.Mix.Overlay
import Stave.Proofs.Mix.Spreading
import Stave.Proofs.Mix.Stream
import Stave.Proofs.Output.Ceiling
import Stave.Proofs.Output.Counter
import Stave.Proofs.Output.Fifo
import Stave.Proofs.Output.Limiting
import Stave.Proofs.Playback.Agreement
import Stave.Proofs.Playback.Blocks
import Stave.Proofs.Playback.Channels
import Stave.Proofs.Playback.Counting
import Stave.Proofs.Playback.Course
import Stave.Proofs.Playback.Deliveries
import Stave.Proofs.Playback.Gathering
import Stave.Proofs.Playback.Outcomes
import Stave.Proofs.Playback.Prepared
import Stave.Proofs.Playback.Pumping
import Stave.Proofs.Playback.Refusals
import Stave.Proofs.Playback.Requests
import Stave.Proofs.Playback.Restart
import Stave.Proofs.Playback.Routing
import Stave.Proofs.Playback.Superseded
import Stave.Proofs.Sample.Addresses
import Stave.Proofs.Sample.Declared
import Stave.Proofs.Sample.Interpolation
import Stave.Proofs.Sample.Lengths
import Stave.Proofs.Sample.Loading
import Stave.Proofs.Score.Adopting
import Stave.Proofs.Score.Appending
import Stave.Proofs.Score.Channel
import Stave.Proofs.Score.Extent
import Stave.Proofs.Score.Groups
import Stave.Proofs.Score.Lexing
import Stave.Proofs.Score.Places
import Stave.Proofs.Score.Positions
import Stave.Proofs.Score.Rearranging
import Stave.Proofs.Score.Registry
import Stave.Proofs.Score.Reprinting
import Stave.Proofs.Score.Sounding
import Stave.Proofs.Score.Ties
import Stave.Proofs.Song.BlockScalars
import Stave.Proofs.Song.Clarified
import Stave.Proofs.Song.Edits
import Stave.Proofs.Song.Entries
import Stave.Proofs.Song.Filling
import Stave.Proofs.Song.FlatText
import Stave.Proofs.Song.Gathered
import Stave.Proofs.Song.Keys
import Stave.Proofs.Song.Layout
import Stave.Proofs.Song.Meaning
import Stave.Proofs.Song.Music
import Stave.Proofs.Song.Named
import Stave.Proofs.Song.Names
import Stave.Proofs.Song.Patterns
import Stave.Proofs.Song.Pieces
import Stave.Proofs.Song.Samples
import Stave.Proofs.Song.Scopes
import Stave.Proofs.Song.Sections
import Stave.Proofs.Song.Span
import Stave.Proofs.Song.Staves
import Stave.Proofs.Song.Stretches
import Stave.Proofs.Song.Written
import Stave.Proofs.Sound.Arithmetic
import Stave.Proofs.Sound.Doubles
import Stave.Proofs.Sound.Lowpass
import Stave.Proofs.Sound.Rationals
import Stave.Proofs.Sound.Shape
import Stave.Proofs.Sound.Signs
import Stave.Proofs.Sound.Values
import Stave.Proofs.Sound.Voices
import Stave.Proofs.Text.Bytes
import Stave.Proofs.Text.Lines
import Stave.Proofs.Time.Clock
import Stave.Proofs.Time.Loop
import Stave.Proofs.Time.Measuring
import Stave.Proofs.Time.Mixing
import Stave.Proofs.Time.Once
import Stave.Proofs.Time.Onsets
import Stave.Proofs.Time.Reading
import Stave.Proofs.Time.Run
import Stave.Proofs.Time.Ticks
import Stave.Proofs.Time.Timeline
import Stave.Proofs.Time.Unread
import Stave.Proofs.Wav.Bytes
import Stave.Proofs.Wav.Header
import Stave.Proofs.Wav.RoundTrip
import Stave.Proofs.Yaml.Block
import Stave.Proofs.Yaml.Inline
import Stave.Proofs.Yaml.Lines
import Stave.Proofs.Yaml.Listed
import Stave.Proofs.Yaml.Scanning
import Stave.Proofs.Yaml.Tokens
import Stave.Proofs.Yaml.Tree
import Stave.Proofs.Yaml.Values
import Stave.Router
import Stave.Sample.Loader
import Stave.Sample.Recording
import Stave.Sample.Resample
import Stave.Scalar
import Stave.Score.Composition
import Stave.Score.Heading
import Stave.Score.Line
import Stave.Score.Note
import Stave.Score.Pitch
import Stave.Score.Registry
import Stave.Score.Token
import Stave.Song.Arrangement
import Stave.Song.Named
import Stave.Song.Overrides
import Stave.Song.Repeats
import Stave.Song.Section
import Stave.Sound.Bass
import Stave.Sound.Drum
import Stave.Sound.Envelope
import Stave.Sound.Lowpass
import Stave.Sound.Noise
import Stave.Sound.Oscillator
import Stave.Sound.Patch
import Stave.Sound.Pluck
import Stave.Sound.Settings
import Stave.Sound.Tuning
import Stave.Text.Blank
import Stave.Text.Digit
import Stave.Time.Event
import Stave.Time.Scheduler
import Stave.Time.Ticks
import Stave.Time.Timeline
import Stave.Time.Transport
import Stave.Wav.Bytes
import Stave.Wav.Decode
import Stave.Wav.Encode
import Stave.Wav.Format
import Stave.Yaml.Character
import Stave.Yaml.Name
import Stave.Yaml.Node
import Stave.Yaml.Number
import Stave.Yaml.Scalar
import Stave.Yaml.Scanner
import Stave.Yaml.Tag
import Stave.Yaml.Token
import Stave.Yaml.Value
