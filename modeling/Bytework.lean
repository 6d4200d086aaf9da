import Bytework.Buffer
import Bytework.Bytes.Basic
import Bytework.Bytes.Bounded
import Bytework.Bytes.Escape
import Bytework.Bytes.Search
import Bytework.Bytes.Shape
import Bytework.Cipher.Codec
import Bytework.Cipher.Letters
import Bytework.Cipher.Mask
import Bytework.Cipher.Radix
import Bytework.Cipher.Rearrange
import Bytework.Cipher.Spec
import Bytework.Cipher.Symbols
import Bytework.Directory.Change
import Bytework.Directory.Copy
import Bytework.Directory.Failure
import Bytework.Directory.Faults
import Bytework.Directory.OnVolume
import Bytework.Directory.Platform
import Bytework.Directory.Query
import Bytework.Directory.Walk
import Bytework.Path.Portable
import Bytework.Path.Posix
import Bytework.Pattern.Parser
import Bytework.Pattern.Program
import Bytework.Pattern.Regex
import Bytework.Pattern.Search
import Bytework.Pattern.Tree
import Bytework.Proofs.Buffer.History
import Bytework.Proofs.Bytes.Escape
import Bytework.Proofs.Bytes.Folded
import Bytework.Proofs.Bytes.Occurrences
import Bytework.Proofs.Bytes.Search
import Bytework.Proofs.Bytes.Utf16
import Bytework.Proofs.Bytes.Utf8
import Bytework.Proofs.Bytes.Words
import Bytework.Proofs.Cipher.Accepted
import Bytework.Proofs.Cipher.Bits
import Bytework.Proofs.Cipher.Bytewise
import Bytework.Proofs.Cipher.Canonical
import Bytework.Proofs.Cipher.Fence
import Bytework.Proofs.Cipher.Glyphs
import Bytework.Proofs.Cipher.Groups
import Bytework.Proofs.Cipher.Ids
import Bytework.Proofs.Cipher.Legible
import Bytework.Proofs.Cipher.Radix
import Bytework.Proofs.Cipher.Rearrange
import Bytework.Proofs.Cipher.RoundTrip
import Bytework.Proofs.Cipher.Separated
import Bytework.Proofs.Cipher.Settings
import Bytework.Proofs.Cipher.Shifts
import Bytework.Proofs.Cipher.Spelled
import Bytework.Proofs.Cipher.Values
import Bytework.Proofs.Directory.Alike
import Bytework.Proofs.Directory.Answers
import Bytework.Proofs.Directory.Children
import Bytework.Proofs.Directory.Confined
import Bytework.Proofs.Directory.Custody
import Bytework.Proofs.Directory.Deep
import Bytework.Proofs.Directory.Endless
import Bytework.Proofs.Directory.Ends
import Bytework.Proofs.Directory.Falters
import Bytework.Proofs.Directory.Finite
import Bytework.Proofs.Directory.Followed
import Bytework.Proofs.Directory.Frames
import Bytework.Proofs.Directory.Handles
import Bytework.Proofs.Directory.Itself
import Bytework.Proofs.Directory.Levels
import Bytework.Proofs.Directory.Made
import Bytework.Proofs.Directory.Merged
import Bytework.Proofs.Directory.Moved
import Bytework.Proofs.Directory.Pairs
import Bytework.Proofs.Directory.Pruned
import Bytework.Proofs.Directory.Reached
import Bytework.Proofs.Directory.Recorded
import Bytework.Proofs.Directory.Refused
import Bytework.Proofs.Directory.Removed
import Bytework.Proofs.Directory.Sorted
import Bytework.Proofs.Directory.Steady
import Bytework.Proofs.Directory.Steps
import Bytework.Proofs.Directory.Synced
import Bytework.Proofs.Directory.Temporary
import Bytework.Proofs.Path.Appended
import Bytework.Proofs.Path.Collapsed
import Bytework.Proofs.Path.Names
import Bytework.Proofs.Path.Normal
import Bytework.Proofs.Path.Normalized
import Bytework.Proofs.Path.Order
import Bytework.Proofs.Path.Shapes
import Bytework.Proofs.Path.Sliced
import Bytework.Proofs.Path.Upward
import Bytework.Proofs.Pattern.Anchored
import Bytework.Proofs.Pattern.Backtrack
import Bytework.Proofs.Pattern.Braces
import Bytework.Proofs.Pattern.Brackets
import Bytework.Proofs.Pattern.Capacity
import Bytework.Proofs.Pattern.Captures
import Bytework.Proofs.Pattern.CaseBlind
import Bytework.Proofs.Pattern.Classes
import Bytework.Proofs.Pattern.Enclosed
import Bytework.Proofs.Pattern.Expressed
import Bytework.Proofs.Pattern.Faults
import Bytework.Proofs.Pattern.Generated
import Bytework.Proofs.Pattern.Greed
import Bytework.Proofs.Pattern.InStep
import Bytework.Proofs.Pattern.Language
import Bytework.Proofs.Pattern.Layout
import Bytework.Proofs.Pattern.Leftmost
import Bytework.Proofs.Pattern.Literal
import Bytework.Proofs.Pattern.Moves
import Bytework.Proofs.Pattern.Parens
import Bytework.Proofs.Pattern.Parsed
import Bytework.Proofs.Pattern.Pieces
import Bytework.Proofs.Pattern.Quantifiers
import Bytework.Proofs.Pattern.Realize
import Bytework.Proofs.Pattern.Reread
import Bytework.Proofs.Pattern.Settled
import Bytework.Proofs.Pattern.Turns
import Bytework.Proofs.Pattern.Walks
import Bytework.Proofs.Pattern.Written
import Bytework.Proofs.Screen.Embedded
import Bytework.Proofs.Screen.Patterns
import Bytework.Proofs.Screen.Sanitized
import Bytework.Proofs.Screen.Scanned
import Bytework.Proofs.Screen.Searched
import Bytework.Proofs.Text.Parts
import Bytework.Proofs.Volume.Bounds
import Bytework.Proofs.Volume.Carried
import Bytework.Proofs.Volume.Connected
import Bytework.Proofs.Volume.Effects
import Bytework.Proofs.Volume.Footholds
import Bytework.Proofs.Volume.Gained
import Bytework.Proofs.Volume.Grown
import Bytework.Proofs.Volume.Joined
import Bytework.Proofs.Volume.Places
import Bytework.Proofs.Volume.Preorder
import Bytework.Proofs.Volume.Reach
import Bytework.Proofs.Volume.Reordered
import Bytework.Proofs.Volume.Resolved
import Bytework.Proofs.Volume.Seen
import Bytework.Proofs.Volume.Sound
import Bytework.Proofs.Volume.Tethered
import Bytework.Proofs.Volume.Ways
import Bytework.Screen.Account
import Bytework.Screen.Entropy
import Bytework.Screen.Findings
import Bytework.Screen.Lines
import Bytework.Screen.Phrases
import Bytework.Screen.Sanitize
import Bytework.Screen.Scan
import Bytework.Text.Blank
import Bytework.Text.Decimal
import Bytework.Text.Integer
import Bytework.Text.Quoted
import Bytework.Text.Ratio
import Bytework.Text.Visible
import Bytework.Volume.Basic
import Bytework.Volume.Calls
import Bytework.Volume.Entry
import Bytework.Volume.Errno
import Bytework.Volume.Forest
import Bytework.Volume.Listing
import Bytework.Volume.Resolve
