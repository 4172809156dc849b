import StructTags.Text.Blank
import StructTags.Text.Case
import StructTags.Text.Lossy
import StructTags.Text.Size
import StructTags.Text.Span
import StructTags.Text.Terminal
import StructTags.Text.Wrap
import StructTags.Path
import StructTags.Tag.Pair
import StructTags.Tag.Basic
import StructTags.Tag.Reading
import StructTags.Tag.Start
import StructTags.Tag.Scan
import StructTags.Augment.Replace
import StructTags.Augment.Basic
import StructTags.Error.Basic
import StructTags.Error.Context
import StructTags.Log.Level
import StructTags.Log.Config
import StructTags.Log.Journal
import StructTags.Log.Json
import StructTags.Log.Line
import StructTags.Host
import StructTags.Files
import StructTags.Pass
import StructTags.Disk.Basic
import StructTags.Disk.Walk
import StructTags.Disk.Services
import StructTags.World
import StructTags.Cli.Arguments
import StructTags.Cli.Help
import StructTags.Cli.Program
import StructTags.Cli.Session
import StructTags.Main
import StructTags.Proofs.Text.Place
import StructTags.Proofs.Text.Words
import StructTags.Proofs.Text.Case
import StructTags.Proofs.Tag.Pattern
import StructTags.Proofs.Tag.Layout
import StructTags.Proofs.Tag.Search
import StructTags.Proofs.Tag.Greedy
import StructTags.Proofs.Tag.Growth
import StructTags.Proofs.Tag.Longest
import StructTags.Proofs.Tag.Seam
import StructTags.Proofs.Augment.Occurrence
import StructTags.Proofs.Augment.Step
import StructTags.Proofs.Augment.Plain
import StructTags.Proofs.Augment.Idempotence
import StructTags.Proofs.Augment.Skipped
import StructTags.Proofs.Augment.Preservation
import StructTags.Proofs.Augment.Clean
import StructTags.Proofs.Augment.Insertion
import StructTags.Proofs.Augment.Following
import StructTags.Proofs.Augment.Stretch
import StructTags.Proofs.Augment.Doubling
import StructTags.Proofs.Augment.Reported
import StructTags.Proofs.Augment.Noted
import StructTags.Proofs.Augment.Adjoining
import StructTags.Proofs.Augment.Readback
import StructTags.Proofs.Augment.Replacement
import StructTags.Proofs.Augment.Applied
import StructTags.Proofs.Augment.Origin
import StructTags.Proofs.Augment.Seam
import StructTags.Proofs.Log.Shown
import StructTags.Proofs.Log.Precedence
import StructTags.Proofs.Error.Chain
import StructTags.Proofs.Disk.Outline
import StructTags.Proofs.Disk.Reach
import StructTags.Proofs.Disk.Trail
import StructTags.Proofs.Pass.Line
import StructTags.Proofs.Pass.Encounter
import StructTags.Proofs.Pass.Course
import StructTags.Proofs.Pass.Effect
import StructTags.Proofs.Pass.Limit
import StructTags.Proofs.Pass.Account
import StructTags.Proofs.Pass.Listing
import StructTags.Proofs.Pass.Logging
import StructTags.Proofs.Pass.Story
import StructTags.Proofs.Cli.Machine
import StructTags.Proofs.Cli.Status
import StructTags.Proofs.Cli.Indifference
import StructTags.Proofs.Cli.Story
import StructTags.Proofs.Cli.Counts
